import Elua.Foundation.TransitionSystem
import Elua.Lua.TableRehash

/-!
# Tables in runs

The states of a table are those that a program and the collector can bring it to: keys are set,
`OP_SETLIST` makes the array larger, and a collection clears slots. Any of the reallocations may
fail, and then the table stays as the error left it. All these tables are `Sound`, so
`rehash_intact` holds of every rehash in a run.

How deep `newkey` may be called again does not matter, as soon as it comes to an end
(`newkey_extends`).
-/

set_option autoImplicit false
set_option relaxedAutoImplicit false

namespace Elua.Lua.Tables

open Foundation Links TransitionSystem

variable {N : KeyNumbers} {V : Type*} {t : Table N V}

/-! ### The depth of the calls -/

/-- A second function does what the first one does, unless that one is stuck. -/
def Extends (insert insert' : Table N V → Key N → Outcome (Table N V) Slot) : Prop :=
  ∀ t k, insert t k ≠ .stuck → insert' t k = insert t k

section Extends

variable {insert insert' : Table N V → Key N → Outcome (Table N V) Slot}

theorem andThen_congr {State Value Result : Type*} {outcome outcome' : Outcome State Value}
    {rest rest' : State → Value → Outcome State Result}
    (houtcome : outcome ≠ .stuck → outcome' = outcome)
    (hrest : ∀ state value, rest state value ≠ .stuck → rest' state value = rest state value)
    (hends : outcome.andThen rest ≠ .stuck) : outcome'.andThen rest' = outcome.andThen rest := by
  rcases outcome with ⟨state, value⟩ | state | -
  · rw [houtcome fun heq ↦ by cases heq]
    exact hrest state value hends
  · rw [houtcome fun heq ↦ by cases heq]
    rfl
  · exact absurd rfl hends

theorem Extends.luaHSet (hextends : Extends insert insert') (t : Table N V) (k : Key N)
    (hends : luaHSet insert t k ≠ .stuck) : luaHSet insert' t k = luaHSet insert t k := by
  rw [Tables.luaHSet] at hends ⊢
  rw [Tables.luaHSet]
  rcases hget : luaHGet t k with - | slot
  · rw [hget] at hends
    exact hextends t k hends
  · rfl

theorem Extends.luaHSetnum (hextends : Extends insert insert') (t : Table N V) (key : ℤ)
    (hends : luaHSetnum insert t key ≠ .stuck) :
    luaHSetnum insert' t key = luaHSetnum insert t key := by
  rw [Tables.luaHSetnum] at hends ⊢
  rw [Tables.luaHSetnum]
  rcases hget : luaHGetnum t key with - | slot
  · rw [hget] at hends
    exact hextends t _ hends
  · rfl

theorem Extends.reinsert (hextends : Extends insert insert') (slice : List ℕ) (t : Table N V)
    (hends : reinsert insert slice t ≠ .stuck) :
    reinsert insert' slice t = reinsert insert slice t := by
  induction slice generalizing t with
  | nil => rfl
  | cons i slice ih =>
    rw [Tables.reinsert] at hends ⊢
    rw [Tables.reinsert]
    rcases helement : t.array[i]? with - | - | value
    · rfl
    · rw [helement] at hends
      exact ih t hends
    · rw [helement] at hends
      exact andThen_congr (hextends.luaHSetnum t _) (fun after slot ↦ ih _) hends

theorem Extends.resize (hextends : Extends insert insert') (mem : Memory) (t : Table N V)
    (nasize nhsize : ℕ) (hends : resize insert mem t nasize nhsize ≠ .stuck) :
    resize insert' mem t nasize nhsize = resize insert mem t nasize nhsize := by
  rw [Tables.resize] at hends ⊢
  rw [Tables.resize]
  refine andThen_congr (fun _ ↦ rfl)
    (fun grown _ ↦ andThen_congr (fun _ ↦ rfl) fun after _ hrest ↦ ?_) hends
  split_ifs at hrest ⊢
  · exact andThen_congr (hextends.reinsert _ _) (fun _ _ _ ↦ rfl) hrest
  · rfl

/-- Another level changes nothing. -/
theorem newkey_extends (mem : Memory) (depth : ℕ) :
    Extends (newkey mem depth : Table N V → Key N → Outcome (Table N V) Slot)
      (newkey mem (depth + 1)) := by
  induction depth with
  | zero => exact fun t k hends ↦ absurd rfl hends
  | succ depth ih =>
    intro t k hends
    rw [newkey] at hends ⊢
    rw [newkey]
    split_ifs at hends ⊢ with htaken
    · rcases hfree : getfreepos t with ⟨- | n, t'⟩
      · rw [hfree] at hends
        exact andThen_congr (ih.resize mem t' _ _) (fun after _ ↦ ih.luaHSet after k) hends
      · rfl
    · rfl

theorem newkey_of_le (mem : Memory) {depth depth' : ℕ} (hle : depth ≤ depth') :
    Extends (newkey mem depth : Table N V → Key N → Outcome (Table N V) Slot)
      (newkey mem depth') := by
  induction depth', hle using Nat.le_induction with
  | base => exact fun _ _ _ ↦ rfl
  | succ depth' _ ih =>
    intro t k hends
    have hsame := ih t k hends
    exact (newkey_extends mem depth' t k (hsame ▸ hends)).trans hsame

end Extends

/-! ### Runs -/

/-- What a call leaves, when its value is used. -/
def Outcome.Leaves {State Value : Type*} (use : State → Value → State)
    (outcome : Outcome State Value) (after : State) : Prop :=
  (∃ state value, outcome = .returns state value ∧ use state value = after) ∨
    outcome = .throws after

/-- What happens to a table. -/
inductive Event (N : KeyNumbers) (V : Type*)
  /-- `luaH_set`, or `luaH_setstr`, and a value for the key. -/
  | set (mem : Memory) (key : Key N) (value : Option V)
  /-- `luaH_setnum`, and a value for the key. -/
  | setnum (mem : Memory) (key : ℤ) (value : Option V)
  /-- `luaH_resizearray`, to a larger array. -/
  | resizearray (mem : Memory) (nasize : ℕ)
  /-- A weak value of the array is cleared. -/
  | clearElement (i : ℕ)
  /-- An entry of the nodes is cleared, or removed because it is empty. -/
  | clearNode (i : ℕ)

/-- A table from `luaH_new` on. -/
def tables (N : KeyNumbers) (V : Type*) : TransitionSystem (Table N V) (Event N V) where
  initial t := ∃ mem narray nhash, narray ≤ intMax ∧ luaHNew mem narray nhash = .returns t ()
  step t event after :=
    match event with
    | .set mem key value =>
      ∃ depth, (luaHSet (newkey mem depth) t key).Leaves (fun t slot ↦ t.store value slot) after
    | .setnum mem key value => (-intMax - 1 ≤ key ∧ key ≤ intMax) ∧
      ∃ depth, (luaHSetnum (newkey mem depth) t key).Leaves (fun t slot ↦ t.store value slot) after
    | .resizearray mem nasize => (t.sizearray < nasize ∧ nasize ≤ intMax) ∧
      ∃ depth, (luaHResizearray (newkey mem depth) mem t nasize).Leaves (fun t _ ↦ t) after
    | .clearElement i => after = t.store none (.array i)
    | .clearNode i => i < t.sizenode ∧ after = removeentry (t.store none (.node i)) i

section Runs

/-- A table without keys. -/
theorem Sound.of_empty (hempty : ∀ i, t.node i = emptyNode) (hlength : t.sizearray ≤ t.array.length)
    (hsizearray : t.sizearray ≤ intMax) (hbits : t.lsizenode ≤ maxBits)
    (hdummy : t.dummy = true → t.lastfree = 0) (hlastfree : t.lastfree ≤ t.sizenode)
    (hfull : t.dummy = false → t.lastfree = t.sizenode) : Sound t := by
  have hnext : ∀ i, t.next i = none := fun i ↦ by
    rw [Table.next, hempty i]
    rfl
  have hnil : ∀ i, (t.node i).key = .nil := fun i ↦ by
    rw [hempty i]
    rfl
  have hnokey : ∀ i k, (t.node i).key ≠ .key k := fun i k ↦ by
    rw [hnil i]
    exact fun heq ↦ by cases heq
  have hdead : ∀ i, ¬ Live t i := fun i hlive ↦ hlive.2 (by rw [hempty i]; rfl)
  refine ⟨⟨⟨fun {a b c} ha _ ↦ ?_, fun _ ↦ 0, fun a b hab ↦ ?_⟩, fun a b hab ↦ ?_, fun i _ _ ↦ ?_,
    fun i hlive ↦ absurd hlive (hdead i), fun i _ m hmain ↦ ?_, fun i _ m hmain ↦ ?_,
    fun i _ j _ k hkey ↦ absurd hkey (hnokey i k), fun i _ hlive ↦ absurd hlive (hdead i), hlength,
    hsizearray, hbits, fun htrue ↦ ⟨hdummy htrue, hempty⟩⟩, hlastfree, fun hreal i hi hle ↦ ?_⟩
  · rw [hnext a] at ha
    cases ha
  · rw [hnext a] at hab
    cases hab
  · rw [hnext a] at hab
    cases hab
  · refine ⟨by rw [hempty i]; rfl, hnext i, fun b hb ↦ ?_⟩
    rw [hnext b] at hb
    cases hb
  · exact absurd hmain (mainOf_ne_some (hnokey i))
  · exact absurd hmain (mainOf_ne_some (hnokey i))
  · rw [hfull hreal] at hle
    exact absurd hi (Nat.not_lt_of_le hle)

theorem Sound.of_luaHNew {mem : Memory} {narray nhash : ℕ} (hnarray : narray ≤ intMax)
    (hnew : luaHNew mem narray nhash = .returns t ()) : Sound t := by
  rw [luaHNew, setarrayvector] at hnew
  split_ifs at hnew with hmem
  swap
  · cases hnew
  have hlength : narray ≤ (([] : List (Option V)).take 0 ++
      List.replicate (narray - 0) none).length := by
    rw [List.take_nil, List.nil_append, List.length_replicate]
    omega
  dsimp only [Outcome.andThen] at hnew
  rw [resizenodevector] at hnew
  split_ifs at hnew with hzero hbits hnodes
  · obtain rfl := (Outcome.returns.inj hnew).1
    exact .of_empty (fun _ ↦ rfl) hlength hnarray (Nat.zero_le _) (fun _ ↦ rfl) (Nat.zero_le _)
      fun hreal ↦ by cases hreal
  · dsimp only at hnew
    split_ifs at hnew
    obtain rfl := (Outcome.returns.inj hnew).1
    have hlog : ceillog2 (2 ^ ceillog2 nhash) = ceillog2 nhash := ceillog2_two_pow _
    have hsize : 2 ^ ceillog2 nhash = 2 ^ ceillog2 (2 ^ ceillog2 nhash) := by rw [hlog]
    refine .of_empty (fun i ↦ ite_self emptyNode) hlength hnarray ?_ (fun htrue ↦ by cases htrue)
      hsize.le fun _ ↦ hsize
    rw [hlog]
    exact Nat.le_of_not_lt hbits
  · exact absurd rfl hnodes

/-- A key is set, or an error is thrown. -/
theorem Sound.leaves_set (hsound : Sound t) {mem : Memory} {k : Key N} {value : Option V}
    {depth : ℕ} {after : Table N V} (hleaves : (luaHSet (Tables.newkey mem depth) t k).Leaves
      (fun t slot ↦ t.store value slot) after) :
    Sound after := by
  rcases hget : luaHGet t k with - | slot
  · have hends : Tables.newkey mem depth t k ≠ .stuck := by
      intro hstuck
      rw [luaHSet, hget, hstuck] at hleaves
      rcases hleaves with ⟨_, _, hreturns, -⟩ | hthrows
      · cases hreturns
      · cases hthrows
    rw [luaHSet, hget] at hleaves
    dsimp only at hleaves
    rw [← newkey_of_le mem (Nat.le_add_right depth 3) t k hends] at hleaves
    rcases hsound.newkey hget mem depth with
      ⟨between, slot, hbetween, hinserted⟩ | ⟨between, hthrows, hsound'⟩
    · rw [hbetween] at hleaves
      rcases hleaves with ⟨_, _, hreturns, rfl⟩ | hthrows
      · obtain ⟨rfl, rfl⟩ := Outcome.returns.inj hreturns
        exact (hinserted.sound.store hinserted.get value).1
      · cases hthrows
    · rw [hthrows] at hleaves
      rcases hleaves with ⟨_, _, hreturns, -⟩ | hthrows'
      · cases hreturns
      · rw [← Outcome.throws.inj hthrows']
        exact hsound'
  · rw [luaHSet, hget] at hleaves
    rcases hleaves with ⟨_, _, hreturns, rfl⟩ | hthrows
    · obtain ⟨rfl, rfl⟩ := Outcome.returns.inj hreturns
      exact (hsound.store hget value).1
    · cases hthrows

theorem Sound.step (hsound : Sound t) {event : Event N V} {after : Table N V}
    (hstep : (tables N V).step t event after) : Sound after := by
  rcases event with ⟨mem, key, value⟩ | ⟨mem, key, value⟩ | ⟨mem, nasize⟩ | i | i
  · obtain ⟨depth, hleaves⟩ := hstep
    exact hsound.leaves_set hleaves
  · obtain ⟨⟨hlow, hhigh⟩, depth, hleaves⟩ := hstep
    rw [luaHSetnum_eq_luaHSet hlow hhigh] at hleaves
    exact hsound.leaves_set hleaves
  · obtain ⟨⟨hlarger, hmax⟩, depth, hleaves⟩ := hstep
    rcases hsound.luaHResizearray mem hmax hlarger with
      ⟨last, hlast, hsound', -⟩ | ⟨last, hthrows, hsound', -⟩
    · rw [hlast] at hleaves
      rcases hleaves with ⟨_, _, hreturns, rfl⟩ | hthrows
      · rw [← (Outcome.returns.inj hreturns).1]
        exact hsound'
      · cases hthrows
    · rw [hthrows] at hleaves
      rcases hleaves with ⟨_, _, hreturns, -⟩ | hthrows'
      · cases hreturns
      · rw [← Outcome.throws.inj hthrows']
        exact hsound'
  · rw [hstep]
    exact hsound.setArray List.length_set
  · obtain ⟨hi, rfl⟩ := hstep
    have hcleared : Sound (t.setVal i none) := hsound.setVal hi fun hne ↦ absurd rfl hne
    refine hcleared.removeentry hi ?_
    rw [val_setVal, if_pos rfl]

theorem sound_of_reachable (hreach : (tables N V).Reachable t) : Sound t := by
  refine ReachableUnder.invariant Sound (fun t hinitial ↦ ?_)
    (fun t event after hsound _ hstep ↦ hsound.step hstep) hreach
  obtain ⟨mem, narray, nhash, hnarray, hnew⟩ := hinitial
  exact .of_luaHNew hnarray hnew

end Runs

/-! ### Rehashes in a run -/

/-- The chains of a table: none is a circle, every key with a value is reached from its main position,
and every node that is not in its main position is on the chain of the one that is there. -/
structure WellChained (t : Table N V) : Prop where
  acyclic : ∀ i, ¬ Relation.TransGen (fun a b ↦ t.next a = some b) i i
  live : ∀ i, Live t i → ∃ k, (t.node i).key = .key k ∧
    Reaches t.next (mainposition t.sizenode k) i
  displaced : ∀ i < t.sizenode, ∀ k, (t.node i).key = .key k → mainposition t.sizenode k ≠ i →
    i ∈ t.chain (mainposition t.sizenode k)

theorem Chained.acyclic {next : ℕ → Option ℕ} (hchained : Chained next) (i : ℕ) :
    ¬ Relation.TransGen (fun a b ↦ next a = some b) i i := by
  obtain ⟨rank, hrank⟩ := hchained.ends
  have hless : ∀ {a b}, Relation.TransGen (fun a b ↦ next a = some b) a b → rank b < rank a := by
    intro a b hpath
    induction hpath with
    | single hnext => exact hrank _ _ hnext
    | tail _ hnext ih => exact Nat.lt_trans (hrank _ _ hnext) ih
  exact fun hcircle ↦ Nat.lt_irrefl _ (hless hcircle)

theorem Consistent.wellChained (hconsistent : Consistent t) : WellChained t := by
  refine ⟨Chained.acyclic hconsistent.chained, fun i hlive ↦ ?_, fun i hi k hkey _ ↦ ?_⟩
  · obtain ⟨k, hkey⟩ := hconsistent.keyed i hlive
    exact ⟨k, hkey, hconsistent.reached i hlive.1 _ (mainOf_of_key hkey)⟩
  · exact hconsistent.mem_chain hi hkey

/-- Tables that hold the same are the same maps. -/
theorem Consistent.get_eq {after : Table N V} (hconsistent : Consistent t)
    (hafter : Consistent after) (hholds : ∀ k v, after.Holds k v ↔ t.Holds k v) (k : Key N) :
    after.get k = t.get k := by
  refine Option.ext fun v ↦ ?_
  rw [hafter.get_eq_some_iff, hconsistent.get_eq_some_iff, hholds]

/-- A call that gives the array a size returns the same map, with sound chains. If memory runs out,
the chains are sound, and the map is the same unless the array gets smaller and has more elements
than `rehash` counts. No search for a free node is in vain, and no loop runs on. -/
def Preserves (t : Table N V) (size : ℕ) : Outcome (Table N V) Unit → Prop
  | .returns after _ => (∀ k, after.get k = t.get k) ∧ WellChained after
  | .throws after =>
    (t.sizearray ≤ max size maxAsize → ∀ k, after.get k = t.get k) ∧ WellChained after
  | .stuck => False

theorem Keeps.preserves {size : ℕ} {outcome : Outcome (Table N V) Unit} (hsound : Sound t)
    (hkeeps : Keeps t size outcome) : Preserves t size outcome := by
  rcases hkeeps with ⟨after, rfl, hafter, hholds, -⟩ | ⟨after, rfl, hafter, hholds⟩
  · exact ⟨hsound.get_eq hafter.toConsistent hholds, hafter.wellChained⟩
  · exact ⟨fun hsize ↦ hsound.get_eq hafter.toConsistent (hholds hsize), hafter.wellChained⟩

/-- A rehash in place keeps the table intact, when a key is inserted and no node is free, and when
the array is made larger. It does so at every depth from two on. -/
theorem rehash_intact (hreach : (tables N V).Reachable t) :
    WellChained t ∧
    (∀ mem key depth, luaHGet t key = none → Crowded t key → 2 ≤ depth →
      Preserves t (rehashSizes (getfreepos t).2 key).1
        (rehash (newkey mem depth) mem (getfreepos t).2 key)) ∧
    ∀ mem nasize depth, t.sizearray < nasize → nasize ≤ intMax →
      Preserves t nasize (luaHResizearray (newkey mem depth) mem t nasize) := by
  have hsound := sound_of_reachable hreach
  refine ⟨hsound.wellChained, fun mem key depth hget hcrowded hdepth ↦ ?_,
    fun mem nasize depth hlarger hmax ↦ (hsound.luaHResizearray mem hmax hlarger).preserves hsound⟩
  obtain ⟨hposition, hsound₀⟩ := hsound.getfreepos_of_crowded hcrowded
  obtain ⟨level, rfl⟩ := Nat.exists_eq_add_of_le' hdepth
  rw [hposition]
  have hkeeps : Keeps t (rehashSizes (t.setLast 0) key).1
      (rehash (newkey mem (level + 2)) mem (t.setLast 0) key) :=
    hsound₀.rehash_newkey hget mem level
  exact hkeeps.preserves hsound

/-! ### A table with a collision -/

/-- The numbers of a build with `LUA_NUMBER_INTEGRAL`. -/
def integralNumbers : KeyNumbers where
  Number := Int32
  castNum := Int32.ofInt
  number2int := Int32.toInt
  ints n := [n.toUInt32]
  number2int_castNum k hlow hhigh := by
    have hmax : (intMax : ℤ) = 2147483647 := rfl
    exact Int32.toInt_ofInt_of_le (by omega) (by omega)

/-- Memory does not run out. -/
def plenty : Memory := ⟨fun _ _ ↦ true, fun _ _ ↦ true⟩

/-- The table of `luaH_new(L, 1, 2)`. -/
def newTable : Table integralNumbers ℕ :=
  ⟨[none], 1, fun i ↦ if 0 ≤ i ∧ i < 2 then emptyNode else emptyNode, 1, false, 2⟩

/-- The table with an element at 1. -/
def oneElement : Table integralNumbers ℕ := newTable.store (some 7) (.array 0)

/-- The key 2 is in its main position. -/
def oneKey : Table integralNumbers ℕ := (oneElement.setKey 0 (intKey 2)).store (some 8) (.node 0)

/-- The node of the key 3, which has the same main position, on its chain. -/
def chainedNode : Table integralNumbers ℕ :=
  (({ oneKey with lastfree := 1 }.setNext 1 none).setNext 0 (some 1)).setKey 1 (intKey 3)

/-- The table when both nodes are taken. -/
def twoKeys : Table integralNumbers ℕ := chainedNode.store (some 9) (.node 1)

theorem reachable_twoKeys : (tables integralNumbers ℕ).Reachable twoKeys := by
  have hnew : luaHNew plenty 1 2 = .returns newTable () := rfl
  have hfirst : luaHSetnum (newkey plenty 1) newTable 1 = .returns newTable (.array 0) := rfl
  have hsecond : luaHSet (newkey plenty 1) oneElement (intKey 2) =
      .returns (oneElement.setKey 0 (intKey 2)) (.node 0) := rfl
  have hthird : luaHSet (newkey plenty 1) oneKey (intKey 3) = .returns chainedNode (.node 1) := rfl
  have hstart : (tables integralNumbers ℕ).Reachable newTable :=
    .start ⟨plenty, 1, 2, by decide, hnew⟩
  have helement : (tables integralNumbers ℕ).Reachable oneElement :=
    hstart.andThen (.setnum plenty 1 (some 7)) trivial ⟨by decide, 1, .inl ⟨_, _, hfirst, rfl⟩⟩
  have hkey : (tables integralNumbers ℕ).Reachable oneKey :=
    helement.andThen (.set plenty (intKey 2) (some 8)) trivial ⟨1, .inl ⟨_, _, hsecond, rfl⟩⟩
  exact hkey.andThen (.set plenty (intKey 3) (some 9)) trivial ⟨1, .inl ⟨_, _, hthird, rfl⟩⟩

/-- Another key is inserted, which moves both nodes to the array, or the array is made larger. -/
theorem rehash_intact_twoKeys :
    Preserves twoKeys 4 (rehash (newkey plenty 2) plenty (getfreepos twoKeys).2 (.boolean false)) ∧
      Preserves twoKeys 8 (luaHResizearray (newkey plenty 0) plenty twoKeys 8) := by
  obtain ⟨-, hinsert, hresize⟩ := rehash_intact reachable_twoKeys
  have hsize : (rehashSizes (getfreepos twoKeys).2 (.boolean false)).1 = 4 := by decide +kernel
  refine ⟨?_, hresize plenty 8 0 (by decide) (by decide)⟩
  have hpreserves := hinsert plenty (.boolean false) 2 rfl ⟨.inl rfl, rfl⟩ (Nat.le_refl 2)
  rwa [hsize] at hpreserves

end Elua.Lua.Tables
