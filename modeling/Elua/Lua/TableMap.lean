import Elua.Lua.Outcomes
import Elua.Lua.TableRuns

/-!
# Tables as maps

A table stands for the map from its keys to their values (`Table.get`). `ActsAsMap` says what the
calls do to that map: a value that is stored in the slot of a key changes the map at this key, a
larger array changes nothing, and the collector takes single keys out. A call that fails changes
nothing either, unless the table has an array that `rehash` does not count to its end. All tables of
a run act as maps, and the map of a table is what its assignments make of the one that was there before
them (`table_acts_as_map`).
-/

set_option autoImplicit false
set_option relaxedAutoImplicit false

namespace Elua.Lua.Tables

open Foundation Links TransitionSystem

variable {N : KeyNumbers} {V : Type*} {t after : Table N V} {k : Key N}

/-- The calls change a table as they change a map. -/
structure ActsAsMap (t : Table N V) : Prop where
  set : ∀ mem key depth, (luaHSet (newkey mem depth) t key).Meets
    (fun after slot ↦ ∀ value, (after.store value slot).get = Function.update t.get key value)
    fun after ↦ t.sizearray ≤ maxAsize → after.get = t.get
  setnum : ∀ mem (key : ℤ) depth, -intMax - 1 ≤ key → key ≤ intMax →
    (luaHSetnum (newkey mem depth) t key).Meets
      (fun after slot ↦ ∀ value,
        (after.store value slot).get = Function.update t.get (.number (N.castNum key)) value)
      fun after ↦ t.sizearray ≤ maxAsize → after.get = t.get
  ends : ∀ mem key depth, 3 ≤ depth → luaHSet (newkey mem depth) t key ≠ .stuck
  resizearray : ∀ mem nasize depth, t.sizearray < nasize → nasize ≤ intMax →
    (luaHResizearray (newkey mem depth) mem t nasize).Meets (fun after _ ↦ after.get = t.get)
      fun after ↦ after.get = t.get
  clearElement : ∀ i < t.sizearray,
    (t.store none (.array i)).get = Function.update t.get (intKey (i + 1)) none
  clearNode : ∀ i < t.sizenode, (removeentry (t.store none (.node i)) i).get = t.get ∨
    ∃ key, (t.node i).key = .key key ∧
      (removeentry (t.store none (.node i)) i).get = Function.update t.get key none

/-! ### Storing -/

theorem Sound.get_congr (hsound : Sound t) (hafter : Sound after)
    (hholds : ∀ k v, after.Holds k v ↔ t.Holds k v) : after.get = t.get :=
  funext (hsound.get_eq hafter.toConsistent hholds)

theorem Sound.get_store (hsound : Sound t) {slot : Slot} (hget : luaHGet t k = some slot)
    (value : Option V) : (t.store value slot).get = Function.update t.get k value := by
  obtain ⟨hafter, hholds, -⟩ := hsound.store hget value
  refine funext fun key ↦ Option.ext fun v ↦ ?_
  rw [hafter.get_eq_some_iff, hholds]
  by_cases hkey : key = k
  · rw [if_pos hkey, hkey, Function.update_self]
  · rw [if_neg hkey, Function.update_of_ne hkey, hsound.get_eq_some_iff]

theorem Inserted.get_store {slot : Slot} (hinserted : Inserted t k after slot) (hsound : Sound t)
    (value : Option V) : (after.store value slot).get = Function.update t.get k value := by
  rw [hinserted.sound.get_store hinserted.get, hsound.get_congr hinserted.sound hinserted.holds]

/-! ### Failing -/

/-- A rehash that comes to an end keeps what the table holds, however deep it may go. -/
theorem Sound.rehash_keeps (hsound : Sound t) (hget : luaHGet t k = none) (mem : Memory)
    (depth : ℕ) (hends : Tables.rehash (Tables.newkey mem depth) mem t k ≠ .stuck) :
    Keeps t (rehashSizes t k).1 (Tables.rehash (Tables.newkey mem depth) mem t k) := by
  have hmore := (newkey_of_le mem (Nat.le_add_right depth 2)).resize mem t (rehashSizes t k).1
    (rehashSizes t k).2 hends
  have hkeeps := hsound.rehash_newkey hget mem depth
  rw [Tables.rehash, hmore] at hkeeps
  exact hkeeps

/-- If `newkey` throws, the table holds what it held. -/
theorem Sound.newkey_throws (hsound : Sound t) (hget : luaHGet t k = none) (mem : Memory)
    (depth : ℕ) (hthrows : Tables.newkey mem depth t k = .throws after)
    (hsize : t.sizearray ≤ maxAsize) : Sound after ∧ ∀ k' v, after.Holds k' v ↔ t.Holds k' v := by
  induction depth generalizing t with
  | zero => cases hthrows
  | succ depth ih =>
    by_cases hcrowded : Crowded t k
    swap
    · obtain ⟨last, slot, hlast, -⟩ := hsound.newkey_of_not_crowded hget hcrowded mem depth
      rw [hlast] at hthrows
      cases hthrows
    obtain ⟨hposition, hsound₀⟩ := hsound.getfreepos_of_crowded hcrowded
    have hget₀ : luaHGet (t.setLast 0) k = none := hget
    rw [Tables.newkey, if_pos hcrowded.1, hposition] at hthrows
    dsimp only at hthrows
    have hends : Tables.rehash (Tables.newkey mem depth) mem (t.setLast 0) k ≠ .stuck := by
      intro hstuck
      rw [hstuck] at hthrows
      cases hthrows
    rcases hsound₀.rehash_keeps hget₀ mem depth hends with
      ⟨between, hbetween, hsound', hholds, hsize'⟩ | ⟨between, hbetween, hsound', hholds⟩
    · rw [hbetween] at hthrows
      dsimp only [Outcome.andThen] at hthrows
      rw [luaHSet] at hthrows
      rcases hget' : luaHGet between k with - | slot
      · rw [hget'] at hthrows
        have hmax := (hsound₀.rehashSizes_eq hget₀).1.le
        obtain ⟨hafter, hsame⟩ := ih hsound' hget' hthrows (hsize'.symm ▸ hmax)
        exact ⟨hafter, fun k' v ↦ (hsame k' v).trans (hholds k' v)⟩
      · rw [hget'] at hthrows
        cases hthrows
    · rw [hbetween] at hthrows
      obtain rfl := Outcome.throws.inj hthrows
      exact ⟨hsound', hholds (hsize.trans (Nat.le_max_right _ _))⟩

/-! ### Setting a key -/

theorem Sound.meets_luaHSet (hsound : Sound t) (mem : Memory) (k : Key N) (depth : ℕ) :
    (luaHSet (Tables.newkey mem depth) t k).Meets
      (fun after slot ↦ ∀ value, (after.store value slot).get = Function.update t.get k value)
      fun after ↦ t.sizearray ≤ maxAsize → after.get = t.get := by
  rw [luaHSet]
  rcases hget : luaHGet t k with - | slot
  · dsimp only
    rcases houtcome : Tables.newkey mem depth t k with ⟨last, slot⟩ | last | -
    · have hends : Tables.newkey mem depth t k ≠ .stuck := fun hstuck ↦ by
        rw [houtcome] at hstuck
        cases hstuck
      have hmore := newkey_of_le mem (Nat.le_add_right depth 3) t k hends
      rcases hsound.newkey hget mem depth with
        ⟨last', slot', hreturns, hinserted⟩ | ⟨last', hthrows, -⟩
      · rw [hmore, houtcome] at hreturns
        obtain ⟨rfl, rfl⟩ := Outcome.returns.inj hreturns
        exact hinserted.get_store hsound
      · rw [hmore, houtcome] at hthrows
        cases hthrows
    · intro hsize
      obtain ⟨hlast, hholds⟩ := hsound.newkey_throws hget mem depth houtcome hsize
      exact hsound.get_congr hlast hholds
    · exact trivial
  · exact hsound.get_store hget

theorem Sound.luaHSet_ne_stuck (hsound : Sound t) (mem : Memory) (k : Key N) {depth : ℕ}
    (hdepth : 3 ≤ depth) : luaHSet (Tables.newkey mem depth) t k ≠ .stuck := by
  obtain ⟨level, rfl⟩ := Nat.exists_eq_add_of_le' hdepth
  rw [luaHSet]
  rcases hget : luaHGet t k with - | slot
  · intro hstuck
    rcases hsound.newkey hget mem level with ⟨_, _, hreturns, -⟩ | ⟨_, hthrows, -⟩
    · rw [hreturns] at hstuck
      cases hstuck
    · rw [hthrows] at hstuck
      cases hstuck
  · exact fun hstuck ↦ by cases hstuck

/-! ### Collecting -/

theorem Sound.get_removeentry (hsound : Sound t) {i : ℕ} (hi : i < t.sizenode)
    (hval : (t.node i).val = none) : (Tables.removeentry t i).get = t.get := by
  refine hsound.get_congr (hsound.removeentry hi hval) fun k v ↦ ?_
  rw [Tables.removeentry]
  rcases hkey : (t.node i).key with - | - | dying
  · rfl
  · rfl
  dsimp only
  split_ifs
  swap
  · rfl
  have hnode : ∀ j, (((t.setNode i { t.node i with key := .dead }).node j).key = .key k ∧
      ((t.setNode i { t.node i with key := .dead }).node j).val = some v) ↔
        (t.node j).key = .key k ∧ (t.node j).val = some v := by
    intro j
    by_cases hj : j = i
    · rw [hj, node_setNode_self, hval]
      exact iff_of_false (fun hboth ↦ by cases hboth.2) fun hboth ↦ by cases hboth.2
    · rw [node_setNode_of_ne _ _ hj]
  exact or_congr_right (exists_congr fun j ↦ and_congr_right fun _ ↦ hnode j)

theorem setVal_of_val_eq_none {i : ℕ} (hval : (t.node i).val = none) : t.setVal i none = t := by
  have hsame : { t.node i with val := none } = t.node i := Node.ext rfl hval.symm rfl
  rw [Table.setVal, Table.store, hsame, Table.setNode, Function.update_eq_self]

/-- The key of a node with a value is found there. -/
theorem Sound.exists_luaHGet (hsound : Sound t) {i : ℕ} (hlive : Live t i) :
    ∃ key, (t.node i).key = .key key ∧ luaHGet t key = some (.node i) := by
  obtain ⟨key, hkey⟩ := hsound.keyed i hlive
  refine ⟨key, hkey, ?_⟩
  rw [luaHGet_of_not_inArray (hsound.apart i key hlive hkey)]
  exact hsound.findNode_eq_some hlive.1 hkey

theorem Sound.get_clearNode (hsound : Sound t) {i : ℕ} (hi : i < t.sizenode) :
    (Tables.removeentry (t.store none (.node i)) i).get = t.get ∨
      ∃ key, (t.node i).key = .key key ∧
        (Tables.removeentry (t.store none (.node i)) i).get = Function.update t.get key none := by
  have hcleared : Sound (t.setVal i none) := hsound.setVal hi fun hne ↦ absurd rfl hne
  have hnone : ((t.setVal i none).node i).val = none := by rw [val_setVal, if_pos rfl]
  change (Tables.removeentry (t.setVal i none) i).get = t.get ∨ ∃ key, (t.node i).key = .key key ∧
    (Tables.removeentry (t.setVal i none) i).get = _
  rw [hcleared.get_removeentry hi hnone]
  by_cases hval : (t.node i).val = none
  · rw [setVal_of_val_eq_none hval]
    exact .inl rfl
  · obtain ⟨key, hkey, hget⟩ := hsound.exists_luaHGet ⟨hi, hval⟩
    exact .inr ⟨key, hkey, hsound.get_store hget none⟩

theorem Sound.luaHGet_intKey (hsound : Sound t) {i : ℕ} (hi : i < t.sizearray) :
    luaHGet t (intKey (i + 1)) = some (.array i) := by
  have hmax := hsound.sizearray
  have hindex : arrayindex (intKey (i + 1) : Key N) = (i + 1 : ℕ) := arrayindex_intKey (by omega)
  have hin : InArray t (intKey (i + 1)) := ⟨by omega, by omega⟩
  have hplace : (arrayindex (intKey (i + 1) : Key N) - 1).toNat = i := by omega
  rw [luaHGet_of_inArray hin, hplace]

/-! ### Runs -/

theorem Sound.actsAsMap (hsound : Sound t) : ActsAsMap t where
  set := fun mem key depth ↦ hsound.meets_luaHSet mem key depth
  setnum := by
    intro mem key depth hlow hhigh
    rw [luaHSetnum_eq_luaHSet hlow hhigh]
    exact hsound.meets_luaHSet mem _ depth
  ends := fun mem key depth hdepth ↦ hsound.luaHSet_ne_stuck mem key hdepth
  resizearray := by
    intro mem nasize depth hlarger hmax
    rcases hsound.luaHResizearray mem hmax hlarger with
      ⟨last, hlast, hsound', hholds, -⟩ | ⟨last, hthrows, hsound', hholds⟩
    · rw [hlast]
      exact hsound.get_congr hsound' hholds
    · rw [hthrows]
      exact hsound.get_congr hsound' (hholds (Nat.le_of_lt hlarger |>.trans (Nat.le_max_left _ _)))
  clearElement := fun i hi ↦ hsound.get_store (hsound.luaHGet_intKey hi) none
  clearNode := fun i hi ↦ hsound.get_clearNode hi

/-- Values are assigned to keys, one after the other. -/
def assignAll (mem : Memory) (depth : ℕ) (t : Table N V) :
    List (Key N × Option V) → Outcome (Table N V) Unit
  | [] => .returns t ()
  | (key, value) :: rest =>
    (luaHSet (newkey mem depth) t key).andThen fun t slot ↦
      assignAll mem depth (t.store value slot) rest

theorem Sound.get_assignAll (hsound : Sound t) {mem : Memory} {depth : ℕ}
    {entries : List (Key N × Option V)}
    (hends : Tables.assignAll mem depth t entries = .returns after ()) :
    after.get = entries.foldl (fun map entry ↦ Function.update map entry.1 entry.2) t.get := by
  induction entries generalizing t with
  | nil =>
    obtain ⟨rfl, -⟩ := Outcome.returns.inj hends
    rfl
  | cons entry entries ih =>
    rw [Tables.assignAll] at hends
    have hmeets := hsound.meets_luaHSet mem entry.1 depth
    rcases hset : luaHSet (Tables.newkey mem depth) t entry.1 with ⟨last, slot⟩ | last | -
    · rw [hset] at hends hmeets
      have hnext : Sound (last.store entry.2 slot) :=
        hsound.leaves_set (.inl ⟨last, slot, hset, rfl⟩)
      rw [ih hnext hends, hmeets entry.2, List.foldl_cons]
    · rw [hset] at hends
      cases hends
    · rw [hset] at hends
      cases hends

/-- In every run, the table acts as a map, and its map is what assignments make of the one that was
there before them. -/
theorem table_acts_as_map (hreach : (tables N V).Reachable t) :
    ActsAsMap t ∧ ∀ mem depth entries after, assignAll mem depth t entries = .returns after () →
      after.get = entries.foldl (fun map entry ↦ Function.update map entry.1 entry.2) t.get := by
  have hsound := sound_of_reachable hreach
  exact ⟨hsound.actsAsMap, fun _ _ _ _ hends ↦ hsound.get_assignAll hends⟩

/-- A key that needs a rehash is assigned to. -/
theorem table_acts_as_map_twoKeys : ActsAsMap twoKeys ∧
    ∀ after, assignAll plenty 2 twoKeys [(.boolean false, some 5)] = .returns after () →
      after.get = Function.update twoKeys.get (.boolean false) (some 5) := by
  obtain ⟨hmap, hassign⟩ := table_acts_as_map reachable_twoKeys
  exact ⟨hmap, hassign plenty 2 _⟩

end Elua.Lua.Tables
