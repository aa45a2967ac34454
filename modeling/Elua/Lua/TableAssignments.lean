import Elua.Lua.SetTable
import Elua.Lua.TableMap
import Mathlib.Data.List.Find

/-!
# The places of assignments

The model of `luaV_settable` has the keys of a table with their values in a list. This is what the
nodes and the array hold (`Stands`): if nothing that is called changes the table, `luaH_set` gives
the value that is in its slot, and the assignment makes of the list what the store makes of the
table (`stands_luaHSet`). -/

set_option autoImplicit false
set_option relaxedAutoImplicit false

namespace Elua.Lua

variable {N : NumberType} {K : Tables.KeyNumbers}

/-! ### Keys -/

/-- The numbers of values as those of keys, which are equal if `luai_numeq` finds them equal. -/
structure KeyView (N : NumberType) (K : Tables.KeyNumbers) where
  numberOf : N.Number → K.Number
  numeq_iff : ∀ first second, N.numeq first first = true → N.numeq second second = true →
    (N.numeq first second = true ↔ numberOf first = numberOf second)

/-- An address of 32 bits. -/
def pointerKey (tt : Tables.PointerType) (p : ℕ) : Option (Tables.Key K) :=
  if p < 2 ^ 32 then some (.pointer tt (UInt32.ofNat p)) else none

/-- A value as a key. There is none for nil and for a number that is not equal to itself. -/
def KeyView.keyOf (view : KeyView N K) : TValue N → Option (Tables.Key K)
  | .nil => none
  | .boolean b => some (.boolean b)
  | .number n => if N.numeq n n then some (.number (view.numberOf n)) else none
  | .string ts => some (.string ts)
  | .lightuserdata p => pointerKey .lightuserdata p
  | .table p => pointerKey .table p
  | .function p => pointerKey .function p
  | .userdata p => pointerKey .userdata p
  | .thread p => pointerKey .thread p
  | .rotable p => pointerKey .rotable p
  | .lightfunction p => pointerKey .lightfunction p

theorem pointerKey_eq_some_iff {tt : Tables.PointerType} {p : ℕ} {k : Tables.Key K} :
    pointerKey tt p = some k ↔ p < 2 ^ 32 ∧ k = .pointer tt (UInt32.ofNat p) := by
  unfold pointerKey
  split_ifs with hp
  · exact ⟨fun hk ↦ ⟨hp, (Option.some.inj hk).symm⟩, fun hk ↦ congrArg some hk.2.symm⟩
  · exact iff_of_false nofun fun hk ↦ hp hk.1

theorem ofNat_eq_ofNat_iff {p p' : ℕ} (hp : p < 2 ^ 32) (hp' : p' < 2 ^ 32) :
    UInt32.ofNat p = UInt32.ofNat p' ↔ p = p' := by
  rw [← UInt32.toNat_inj, UInt32.toNat_ofNat_of_lt' hp, UInt32.toNat_ofNat_of_lt' hp']

/-- Values are equal if their keys are. -/
theorem KeyView.rawEqual_iff (view : KeyView N K) {first second : TValue N} {k k' : Tables.Key K}
    (hfirst : view.keyOf first = some k) (hsecond : view.keyOf second = some k') :
    rawEqual first second = true ↔ k = k' := by
  cases first <;> cases second <;>
    simp only [KeyView.keyOf, pointerKey_eq_some_iff, Option.some.injEq, reduceCtorEq,
      Option.ite_none_right_eq_some] at hfirst hsecond <;>
    obtain ⟨hp, rfl⟩ := hfirst <;> obtain ⟨hp', rfl⟩ := hsecond <;>
    simp (disch := assumption) [rawEqual, ofNat_eq_ofNat_iff, view.numeq_iff]

/-! ### Lists of pairs -/

/-- What a table holds is what its nodes and its array hold. -/
structure Stands (view : KeyView N K) (t : Tables.Table K (TValue N)) (list : Table N) : Prop where
  keyed : ∀ pair ∈ list.pairs, (view.keyOf pair.1).isSome = true
  values : ∀ key k, view.keyOf key = some k →
    (luaHGet list key).getD .nil = (t.get k).getD .nil

variable {view : KeyView N K} {list : Table N} {key val : TValue N} {k : Tables.Key K}

theorem isNil_of_keyOf (hkey : view.keyOf key = some k) : key.isNil = false := by
  cases key <;> first | rfl | cases hkey

theorem luaHGet_of_keyOf (hkey : view.keyOf key = some k) :
    luaHGet list key = (list.pairs.find? fun pair ↦ rawEqual pair.1 key).map Prod.snd := by
  rw [luaHGet, isNil_of_keyOf hkey, if_neg Bool.false_ne_true]

/-- Pairs with the same keys are found alike. -/
theorem luaHGet_congr {other : Table N} (hpairs : other.pairs = list.pairs) (key : TValue N) :
    luaHGet other key = luaHGet list key := by
  rw [luaHGet, luaHGet, hpairs]

variable {other : TValue N} {k' : Tables.Key K}

/-- Values with one key are found alike. -/
theorem luaHGet_same (hkeyed : ∀ pair ∈ list.pairs, (view.keyOf pair.1).isSome = true)
    (hkey : view.keyOf key = some k) (hother : view.keyOf other = some k) :
    luaHGet list other = luaHGet list key := by
  rw [luaHGet_of_keyOf hother, luaHGet_of_keyOf hkey]
  refine congrArg _ (List.find?_congr fun pair hpair ↦ ?_)
  obtain ⟨found, hfound⟩ := Option.isSome_iff_exists.1 (hkeyed pair hpair)
  rw [Bool.eq_iff_iff, view.rawEqual_iff hfound hother, view.rawEqual_iff hfound hkey]

theorem luaHGet_insert (hkey : view.keyOf key = some k) (hother : view.keyOf other = some k') :
    (luaHGet (list.insert key) other).getD .nil =
      if k' = k then .nil else (luaHGet list other).getD .nil := by
  have hequal := view.rawEqual_iff hkey hother
  rw [luaHGet_of_keyOf hother, luaHGet_of_keyOf hother, Table.insert, List.find?_cons]
  dsimp only
  by_cases hsame : k' = k
  · rw [hequal.2 hsame.symm, if_pos hsame]
    rfl
  · rw [Bool.eq_false_iff.2 (mt hequal.1 (Ne.symm hsame)), if_neg hsame]

theorem luaHGet_assign (hkeyed : ∀ pair ∈ list.pairs, (view.keyOf pair.1).isSome = true)
    (hkey : view.keyOf key = some k) (hother : view.keyOf other = some k') :
    luaHGet (list.assign key val) other =
      if k' = k then (luaHGet list other).map fun _ ↦ val else luaHGet list other := by
  rw [luaHGet_of_keyOf hother, luaHGet_of_keyOf hother, Table.assign]
  dsimp only
  rw [List.find?_map]
  have hfirst : ((fun pair : TValue N × TValue N ↦ rawEqual pair.1 other) ∘
      fun pair ↦ if rawEqual pair.1 key = true then (pair.1, val) else pair) =
        fun pair ↦ rawEqual pair.1 other := by
    funext pair
    dsimp only [Function.comp_apply]
    split_ifs <;> rfl
  rw [hfirst]
  cases hfind : list.pairs.find? fun pair ↦ rawEqual pair.1 other with
  | none =>
    rw [Option.map_none, Option.map_none, Option.map_none, ite_self]
  | some pair =>
    obtain ⟨found, hfound⟩ :=
      Option.isSome_iff_exists.1 (hkeyed pair (List.mem_of_find?_eq_some hfind))
    obtain rfl := (view.rawEqual_iff hfound hother).1
      (List.find?_some (p := fun pair : TValue N × TValue N ↦ rawEqual pair.1 other) hfind)
    have hequal := view.rawEqual_iff hfound hkey
    by_cases hsame : found = k
    · rw [Option.map_some, Option.map_some, if_pos (hequal.2 hsame), if_pos hsame]
      rfl
    · rw [Option.map_some, if_neg (mt hequal.1 hsame), if_neg hsame]

/-! ### Assignments -/

variable {rt : Runtime N} {s s' : LuaState N} {h : ℕ} {oldval : TValue N}

theorem table_setTable (s : LuaState N) (h : ℕ) (change : Table N → Table N) :
    (s.setTable h change).table h = change (s.table h) := Function.update_self ..

/-- Nothing that is called on the way changes the pairs of the table. -/
def KeepsPairs (rt : Runtime N) (h : ℕ) (key : TValue N) : Prop :=
  ∀ now later, rt.rehash h key now = .ok later → (later.table h).pairs = (now.table h).pairs

/-- What `luaH_set` leaves: the value of a key that it finds, or a key that it adds. -/
def Placed (h : ℕ) (key : TValue N) (s s' : LuaState N) (oldval : TValue N) : Prop :=
  (luaHGet (s.table h) key = some oldval ∧ (s'.table h).pairs = (s.table h).pairs) ∨
    (luaHGet (s.table h) key = none ∧ oldval = .nil ∧
      (s'.table h).pairs = ((s.table h).insert key).pairs)

/-- `newkey` adds a key that is absent. -/
theorem pairs_of_newkey (hrehash : KeepsPairs rt h key) (hget : luaHGet (s.table h) key = none)
    (hnew : newkey rt s h key = .ok (s', oldval)) :
    oldval = .nil ∧ (s'.table h).pairs = ((s.table h).insert key).pairs := by
  unfold newkey at hnew
  split_ifs at hnew
  · obtain ⟨rfl, rfl⟩ := Prod.mk.inj (Except.ok.inj hnew)
    exact ⟨rfl, by rw [table_setTable]⟩
  · cases hgrown : rt.rehash h key s with
    | error thrown =>
      rw [hgrown] at hnew
      cases hnew
    | ok grown =>
      have hpairs : ((grown.setTable h fun t ↦ { t with flags := 0 }).table h).pairs =
          (s.table h).pairs := by
        rw [table_setTable]
        exact hrehash s grown hgrown
      rw [hgrown] at hnew
      dsimp only [throwing, bind, Except.bind] at hnew
      rw [luaHGet_congr hpairs, hget] at hnew
      obtain ⟨rfl, rfl⟩ := Prod.mk.inj (Except.ok.inj hnew)
      refine ⟨rfl, ?_⟩
      rw [table_setTable, Table.insert, hpairs]
      rfl

theorem placed_of_luaHSet (hrehash : KeepsPairs rt h key)
    (hset : luaHSet rt s h key = .ok (s', oldval)) : Placed h key s s' oldval := by
  have hpairs : ((s.setTable h fun t ↦ { t with flags := 0 }).table h).pairs =
      (s.table h).pairs := by rw [table_setTable]
  unfold luaHSet at hset
  dsimp only at hset
  rw [luaHGet_congr hpairs] at hset
  cases hget : luaHGet (s.table h) key with
  | some value =>
    rw [hget] at hset
    obtain ⟨rfl, rfl⟩ := Prod.mk.inj (Except.ok.inj hset)
    exact .inl ⟨hget, hpairs⟩
  | none =>
    rw [hget] at hset
    dsimp only at hset
    split_ifs at hset
    · cases hset
    · cases hset
    · obtain ⟨hnil, hinserted⟩ :=
        pairs_of_newkey hrehash ((luaHGet_congr hpairs key).trans hget) hset
      refine .inr ⟨hget, hnil, hinserted.trans ?_⟩
      rw [Table.insert, hpairs]
      rfl

variable (hplaced : Placed h key s s' oldval)
include hplaced

theorem Placed.keyed (hkey : view.keyOf key = some k)
    (hkeyed : ∀ pair ∈ (s.table h).pairs, (view.keyOf pair.1).isSome = true) :
    ∀ pair ∈ (s'.table h).pairs, (view.keyOf pair.1).isSome = true := by
  rcases hplaced with ⟨-, hpairs⟩ | ⟨-, -, hpairs⟩
  · rw [hpairs]
    exact hkeyed
  · rw [hpairs]
    exact List.forall_mem_cons.2 ⟨by rw [hkey]; rfl, hkeyed⟩

/-- A key that is set is found. -/
theorem Placed.found (hkey : view.keyOf key = some k) :
    luaHGet (s'.table h) key = some oldval := by
  rcases hplaced with ⟨hfound, hpairs⟩ | ⟨-, rfl, hpairs⟩
  · exact (luaHGet_congr hpairs key).trans hfound
  · rw [luaHGet_congr hpairs, luaHGet_of_keyOf hkey]
    exact congrArg (Option.map Prod.snd) (List.find?_cons_of_pos
      (p := fun pair : TValue N × TValue N ↦ rawEqual pair.1 key)
      ((view.rawEqual_iff hkey hkey).2 rfl))

/-- The value that a key had. -/
theorem Placed.oldval_eq : oldval = (luaHGet (s.table h) key).getD .nil := by
  rcases hplaced with ⟨hfound, -⟩ | ⟨hfound, hnil, -⟩
  · rw [hfound]
    rfl
  · rw [hfound]
    exact hnil

/-- Other keys keep their values. -/
theorem Placed.others (hkey : view.keyOf key = some k) (hother : view.keyOf other = some k')
    (hne : k' ≠ k) :
    (luaHGet (s'.table h) other).getD .nil = (luaHGet (s.table h) other).getD .nil := by
  rcases hplaced with ⟨-, hpairs⟩ | ⟨-, -, hpairs⟩
  · rw [luaHGet_congr hpairs]
  · rw [luaHGet_congr hpairs, luaHGet_insert hkey hother, if_neg hne]

omit hplaced

/-- The value that is stored in a slot. -/
def stored (val : TValue N) : Option (TValue N) := if val.isNil then none else some val

theorem getD_stored (val : TValue N) : (stored val).getD .nil = val := by
  cases val <;> rfl

variable {t after : Tables.Table K (TValue N)} {slot : Tables.Slot} {mem : Tables.Memory}
  {depth : ℕ}

/-- The slot of a key that is set has its value. -/
theorem read_of_luaHSet (hsound : Tables.Sound t)
    (hset : Tables.luaHSet (Tables.newkey mem depth) t k = .returns after slot) :
    after.read slot = t.get k := by
  rw [Tables.luaHSet] at hset
  cases hget : Tables.luaHGet t k with
  | some place =>
    rw [hget] at hset
    obtain ⟨rfl, rfl⟩ := Tables.Outcome.returns.inj hset
    rw [Tables.Table.get, hget]
    rfl
  | none =>
    rw [hget] at hset
    dsimp only at hset
    have hmore := Tables.newkey_of_le mem (Nat.le_add_right depth 3) t k fun hstuck ↦ by
      rw [hset] at hstuck
      cases hstuck
    rw [hset] at hmore
    rcases hsound.newkey hget mem depth with ⟨last, place, hreturns, hinserted⟩ | ⟨_, hthrows, -⟩
    · obtain ⟨rfl, rfl⟩ := Tables.Outcome.returns.inj (hmore.symm.trans hreturns)
      rw [← hsound.get_congr hinserted.sound hinserted.holds, Tables.Table.get, hinserted.get]
      rfl
    · cases hmore.symm.trans hthrows

/-- `luaH_set` gives the value that is in the slot of the key, and a list to which the value is
assigned is what the table holds when it is stored there. -/
theorem stands_luaHSet (hreach : (Tables.tables K (TValue N)).Reachable t)
    (hstands : Stands view t (s.table h)) (hrehash : KeepsPairs rt h key)
    (hkey : view.keyOf key = some k)
    (hset : Tables.luaHSet (Tables.newkey mem depth) t k = .returns after slot)
    (hview : luaHSet rt s h key = .ok (s', oldval)) :
    oldval = (after.read slot).getD .nil ∧
      ∀ val, Stands view (after.store (stored val) slot) ((s'.table h).assign key val) := by
  have hsound := Tables.sound_of_reachable hreach
  have hget := hsound.meets_luaHSet mem k depth
  rw [hset] at hget
  have hplaced := placed_of_luaHSet hrehash hview
  refine ⟨?_, fun val ↦ ?_⟩
  · rw [hplaced.oldval_eq, read_of_luaHSet hsound hset]
    exact hstands.values key k hkey
  have hkeyed := hplaced.keyed hkey hstands.keyed
  refine ⟨fun pair hpair ↦ ?_, fun other k' hother ↦ ?_⟩
  · obtain ⟨old, hold, rfl⟩ := List.mem_map.1 hpair
    have hsame : (if rawEqual old.1 key = true then (old.1, val) else old).1 = old.1 := by
      split_ifs <;> rfl
    rw [hsame]
    exact hkeyed old hold
  · rw [luaHGet_assign hkeyed hkey hother, hget (stored val)]
    by_cases hsame : k' = k
    · subst hsame
      rw [if_pos rfl, luaHGet_same hkeyed hkey hother, hplaced.found hkey,
        Function.update_self, getD_stored]
      rfl
    · rw [if_neg hsame, Function.update_of_ne hsame, ← hstands.values other k' hother,
        hplaced.others hkey hother hsame]

end Elua.Lua
