import Elua.Bitarray.Elements

/-!
# A bitarray as an array of small integers

`BehavesAsArray` says of an array and a sequence of writes to it what is expected: after each write
every element gives the last value stored in it modulo 2 ^ `elsize`, a loop with `pairs` visits the
indices in order with their values, and a string is given back by `tostring`.

`behavesAsArray_iff` says when it is so. A capacity given as a number must have fewer than 2 ^ 32 - 1
bits, since the size of the block wraps above and the loop with `pairs` never ends at the largest
capacity. Elements of 16 and 32 bits need a machine that has numbers at odd addresses. Every write
must be harmless: a value that does not fit its packed element writes to the elements in front of
it. A string must not be a numeral, which is taken for a capacity, and must be shorter than 2 ^ 29
bytes.
-/

set_option autoImplicit false
set_option relaxedAutoImplicit false

namespace Elua.Bitarray

open Foundation

/-! ### Sequences of writes -/

section Runs

variable (machine : Machine) (pa : BitArray)

/-- The array after `bitarray_set` of a key and a value, which changes nothing if it fails. -/
def BitArray.store (set : Int32 × Int32) : BitArray :=
  match bitarraySet machine pa set.1 set.2 with
  | .ok after => after
  | .error _ => pa

/-- The array after a sequence of writes. -/
def BitArray.run (sets : List (Int32 × Int32)) : BitArray :=
  sets.foldl (BitArray.store machine) pa

/-- The last value that a sequence of writes stores at an index. -/
def lastStored (idx : UInt32) : List (Int32 × Int32) → Option Int32
  | [] => none
  | (key, newval) :: sets =>
    match lastStored idx sets with
    | some last => some last
    | none => if key.toUInt32 = idx then some newval else none

/-- After the writes every index gives the last value stored at it modulo 2 ^ `elsize`, or what it
gave before if none was. -/
def BitArray.HoldsLast (sets : List (Int32 × Int32)) : Prop :=
  ∀ idx : UInt32, 0 < idx → idx ≤ pa.capacity →
    ∃ before, bitarrayGet machine pa idx.toInt32 = .ok before ∧
      bitarrayGet machine (pa.run machine sets) idx.toInt32 = .ok (
        match lastStored idx sets with
        | some newval => .ofInt (newval.toInt % 2 ^ pa.elsize.toNat)
        | none => before)

/-- The array holds what was stored, after each of a sequence of writes. -/
def BitArray.StoresAll (sets : List (Int32 × Int32)) : Prop :=
  ∀ n, pa.HoldsLast machine (sets.take n)

/-- A write at an invalid index, of a value that fits its element, or with stray bits that are set
in the byte already. -/
def BitArray.Harmless (set : Int32 × Int32) : Prop :=
  0 < set.1.toUInt32 → set.1.toUInt32 ≤ pa.capacity → pa.elsize < 8 →
    pa.StraySet (set.1.toUInt32 - 1).toNat set.2.toUInt32

/-- Every write is harmless in the state that it meets. -/
def EachHarmless : BitArray → List (Int32 × Int32) → Prop
  | _, [] => True
  | pa, set :: sets => pa.Harmless set ∧ EachHarmless (pa.store machine set) sets

/-- An array whose elements all lie in its block, where the machine has numbers of their size. -/
structure BitArray.Sound : Prop extends pa.Made where
  fits : pa.capacity.toNat * pa.elsize.toNat < 2 ^ 32
  allows : machine.Allows pa.elsize

end Runs

section RunLemmas

variable {machine : Machine} {pa : BitArray}

/-- The number in an element is an unsigned one of its bits. -/
theorem element_lt (hsound : pa.Sound machine) {i : ℕ} (hi : i < pa.capacity.toNat) :
    pa.element machine i < 2 ^ 32 := by
  obtain hpacked | hwhole := hsound.elementSize.cases
  · rw [element_packed hpacked]
    have hpos := elementPos_add_le hpacked i
    exact lt_of_lt_of_le (field_lt _ _ _) (Nat.pow_le_pow_right Nat.two_pos (by omega))
  · have hwidth : ∃ width ≤ 4, pa.elsize.toNat = width * 8 ∧ ¬ pa.elsize < 8 := by
      obtain h | h | h := hwhole <;> rw [h]
      · exact ⟨1, by decide, rfl, by decide⟩
      · exact ⟨2, by decide, rfl, by decide⟩
      · exact ⟨4, by decide, rfl, by decide⟩
    obtain ⟨width, hle, hwidth, hwhole⟩ := hwidth
    have hinside := (le_length_iff_reaches hwidth i).mpr (hsound.reaches hsound.fits hi)
    rw [element_whole hwhole hwidth]
    refine lt_of_lt_of_le (fromMemory_lt _ _) ?_
    rw [length_segment_of_le hinside]
    exact Nat.pow_le_pow_right (by decide) hle

/-- A read of a valid index. -/
theorem bitarrayGet_eq (hsound : pa.Sound machine) {idx : UInt32} (hpositive : 0 < idx)
    (hle : idx ≤ pa.capacity) : bitarrayGet machine pa idx.toInt32 =
      .ok (UInt32.ofNat (pa.element machine (idx - 1).toNat)).toInt32 := by
  rw [bitarrayGet_valid hpositive hle, getval_eq hsound.elementSize hsound.allows
    (hsound.reaches hsound.fits (toNat_sub_one_lt hpositive hle))]
  rfl

/-- A value modulo a power of two, as an integer and as a number of 32 bits. -/
theorem ofInt_emod (newval : Int32) {width : ℕ} (hwidth : width ≤ 32) :
    Int32.ofInt (newval.toInt % 2 ^ width) =
      (UInt32.ofNat (newval.toUInt32.toNat % 2 ^ width)).toInt32 := by
  have hdvd : (2 ^ width : ℤ) ∣ (2 ^ 32 : ℕ) := by
    rw [Nat.cast_pow]
    exact pow_dvd_pow 2 hwidth
  have hmod : newval.toInt % 2 ^ width = ((newval.toUInt32.toNat % 2 ^ width : ℕ) : ℤ) := by
    have hint : newval.toInt = (newval.toUInt32.toNat : ℤ).bmod (2 ^ 32) :=
      BitVec.toInt_eq_toNat_bmod _
    rw [hint, ← Int.emod_emod_of_dvd _ hdvd, Int.bmod_emod, Int.emod_emod_of_dvd _ hdvd]
    simp
  rw [hmod]
  rfl

/-- An index from 1 on is found again from the number of its element. -/
theorem ofNat_toNat_sub_one {idx : UInt32} (hpositive : 0 < idx) :
    UInt32.ofNat ((idx - 1).toNat + 1) = idx := by
  have hone : (1 : UInt32) ≤ idx := by
    rw [UInt32.le_iff_toNat_le]
    exact UInt32.lt_iff_toNat_lt.mp hpositive
  have hfirst := UInt32.le_iff_toNat_le.mp hone
  have hval : (1 : UInt32).toNat = 1 := rfl
  rw [UInt32.toNat_sub_of_le _ _ hone, hval, Nat.sub_add_cancel (hval ▸ hfirst)]
  exact UInt32.ofNat_toNat

/-- A write at an invalid index changes nothing. A write at a valid one replaces the contents, and
keeps its promise exactly if it is harmless. -/
theorem store_cases (hsound : pa.Sound machine) (set : Int32 × Int32) :
    (¬ (0 < set.1.toUInt32 ∧ set.1.toUInt32 ≤ pa.capacity) ∧ pa.store machine set = pa) ∨
    ((0 < set.1.toUInt32 ∧ set.1.toUInt32 ≤ pa.capacity) ∧ ∃ values,
      pa.store machine set = pa.withValues values ∧ values.length = pa.values.length ∧
        (pa.Wrote machine (pa.withValues values) (set.1.toUInt32 - 1).toNat set.2.toUInt32 ↔
          pa.Harmless set)) := by
  unfold BitArray.store
  by_cases hvalid : 0 < set.1.toUInt32 ∧ set.1.toUInt32 ≤ pa.capacity
  · refine .inr ⟨hvalid, ?_⟩
    have hlt := toNat_sub_one_lt hvalid.1 hvalid.2
    obtain ⟨values, hset, hlength, hwrote⟩ :=
      wrote_iff hsound.elementSize hsound.allows (hsound.reaches hsound.fits hlt) hlt
    have hstore : bitarraySet machine pa set.1 set.2 = _ :=
      bitarraySet_valid hvalid.1 hvalid.2 set.2
    rw [hstore, hset]
    refine ⟨values, rfl, hlength, hwrote.trans ?_⟩
    exact ⟨fun hstray _ _ ↦ hstray, fun hharmless ↦ hharmless hvalid.1 hvalid.2⟩
  · have hinvalid : set.1.toUInt32 ≤ 0 ∨ pa.capacity < set.1.toUInt32 := by
      rwa [not_and_or, UInt32.not_lt, UInt32.not_le] at hvalid
    refine .inl ⟨hvalid, ?_⟩
    unfold bitarraySet
    dsimp only
    rw [if_pos hinvalid]

/-- A write keeps the array sound, with its capacity and its element size. -/
theorem sound_store (hsound : pa.Sound machine) (set : Int32 × Int32) :
    (pa.store machine set).Sound machine ∧ (pa.store machine set).capacity = pa.capacity ∧
      (pa.store machine set).elsize = pa.elsize := by
  obtain ⟨-, hstore⟩ | ⟨-, values, hstore, hlength, -⟩ := store_cases hsound set
  · rw [hstore]
    exact ⟨hsound, rfl, rfl⟩
  · rw [hstore]
    exact ⟨⟨⟨hsound.elementSize, hsound.total_ne_zero, hlength.trans hsound.length⟩, hsound.fits,
      hsound.allows⟩, rfl, rfl⟩

theorem sound_run (hsound : pa.Sound machine) (sets : List (Int32 × Int32)) :
    (pa.run machine sets).Sound machine ∧ (pa.run machine sets).capacity = pa.capacity := by
  induction sets generalizing pa with
  | nil => exact ⟨hsound, rfl⟩
  | cons set sets ih =>
    obtain ⟨hsound, hcapacity, -⟩ := sound_store hsound set
    obtain ⟨hrun, hkept⟩ := ih hsound
    exact ⟨hrun, hkept.trans hcapacity⟩

/-- The number that is promised in element `i` after a sequence of writes. -/
def BitArray.promised (machine : Machine) (pa : BitArray) (sets : List (Int32 × Int32))
    (i : ℕ) : ℕ :=
  match lastStored (.ofNat (i + 1)) sets with
  | some newval => newval.toUInt32.toNat % 2 ^ pa.elsize.toNat
  | none => pa.element machine i

theorem IsElementSize.toNat_le {elsize : UInt8} (hsize : IsElementSize elsize) :
    elsize.toNat ≤ 32 := by
  obtain rfl | rfl | rfl | rfl | rfl | rfl := hsize <;> decide

theorem promised_lt (hsound : pa.Sound machine) (sets : List (Int32 × Int32)) {i : ℕ}
    (hi : i < pa.capacity.toNat) : pa.promised machine sets i < 2 ^ 32 := by
  unfold BitArray.promised
  split
  · refine lt_of_lt_of_le (Nat.mod_lt _ (Nat.two_pow_pos _)) ?_
    exact Nat.pow_le_pow_right Nat.two_pos hsound.elementSize.toNat_le
  · exact element_lt hsound hi

/-- What is promised of a read is the number that is promised. -/
theorem toInt32_promised (hsound : pa.Sound machine) (sets : List (Int32 × Int32)) (i : ℕ) :
    (UInt32.ofNat (pa.promised machine sets i)).toInt32 =
      match lastStored (.ofNat (i + 1)) sets with
      | some newval => .ofInt (newval.toInt % 2 ^ pa.elsize.toNat)
      | none => (UInt32.ofNat (pa.element machine i)).toInt32 := by
  unfold BitArray.promised
  split
  · exact (ofInt_emod _ hsound.elementSize.toNat_le).symm
  · rfl

theorem toInt32_ofNat_inj {first second : ℕ} (hfirst : first < 2 ^ 32) (hsecond : second < 2 ^ 32) :
    (UInt32.ofNat first).toInt32 = (UInt32.ofNat second).toInt32 ↔ first = second := by
  refine ⟨fun heq ↦ ?_, fun heq ↦ by rw [heq]⟩
  have hword := congrArg (fun word : Int32 ↦ word.toUInt32.toNat) heq
  rwa [toUInt32_toInt32, toUInt32_toInt32, UInt32.toNat_ofNat_of_lt' hfirst,
    UInt32.toNat_ofNat_of_lt' hsecond] at hword

/-- The promise of all reads is one of the numbers in the elements. -/
theorem holdsLast_iff (hsound : pa.Sound machine) (sets : List (Int32 × Int32)) :
    pa.HoldsLast machine sets ↔ ∀ i < pa.capacity.toNat,
      (pa.run machine sets).element machine i = pa.promised machine sets i := by
  have hrun := (sound_run hsound sets : (pa.run machine sets).Sound machine ∧ _)
  constructor
  · intro hholds i hi
    obtain ⟨hpositive, hle, hsub⟩ := index_of_lt hi
    obtain ⟨before, hbefore, hafter⟩ := hholds _ hpositive hle
    rw [bitarrayGet_eq hsound hpositive hle, hsub] at hbefore
    rw [bitarrayGet_eq hrun.1 hpositive (hrun.2 ▸ hle), hsub, ← Except.ok.inj hbefore,
      ← toInt32_promised hsound sets i] at hafter
    exact (toInt32_ofNat_inj (element_lt hrun.1 (hrun.2 ▸ hi)) (promised_lt hsound sets hi)).mp
      (Except.ok.inj hafter)
  · intro hnumbers idx hpositive hle
    refine ⟨_, bitarrayGet_eq hsound hpositive hle, ?_⟩
    rw [bitarrayGet_eq hrun.1 hpositive (hrun.2 ▸ hle),
      hnumbers _ (toNat_sub_one_lt hpositive hle), toInt32_promised hsound,
      ofNat_toNat_sub_one hpositive]

/-- A single write keeps its promise exactly if it is harmless. -/
theorem holdsLast_singleton_iff (hsound : pa.Sound machine) (set : Int32 × Int32) :
    pa.HoldsLast machine [set] ↔ pa.Harmless set := by
  rw [holdsLast_iff hsound]
  show (∀ i < pa.capacity.toNat, (pa.store machine set).element machine i = _) ↔ _
  obtain ⟨hinvalid, hstore⟩ | ⟨hvalid, values, hstore, -, hwrote⟩ := store_cases hsound set
  · refine iff_of_true (fun i hi ↦ ?_) fun hpositive hle ↦ absurd ⟨hpositive, hle⟩ hinvalid
    obtain ⟨hpositive, hle, -⟩ := index_of_lt hi
    have hother : set.1.toUInt32 ≠ .ofNat (i + 1) := fun heq ↦
      hinvalid (heq ▸ ⟨hpositive, hle⟩)
    rw [hstore]
    unfold BitArray.promised lastStored lastStored
    dsimp only
    rw [if_neg hother]
  · rw [hstore, ← hwrote]
    refine forall₂_congr fun i hi ↦ ?_
    obtain ⟨-, -, hsub⟩ := index_of_lt hi
    have hsame : set.1.toUInt32 = .ofNat (i + 1) ↔ i = (set.1.toUInt32 - 1).toNat := by
      constructor
      · intro heq
        rw [heq, hsub]
      · intro heq
        rw [heq, ofNat_toNat_sub_one hvalid.1]
    unfold BitArray.promised lastStored lastStored
    dsimp only
    by_cases hidx : set.1.toUInt32 = .ofNat (i + 1)
    · rw [if_pos hidx, if_pos (hsame.mp hidx)]
    · rw [if_neg hidx, if_neg (mt hsame.mpr hidx)]

/-- Behind a write that keeps its promise, the rest of a sequence is promised the same. -/
theorem holdsLast_cons_iff (hsound : pa.Sound machine) {set : Int32 × Int32}
    (hfirst : pa.HoldsLast machine [set]) (sets : List (Int32 × Int32)) :
    pa.HoldsLast machine (set :: sets) ↔
      (pa.store machine set).HoldsLast machine sets := by
  obtain ⟨hstored, hcapacity, hsize⟩ := sound_store hsound set
  rw [holdsLast_iff hsound, holdsLast_iff hstored, hcapacity]
  rw [holdsLast_iff hsound] at hfirst
  refine forall₂_congr fun i hi ↦ ?_
  have hnumber : (pa.store machine set).element machine i = _ := hfirst i hi
  have hpromised : pa.promised machine (set :: sets) i =
      (pa.store machine set).promised machine sets i := by
    unfold BitArray.promised at hnumber ⊢
    unfold lastStored lastStored at hnumber
    rw [lastStored, hsize]
    cases lastStored (.ofNat (i + 1)) sets with
    | some newval => rfl
    | none => exact hnumber.symm
  rw [hpromised]
  rfl

/-- A sequence of writes keeps its promise throughout exactly if each write is harmless. -/
theorem storesAll_iff (hsound : pa.Sound machine) (sets : List (Int32 × Int32)) :
    pa.StoresAll machine sets ↔ EachHarmless machine pa sets := by
  induction sets generalizing pa with
  | nil =>
    refine iff_of_true (fun n ↦ ?_) trivial
    rw [List.take_nil, holdsLast_iff hsound]
    exact fun i _ ↦ rfl
  | cons set sets ih =>
    obtain ⟨hstored, -, -⟩ := sound_store hsound set
    unfold EachHarmless
    rw [← ih hstored, ← holdsLast_singleton_iff hsound]
    constructor
    · intro hall
      have hfirst : pa.HoldsLast machine [set] := hall 1
      exact ⟨hfirst, fun n ↦ (holdsLast_cons_iff hsound hfirst _).mp (hall (n + 1))⟩
    · rintro ⟨hfirst, hrest⟩ n
      cases n with
      | zero =>
        rw [List.take_zero, holdsLast_iff hsound]
        exact fun i _ ↦ rfl
      | succ n => exact (holdsLast_cons_iff hsound hfirst _).mpr (hrest n)

end RunLemmas

/-! ### Iteration -/

section Pairs

variable {machine : Machine} {pa : BitArray}

/-- A turn of a `for` loop with what `bitarray_pairs` returns, and the pairs visited so far. -/
def pairsBody (machine : Machine) (pa : BitArray) :
    Int32 × List (Int32 × Int32) →
      Option (Int32 × List (Int32 × Int32) ⊕ Except Failure (List (Int32 × Int32)))
  | (control, visited) => some <|
    match bitarrayIter machine pa control with
    | .error failure => .inr (.error failure)
    | .ok none => .inr (.ok visited)
    | .ok (some pair) => .inl (pair.1, visited ++ [pair])

/-- The loop ends, and has visited each index once in order with the value that a read gives. -/
def BitArray.PairsInOrder (machine : Machine) (pa : BitArray) : Prop :=
  ∃ fuel visited, runLoop (pairsBody machine pa) fuel (0, []) = some (.ok visited) ∧
    visited.map Prod.fst =
      (List.range pa.capacity.toNat).map (fun i ↦ (UInt32.ofNat (i + 1)).toInt32) ∧
    ∀ pair ∈ visited, bitarrayGet machine pa pair.1 = .ok pair.2

/-- The pairs of the elements in front of `i`. -/
def BitArray.visitedBelow (machine : Machine) (pa : BitArray) (i : ℕ) : List (Int32 × Int32) :=
  (List.range i).map fun j ↦
    ((UInt32.ofNat (j + 1)).toInt32, (UInt32.ofNat (pa.element machine j)).toInt32)

/-- A turn of the loop visits the next element. -/
theorem pairsBody_continues (hsound : pa.Sound machine) {i : ℕ} (hi : i < pa.capacity.toNat) :
    Continues (pairsBody machine pa)
      ((UInt32.ofNat i).toInt32, pa.visitedBelow machine i)
      ((UInt32.ofNat (i + 1)).toInt32, pa.visitedBelow machine (i + 1)) := by
  obtain ⟨hpositive, hle, hsub⟩ := index_of_lt hi
  have hcontrol : UInt32.ofNat i = UInt32.ofNat (i + 1) - 1 := by
    refine UInt32.toNat_inj.mp (Eq.trans ?_ hsub.symm)
    have hlt := pa.capacity.toNat_lt
    exact UInt32.toNat_ofNat_of_lt' (show i < 2 ^ 32 by omega)
  have hiter : bitarrayIter machine pa (UInt32.ofNat i).toInt32 =
      .ok (some ((UInt32.ofNat (i + 1)).toInt32,
        (UInt32.ofNat (pa.element machine i)).toInt32)) := by
    rw [hcontrol, bitarrayIter_valid hle, getval_eq hsound.elementSize hsound.allows
      (hsound.reaches hsound.fits (toNat_sub_one_lt hpositive hle)), hsub]
    rfl
  unfold Continues pairsBody
  dsimp only
  rw [hiter]
  unfold BitArray.visitedBelow
  rw [List.range_succ, List.map_append]
  rfl

/-- Behind the last element the loop ends, unless the next index wraps to 0. -/
theorem pairsBody_leaves (hcapacity : pa.capacity.toNat ≠ 2 ^ 32 - 1)
    (visited : List (Int32 × Int32)) :
    pairsBody machine pa (pa.capacity.toInt32, visited) = some (.inr (.ok visited)) := by
  have hlt := pa.capacity.toNat_lt
  have hone : (1 : UInt32).toNat = 1 := rfl
  have hbehind : ¬ pa.capacity.toInt32.toUInt32 + 1 ≤ pa.capacity := by
    rw [toUInt32_toInt32, UInt32.le_iff_toNat_le, UInt32.toNat_add, hone]
    omega
  unfold pairsBody bitarrayIter
  dsimp only
  rw [if_neg hbehind]

/-- The loop visits all elements from any of them on. -/
theorem exists_runLoop_pairs (hsound : pa.Sound machine)
    (hcapacity : pa.capacity.toNat ≠ 2 ^ 32 - 1) {rest i : ℕ} (hrest : i + rest = pa.capacity.toNat) :
    ∃ fuel, runLoop (pairsBody machine pa) fuel
      ((UInt32.ofNat i).toInt32, pa.visitedBelow machine i) =
        some (.ok (pa.visitedBelow machine pa.capacity.toNat)) := by
  induction rest generalizing i with
  | zero =>
    obtain rfl : i = pa.capacity.toNat := hrest
    rw [UInt32.ofNat_toNat]
    exact ⟨1, runLoop_of_leaves (pairsBody_leaves hcapacity _) 0⟩
  | succ rest ih =>
    obtain ⟨fuel, hrun⟩ := @ih (i + 1) (by omega)
    exact ⟨fuel + 1, (runLoop_of_continues (pairsBody_continues hsound (by omega)) fuel).trans hrun⟩

/-- The loop visits the elements in order exactly if the capacity is not the largest number. -/
theorem pairsInOrder_iff (hsound : pa.Sound machine) :
    pa.PairsInOrder machine ↔ pa.capacity.toNat ≠ 2 ^ 32 - 1 := by
  constructor
  · rintro ⟨fuel, visited, hrun, -, -⟩ hcapacity
    obtain ⟨⟨control, before⟩, -, hlast⟩ := exists_leaves_of_runLoop hrun
    have hle : control.toUInt32 + 1 ≤ pa.capacity := by
      have hlt := (control.toUInt32 + 1).toNat_lt
      rw [UInt32.le_iff_toNat_le, hcapacity]
      omega
    unfold pairsBody bitarrayIter at hlast
    dsimp only at hlast
    rw [if_pos hle] at hlast
    cases hval : bitarrayGetval machine pa (control.toUInt32 + 1) with
    | ok val =>
      rw [hval] at hlast
      cases Option.some.inj hlast
    | error failure =>
      rw [hval] at hlast
      cases Sum.inr.inj (Option.some.inj hlast)
  · intro hcapacity
    obtain ⟨fuel, hrun⟩ := exists_runLoop_pairs hsound hcapacity (Nat.zero_add _)
    refine ⟨fuel, _, hrun, ?_, ?_⟩
    · unfold BitArray.visitedBelow
      rw [List.map_map]
      rfl
    · intro pair hmem
      obtain ⟨i, hi, rfl⟩ := List.mem_map.mp hmem
      obtain ⟨hpositive, hle, hsub⟩ := index_of_lt (List.mem_range.mp hi)
      dsimp only
      rw [bitarrayGet_eq hsound hpositive hle, hsub]

end Pairs

/-! ### Strings -/

section Strings

variable {numerals : Numerals} {fresh : ℕ → UInt8} {arg2 : Arg} {pa : BitArray} {s : LuaString}

/-- The mode `raw`. -/
def rawMode : CString := ⟨rawText, by decide⟩

/-- `tostring` gives back the string that an array was made from. -/
def BitArray.GivesBack (machine : Machine) (pa : BitArray) (s : LuaString) : Prop :=
  ∀ fuel, bitarrayTostring machine pa (some rawMode) fuel = some (.ok s.val)

/-- The raw bytes of a new array. -/
theorem tostring_raw (hmade : pa.Made) (machine : Machine) (fuel : ℕ) :
    bitarrayTostring machine pa (some rawMode) fuel =
      some (.ok (pa.values.take pa.total.toNat)) := by
  have hle : pa.total.toNat ≤ pa.values.length := by
    rw [hmade.length]
    omega
  have hmode : unpackRaw (some rawMode) = .ok true := rfl
  unfold bitarrayTostring unpack rawBytes
  rw [hmode, if_pos hle]
  show some (Except.ok (List.map id _)) = _
  rw [List.map_id]

theorem length_newBlock (total : UInt32) : (newBlock fresh total).length = total.toNat + 2 := by
  unfold newBlock
  rw [List.length_map, List.length_range]

/-- The beginning of a block after bytes were written there. -/
theorem take_overwrite_zero {block bytes : List UInt8} (hle : bytes.length ≤ block.length) :
    (overwrite block 0 bytes).take bytes.length = bytes := by
  have hsegment := segment_overwrite_self (show 0 + bytes.length ≤ block.length by omega)
  exact hsegment

/-- An array that is made from a string. -/
theorem bitarrayNew_string (hnumeral : numerals.integer s.val = none)
    (hnew : bitarrayNew numerals fresh (.string s) arg2 .other = .ok pa) :
    pa.Made ∧ pa.total.toNat = s.val.length % 2 ^ 29 ∧
      pa.values = overwrite (newBlock fresh pa.total) 0 s.val := by
  have hinteger : (Arg.string s).integer numerals = none := hnumeral
  unfold bitarrayNew at hnew
  dsimp only at hnew
  rw [hinteger] at hnew
  dsimp only at hnew
  cases hcapacity : capacityOf (elementSize numerals arg2) (.ofNat s.val.length) with
  | error failure =>
    rw [hcapacity] at hnew
    cases hnew
  | ok capacity =>
    rw [hcapacity] at hnew
    obtain ⟨hmade, hstored, hsize, hvalues⟩ := create_ok (fun _ _ ↦ length_overwrite _ _ _) hnew
    have hbits := capacityOf_ok hcapacity
    rw [UInt32.toNat_ofNat_of_lt' s.property] at hbits
    have htotal := pa.toNat_total
    rw [hstored, hsize, hbits] at htotal
    refine ⟨hmade, ?_, hvalues⟩
    rw [htotal]
    omega

/-- An array that is made from a numeral holds zeros. -/
theorem bitarrayNew_numeral {n : Int32} (hnumeral : numerals.integer s.val = some n)
    (hnew : bitarrayNew numerals fresh (.string s) arg2 .other = .ok pa) :
    pa.Made ∧ pa.values =
      overwrite (newBlock fresh pa.total) 0 (List.replicate pa.total.toNat 0) := by
  have hinteger : (Arg.string s).integer numerals = some n := hnumeral
  unfold bitarrayNew at hnew
  dsimp only at hnew
  rw [hinteger] at hnew
  obtain ⟨hmade, -, -, hvalues⟩ := create_ok (fun _ _ ↦ length_overwrite _ _ _) hnew
  exact ⟨hmade, hvalues⟩

/-- A string is given back exactly if it is not a numeral and shorter than 2 ^ 29 bytes. -/
theorem givesBack_iff {machine : Machine}
    (hnew : bitarrayNew numerals fresh (.string s) arg2 .other = .ok pa) :
    pa.GivesBack machine s ↔ numerals.integer s.val = none ∧ s.val.length < 2 ^ 29 := by
  cases hnumeral : numerals.integer s.val with
  | none =>
    obtain ⟨hmade, htotal, hvalues⟩ := bitarrayNew_string hnumeral hnew
    have hbytes : pa.GivesBack machine s ↔ pa.values.take pa.total.toNat = s.val :=
      ⟨fun hback ↦ by simpa [tostring_raw hmade] using hback 0,
        fun htake fuel ↦ by rw [tostring_raw hmade, htake]⟩
    rw [hbytes, and_iff_right rfl]
    constructor
    · intro htake
      have hlength := congrArg List.length htake
      rw [List.length_take, hmade.length] at hlength
      have hmod := Nat.mod_lt s.val.length (Nat.two_pow_pos 29)
      omega
    · intro hshort
      rw [Nat.mod_eq_of_lt hshort] at htotal
      rw [hvalues, htotal]
      refine take_overwrite_zero ?_
      rw [length_newBlock, htotal]
      omega
  | some n =>
    obtain ⟨hmade, hvalues⟩ := bitarrayNew_numeral hnumeral hnew
    refine iff_of_false (fun hback ↦ ?_) (fun hnone ↦ by cases hnone.1)
    have hzeros : pa.values.take pa.total.toNat = List.replicate pa.total.toNat 0 := by
      have htake := take_overwrite_zero (show (List.replicate pa.total.toNat (0 : UInt8)).length ≤
        (newBlock fresh pa.total).length by rw [List.length_replicate, length_newBlock]; omega)
      rw [List.length_replicate] at htake
      rwa [hvalues]
    have hstring := hback 0
    rw [tostring_raw hmade, hzeros] at hstring
    obtain ⟨byte, hmem, hnonzero⟩ := numerals.nonzero s.val n hnumeral
    rw [← Except.ok.inj (Option.some.inj hstring)] at hmem
    exact hnonzero (List.eq_of_mem_replicate hmem)

end Strings

/-! ### The array -/

/-- What is expected of an array that was made from arguments, and of a sequence of writes to it. -/
structure BehavesAsArray (machine : Machine) (arg1 arg3 : Arg) (pa : BitArray)
    (sets : List (Int32 × Int32)) : Prop where
  stores : pa.StoresAll machine sets
  pairs : pa.PairsInOrder machine
  string : ∀ s, arg1 = .string s → arg3 = .other → pa.GivesBack machine s

/-- The condition: few enough bits, elements where the machine has numbers, harmless writes, and a
short string that is not a numeral. -/
structure Supported (machine : Machine) (numerals : Numerals) (arg1 arg2 arg3 : Arg)
    (pa : BitArray) (sets : List (Int32 × Int32)) : Prop where
  bits : ∀ n, arg1.integer numerals = some n →
    n.toUInt32.toNat * (elementSize numerals arg2).toNat < 2 ^ 32 - 1
  allows : machine.Allows (elementSize numerals arg2)
  harmless : EachHarmless machine pa sets
  string : ∀ s, arg1 = .string s → arg3 = .other →
    numerals.integer s.val = none ∧ s.val.length < 2 ^ 29

section Behaviour

variable {machine : Machine} {numerals : Numerals} {fresh : ℕ → UInt8} {arg1 arg2 arg3 : Arg}
  {pa : BitArray}

/-- The bits of a capacity leave room to spare exactly if they fit a word, and the capacity is not
the largest number. -/
theorem bits_iff (hsize : IsElementSize pa.elsize) :
    pa.capacity.toNat * pa.elsize.toNat < 2 ^ 32 - 1 ↔
      pa.capacity.toNat * pa.elsize.toNat < 2 ^ 32 ∧ pa.capacity.toNat ≠ 2 ^ 32 - 1 := by
  have hpositive := hsize.toNat_pos
  have hsizes : pa.elsize.toNat = 1 ∨ ∃ half, pa.elsize.toNat = 2 * half := by
    obtain h | h | h | h | h | h := hsize <;> rw [h]
    · exact .inl rfl
    · exact .inr ⟨1, rfl⟩
    · exact .inr ⟨2, rfl⟩
    · exact .inr ⟨4, rfl⟩
    · exact .inr ⟨8, rfl⟩
    · exact .inr ⟨16, rfl⟩
  obtain hone | ⟨half, heven⟩ := hsizes
  · rw [hone]
    omega
  · have htwice : pa.capacity.toNat * (2 * half) = 2 * (pa.capacity.toNat * half) :=
      Nat.mul_left_comm _ _ _
    have hle : pa.capacity.toNat * 2 ≤ pa.capacity.toNat * (2 * half) :=
      Nat.mul_le_mul_left _ (by omega)
    rw [heven]
    omega

/-- If every index has a value, then the machine has numbers where the elements lie. -/
theorem allows_of_holdsLast (hmade : pa.Made) (hholds : pa.HoldsLast machine []) :
    machine.Allows pa.elsize := by
  by_contra hforbids
  obtain ⟨hlarge, hmachine⟩ := not_or.mp hforbids
  have hpositive : 0 < pa.capacity.toNat := by
    by_contra hnone
    refine hmade.total_ne_zero (UInt32.toNat_inj.mp ?_)
    rw [pa.toNat_total, Nat.eq_zero_of_not_pos hnone, Nat.zero_mul]
    rfl
  obtain ⟨hidx, hle, -⟩ := index_of_lt hpositive
  obtain ⟨before, hbefore, -⟩ := hholds _ hidx hle
  have haccess : ∀ width ≠ 1, ∀ idx value, loadElement machine width pa.values idx ≠ .ok value := by
    intro width hwidth idx value
    unfold loadElement access
    rw [if_neg (not_or.mpr ⟨hwidth, hmachine⟩)]
    split_ifs <;> exact fun heq ↦ by cases heq
  have hgetval : ∀ idx value, bitarrayGetval machine pa idx ≠ .ok value := by
    intro idx value
    unfold bitarrayGetval
    dsimp only
    obtain hpacked | h | h | h := hmade.elementSize.cases
    · exact absurd (UInt8.lt_trans hpacked.lt (by decide)) hlarge
    · exact absurd (by rw [h]; decide) hlarge
    · rw [if_neg (by rw [h]; decide), if_neg (by rw [h]; decide), if_pos h]
      exact haccess 2 (by decide) _ value
    · rw [if_neg (by rw [h]; decide), if_neg (by rw [h]; decide), if_neg (by rw [h]; decide),
        if_pos h]
      exact haccess 4 (by decide) _ value
  rw [bitarrayGet_valid hidx hle] at hbefore
  cases hval : bitarrayGetval machine pa (UInt32.ofNat (0 + 1)) with
  | ok value => exact hgetval _ value hval
  | error failure =>
    rw [hval] at hbefore
    cases hbefore

/-- An array and a sequence of writes behave as expected exactly under the condition. -/
theorem behavesAsArray_iff (hnew : bitarrayNew numerals fresh arg1 arg2 arg3 = .ok pa)
    (sets : List (Int32 × Int32)) :
    BehavesAsArray machine arg1 arg3 pa sets ↔
      Supported machine numerals arg1 arg2 arg3 pa sets := by
  obtain ⟨hmade, hsize, hcapacity⟩ := bitarrayNew_ok hnew
  have hbits : (∀ n, arg1.integer numerals = some n →
      n.toUInt32.toNat * (elementSize numerals arg2).toNat < 2 ^ 32 - 1) ↔
        pa.capacity.toNat * pa.elsize.toNat < 2 ^ 32 - 1 := by
    rw [← hsize]
    split at hcapacity
    · next n hn =>
      rw [hcapacity, hn]
      exact ⟨fun hbits ↦ hbits n rfl, fun hbits m hm ↦ Option.some.inj hm ▸ hbits⟩
    · next hn =>
      rw [hn]
      exact ⟨fun _ ↦ hcapacity, fun _ _ hm ↦ by cases hm⟩
  have hstring : (∀ s, arg1 = .string s → arg3 = .other → pa.GivesBack machine s) ↔
      ∀ s, arg1 = .string s → arg3 = .other →
        numerals.integer s.val = none ∧ s.val.length < 2 ^ 29 := by
    refine forall_congr' fun s ↦ forall_congr' fun h1 ↦ forall_congr' fun h3 ↦ ?_
    subst h1 h3
    exact givesBack_iff hnew
  constructor
  · intro hbehaves
    have hfits : pa.capacity.toNat * pa.elsize.toNat < 2 ^ 32 := by
      by_contra hwraps
      obtain ⟨idx, hpositive, hle, houtside⟩ := exists_get_outside hmade (Nat.le_of_not_lt hwraps)
      obtain ⟨before, hbefore, -⟩ := hbehaves.stores 0 idx hpositive hle
      rw [houtside] at hbefore
      cases hbefore
    have hallows := allows_of_holdsLast hmade (hbehaves.stores 0)
    have hsound : pa.Sound machine := ⟨hmade, hfits, hallows⟩
    exact ⟨hbits.mpr ((bits_iff hmade.elementSize).mpr
      ⟨hfits, (pairsInOrder_iff hsound).mp hbehaves.pairs⟩), hsize ▸ hallows,
        (storesAll_iff hsound sets).mp hbehaves.stores, hstring.mp hbehaves.string⟩
  · intro hsupported
    obtain ⟨hfits, hlargest⟩ := (bits_iff hmade.elementSize).mp (hbits.mp hsupported.bits)
    have hsound : pa.Sound machine := ⟨hmade, hfits, hsize ▸ hsupported.allows⟩
    exact ⟨(storesAll_iff hsound sets).mpr hsupported.harmless,
      (pairsInOrder_iff hsound).mpr hlargest, hstring.mpr hsupported.string⟩

end Behaviour

/-- Two elements of 4 bits. -/
def twoNibbles : BitArray := ⟨2, 4, [0, 0, 0]⟩

theorem behavesAsArray_iff_nibbles : BehavesAsArray ⟨true, false⟩ (.number 2) .other twoNibbles [(1, 7)] ↔
    Supported ⟨true, false⟩ noNumerals (.number 2) (.number 4) .other twoNibbles [(1, 7)] :=
  behavesAsArray_iff
    (show bitarrayNew noNumerals (fun _ ↦ 0) (.number 2) (.number 4) .other = .ok twoNibbles
      from rfl) [(1, 7)]

/-- Storing 31 at index 2 writes 1 to index 1. -/
theorem not_behavesAsArray_stray :
    bitarrayNew noNumerals (fun _ ↦ 0) (.number 2) (.number 4) .other = .ok twoNibbles ∧
      ¬ BehavesAsArray ⟨true, false⟩ (.number 2) .other twoNibbles [(2, 31)] := by
  refine ⟨rfl, fun hbehaves ↦ ?_⟩
  obtain ⟨before, hbefore, hafter⟩ := hbehaves.stores 1 1 (by decide) (by decide)
  have hzero : bitarrayGet ⟨true, false⟩ twoNibbles (1 : UInt32).toInt32 = .ok 0 := rfl
  rw [hzero] at hbefore
  rw [← Except.ok.inj hbefore] at hafter
  exact absurd (Except.ok.inj hafter) (by decide)

end Elua.Bitarray
