import Elua.Bitarray.Storage

/-!
# Bounds of the accesses to a bitarray

`InBounds` says that no index from 1 to the capacity leads outside of the block, for any operation.
`inBounds_iff` says that this is so unless the array was made from a capacity whose bits are 2 ^ 32
or more: then the size wraps and the block is too small. For a string or a table the capacity is
computed from the wrapped number of bits, so it never exceeds the block.
-/

set_option autoImplicit false
set_option relaxedAutoImplicit false

namespace Elua.Bitarray

open Foundation

/-! ### What is promised -/

/-- Indices from 1 to the capacity lead to bytes of the block only, for every operation. -/
structure BitArray.InBounds (machine : Machine) (pa : BitArray) : Prop where
  get : ∀ idx : UInt32, 0 < idx → idx ≤ pa.capacity →
    bitarrayGet machine pa idx.toInt32 ≠ .error .outside
  set : ∀ idx : UInt32, 0 < idx → idx ≤ pa.capacity → ∀ newval,
    bitarraySet machine pa idx.toInt32 newval ≠ .error .outside
  iter : ∀ idx : UInt32, 0 < idx → idx ≤ pa.capacity →
    bitarrayIter machine pa (idx - 1).toInt32 ≠ .error .outside
  tostring : ∀ ptextmode fuel,
    bitarrayTostring machine pa ptextmode fuel ≠ some (.error .outside)
  totable : ∀ ptextmode fuel,
    bitarrayTotable machine pa ptextmode fuel ≠ some (.error .outside)

/-- A capacity that is given as a number has fewer than 2 ^ 32 bits. -/
def BitsFit (numerals : Numerals) (arg1 arg2 : Arg) : Prop :=
  ∀ n, arg1.integer numerals = some n →
    n.toUInt32.toNat * (elementSize numerals arg2).toNat < 2 ^ 32

/-! ### Where an element lies -/

/-- The last bit of element `i`, counted from 0, lies in the block. -/
def BitArray.Reaches (pa : BitArray) (i : ℕ) : Prop :=
  ((i + 1) * pa.elsize.toNat + 7) / 8 ≤ pa.values.length

/-- The byte of an element that is smaller than a byte. -/
theorem toNat_shiftRight_indexShift {elsize : UInt8}
    (hpacked : IsPacked elsize) (idx : UInt32) :
    (idx >>> indexShift elsize).toNat = idx.toNat * elsize.toNat / 8 := by
  rw [UInt32.toNat_shiftRight, Nat.shiftRight_eq_div_pow]
  obtain rfl | rfl | rfl := hpacked
  · show idx.toNat / 8 = idx.toNat * 1 / 8
    omega
  · show idx.toNat / 4 = idx.toNat * 2 / 8
    omega
  · show idx.toNat / 2 = idx.toNat * 4 / 8
    omega

/-- The result of an access is the failure exactly where it lies outside. -/
def Guarded {α : Type} (inside : Prop) (result : Except Failure α) : Prop :=
  (inside → result ≠ .error .outside) ∧ (¬ inside → result = .error .outside)

theorem guarded_loadByte (values : List UInt8) (shift : UInt32) :
    Guarded (shift.toNat < values.length) (loadByte values shift) := by
  unfold loadByte
  constructor
  · intro hinside
    rw [List.getElem?_eq_getElem hinside]
    exact fun heq ↦ by cases heq
  · intro houtside
    rw [List.getElem?_eq_none (Nat.le_of_not_lt houtside)]

theorem guarded_access {α : Type} (machine : Machine) (width : ℕ) (values : List UInt8)
    (idx : UInt32) (result : α) : Guarded (idx.toNat * width + width ≤ values.length)
      (access machine width values idx result) := by
  unfold access
  constructor
  · intro hinside
    rw [if_pos hinside]
    split_ifs <;> exact fun heq ↦ by cases heq
  · intro houtside
    rw [if_neg houtside]

theorem Guarded.bind {α β : Type} {inside : Prop} {result : Except Failure α}
    (hresult : Guarded inside result) (next : α → β) :
    Guarded inside (result >>= fun value ↦ .ok (next value)) := by
  constructor
  · intro hinside heq
    cases result with
    | ok value => cases heq
    | error failure => exact hresult.1 hinside (congrArg Except.error (Except.error.inj heq))
  · intro houtside
    rw [hresult.2 houtside]
    rfl

theorem Guarded.congr {α : Type} {first second : Prop} {result : Except Failure α}
    (hresult : Guarded first result) (hiff : first ↔ second) : Guarded second result :=
  ⟨fun hinside ↦ hresult.1 (hiff.mpr hinside), fun houtside ↦ hresult.2 (mt hiff.mp houtside)⟩

section Accesses

variable {machine : Machine} {pa : BitArray}

/-- A byte of packed elements lies in the block exactly if the element does. -/
theorem div_lt_length_iff_reaches (hpacked : IsPacked pa.elsize) (i : ℕ) :
    i * pa.elsize.toNat / 8 < pa.values.length ↔ pa.Reaches i := by
  unfold BitArray.Reaches
  obtain h | h | h := hpacked <;> rw [h]
  · show i * 1 / 8 < _ ↔ ((i + 1) * 1 + 7) / 8 ≤ _
    omega
  · show i * 2 / 8 < _ ↔ ((i + 1) * 2 + 7) / 8 ≤ _
    omega
  · show i * 4 / 8 < _ ↔ ((i + 1) * 4 + 7) / 8 ≤ _
    omega

theorem lt_length_iff_reaches (hpacked : IsPacked pa.elsize) (idx : UInt32) :
    (idx >>> indexShift pa.elsize).toNat < pa.values.length ↔ pa.Reaches idx.toNat := by
  rw [toNat_shiftRight_indexShift hpacked]
  exact div_lt_length_iff_reaches hpacked idx.toNat

/-- An element of whole bytes lies in the block exactly if its bytes do. -/
theorem le_length_iff_reaches {width : ℕ} (hwidth : pa.elsize.toNat = width * 8) (i : ℕ) :
    i * width + width ≤ pa.values.length ↔ pa.Reaches i := by
  have hbits : ((i + 1) * (width * 8) + 7) / 8 = i * width + width := by
    rw [← Nat.mul_assoc, Nat.add_one_mul]
    omega
  unfold BitArray.Reaches
  rw [hwidth, hbits]

/-- The choice between packed elements and elements of whole bytes. -/
theorem guarded_dispatch {α : Type} {elsize : UInt8} {inside : Prop}
    {packed one two four none : Except Failure α} (hsize : IsElementSize elsize)
    (hpacked : IsPacked elsize → Guarded inside packed)
    (hone : elsize.toNat = 1 * 8 → Guarded inside one)
    (htwo : elsize.toNat = 2 * 8 → Guarded inside two)
    (hfour : elsize.toNat = 4 * 8 → Guarded inside four) :
    Guarded inside (if elsize < 8 then packed else if elsize = 8 then one
      else if elsize = 16 then two else if elsize = 32 then four else none) := by
  obtain rfl | rfl | rfl | rfl | rfl | rfl := hsize
  · exact hpacked (.inl rfl)
  · exact hpacked (.inr (.inl rfl))
  · exact hpacked (.inr (.inr rfl))
  · exact hone rfl
  · exact htwo rfl
  · exact hfour rfl

theorem guarded_getval (hsize : IsElementSize pa.elsize) (idx : UInt32) :
    Guarded (pa.Reaches (idx - 1).toNat) (bitarrayGetval machine pa idx) := by
  refine guarded_dispatch hsize (fun hpacked ↦ ?_) (fun hwidth ↦ ?_) (fun hwidth ↦ ?_)
    fun hwidth ↦ ?_
  · exact ((guarded_loadByte _ _).congr (lt_length_iff_reaches hpacked _)).bind _
  · exact (guarded_access machine _ _ _ _).congr (le_length_iff_reaches hwidth _)
  · exact (guarded_access machine _ _ _ _).congr (le_length_iff_reaches hwidth _)
  · exact (guarded_access machine _ _ _ _).congr (le_length_iff_reaches hwidth _)

theorem guarded_setval (hsize : IsElementSize pa.elsize) (idx newval : UInt32) :
    Guarded (pa.Reaches (idx - 1).toNat) (setval machine pa idx newval) := by
  refine guarded_dispatch hsize (fun hpacked ↦ ?_) (fun hwidth ↦ ?_) (fun hwidth ↦ ?_)
    fun hwidth ↦ ?_
  · exact ((guarded_loadByte _ _).congr (lt_length_iff_reaches hpacked _)).bind _
  · exact (guarded_access machine _ _ _ _).congr (le_length_iff_reaches hwidth _)
  · exact (guarded_access machine _ _ _ _).congr (le_length_iff_reaches hwidth _)
  · exact (guarded_access machine _ _ _ _).congr (le_length_iff_reaches hwidth _)

theorem Guarded.map {α β : Type} {inside : Prop} {result : Except Failure α}
    (hresult : Guarded inside result) (convert : α → β) :
    Guarded inside (result.map convert) := by
  constructor
  · intro hinside heq
    cases result with
    | ok value => cases heq
    | error failure => exact hresult.1 hinside (congrArg Except.error (Except.error.inj heq))
  · intro houtside
    rw [hresult.2 houtside]
    rfl

/-! ### The size of the block -/

theorem BitArray.toNat_total (pa : BitArray) :
    pa.total.toNat = (pa.capacity.toNat * pa.elsize.toNat % 2 ^ 32 + 7) / 8 := by
  unfold BitArray.total
  rw [toNat_roundSize, UInt32.toNat_mul, UInt8.toNat_toUInt32]

/-- If the bits of the capacity fit a word, then every element lies in the block. -/
theorem BitArray.Made.reaches (hmade : pa.Made)
    (hfits : pa.capacity.toNat * pa.elsize.toNat < 2 ^ 32) {i : ℕ} (hi : i < pa.capacity.toNat) :
    pa.Reaches i := by
  have hbits : (i + 1) * pa.elsize.toNat ≤ pa.capacity.toNat * pa.elsize.toNat :=
    Nat.mul_le_mul_right _ hi
  unfold BitArray.Reaches
  rw [hmade.length, pa.toNat_total, Nat.mod_eq_of_lt hfits]
  omega

/-- If they do not, then some element lies outside. -/
theorem BitArray.Made.exists_not_reaches (hmade : pa.Made)
    (hwraps : 2 ^ 32 ≤ pa.capacity.toNat * pa.elsize.toNat) :
    ∃ i < pa.capacity.toNat, ¬ pa.Reaches i := by
  have htotal := pa.toNat_total
  have hlength := hmade.length
  -- the element at the bit behind the block
  refine ⟨pa.values.length * 8 / pa.elsize.toNat, ?_, ?_⟩
  · refine Nat.div_lt_of_lt_mul ?_
    rw [Nat.mul_comm pa.elsize.toNat]
    omega
  · have hpast := Nat.lt_mul_div_succ (pa.values.length * 8) hmade.elementSize.toNat_pos
    unfold BitArray.Reaches
    rw [Nat.mul_comm _ pa.elsize.toNat]
    omega

/-! ### Operations on valid indices -/

theorem toUInt32_toInt32 (idx : UInt32) : idx.toInt32.toUInt32 = idx := rfl

/-- A valid index is not refused. -/
theorem bitarrayGet_valid {idx : UInt32} (hpositive : 0 < idx) (hle : idx ≤ pa.capacity) :
    bitarrayGet machine pa idx.toInt32 =
      (bitarrayGetval machine pa idx).map UInt32.toInt32 :=
  if_neg (not_or.mpr ⟨UInt32.not_le.mpr hpositive, UInt32.not_lt.mpr hle⟩)

theorem bitarraySet_valid {idx : UInt32} (hpositive : 0 < idx) (hle : idx ≤ pa.capacity)
    (newval : Int32) : bitarraySet machine pa idx.toInt32 newval =
      (setval machine pa idx newval.toUInt32).map pa.withValues :=
  if_neg (not_or.mpr ⟨UInt32.not_le.mpr hpositive, UInt32.not_lt.mpr hle⟩)

theorem bitarrayIter_valid {idx : UInt32} (hle : idx ≤ pa.capacity) :
    bitarrayIter machine pa (idx - 1).toInt32 =
      (bitarrayGetval machine pa idx).map fun val ↦ some (idx.toInt32, val.toInt32) := by
  unfold bitarrayIter
  rw [toUInt32_toInt32, UInt32.sub_add_cancel]
  exact if_pos hle

/-- An index from 1 to the capacity, counted from 0. -/
theorem toNat_sub_one_lt {idx : UInt32} (hpositive : 0 < idx) (hle : idx ≤ pa.capacity) :
    (idx - 1).toNat < pa.capacity.toNat := by
  have hone : (1 : UInt32) ≤ idx := by
    rw [UInt32.le_iff_toNat_le]
    exact UInt32.lt_iff_toNat_lt.mp hpositive
  have hlt := UInt32.le_iff_toNat_le.mp hle
  have hfirst := UInt32.le_iff_toNat_le.mp hone
  rw [UInt32.toNat_sub_of_le _ _ hone]
  have hval : (1 : UInt32).toNat = 1 := rfl
  omega

/-- The index of an element counted from 0. -/
theorem index_of_lt {i : ℕ} (hi : i < pa.capacity.toNat) :
    0 < UInt32.ofNat (i + 1) ∧ UInt32.ofNat (i + 1) ≤ pa.capacity ∧
      (UInt32.ofNat (i + 1) - 1).toNat = i := by
  have hcapacity := pa.capacity.toNat_lt
  have hidx : (UInt32.ofNat (i + 1)).toNat = i + 1 :=
    UInt32.toNat_ofNat_of_lt' (show i + 1 < 2 ^ 32 by omega)
  have hone : (1 : UInt32) ≤ UInt32.ofNat (i + 1) := by
    rw [UInt32.le_iff_toNat_le, hidx]
    exact Nat.succ_pos i
  refine ⟨?_, ?_, ?_⟩
  · rw [UInt32.lt_iff_toNat_lt, hidx]
    exact Nat.succ_pos i
  · rw [UInt32.le_iff_toNat_le, hidx]
    exact hi
  · rw [UInt32.toNat_sub_of_le _ _ hone, hidx]
    rfl

end Accesses

/-! ### Conversions -/

section Conversions

variable {machine : Machine} {pa : BitArray} {Item : Type}

/-- A pass goes on from a value inside of the capacity to the next index. -/
theorem seqBody_continues {item : UInt32 → Item} {idx next : UInt32} {out more : List Item}
    (hpass : Continues (seqBody machine pa item) (idx, out) (next, more)) :
    idx ≤ pa.capacity ∧ next = idx + 1 := by
  unfold Continues seqBody at hpass
  dsimp only at hpass
  split_ifs at hpass with hle
  · refine ⟨hle, ?_⟩
    split at hpass
    · exact (Prod.mk.inj (Sum.inl.inj (Option.some.inj hpass))).1.symm
    · cases Option.some.inj hpass
  · cases Option.some.inj hpass

/-- The loop leaves with a failure where an access has it. -/
theorem seqBody_fails {item : UInt32 → Item} {idx : UInt32} {out : List Item} {failure : Failure}
    (hpass : seqBody machine pa item (idx, out) = some (.inr (.error failure))) :
    idx ≤ pa.capacity ∧ bitarrayGetval machine pa idx = .error failure := by
  unfold seqBody at hpass
  dsimp only at hpass
  split_ifs at hpass with hle
  · refine ⟨hle, ?_⟩
    split at hpass
    · cases Option.some.inj hpass
    · next hval =>
      rw [hval, Except.error.inj (Sum.inr.inj (Option.some.inj hpass))]
  · cases Sum.inr.inj (Option.some.inj hpass)

/-- The counter of the loop wraps to 0 only behind the largest capacity. -/
theorem counter_of_visits {item : UInt32 → Item} {idx : UInt32} {out : List Item}
    (hvisits : Visits (seqBody machine pa item) (1, []) (idx, out)) :
    0 < idx ∨ pa.capacity.toNat = 2 ^ 32 - 1 := by
  refine hvisits.rule (fun state ↦ 0 < state.1 ∨ pa.capacity.toNat = 2 ^ 32 - 1) (.inl ?_) ?_
  · exact (by decide : (0 : UInt32) < 1)
  · rintro ⟨first, out⟩ ⟨second, more⟩ - hpass
    obtain ⟨hle, rfl⟩ := seqBody_continues hpass
    have hle := UInt32.le_iff_toNat_le.mp hle
    have hone : (1 : UInt32).toNat = 1 := rfl
    have hfirst := first.toNat_lt
    have hcapacity := pa.capacity.toNat_lt
    dsimp only
    rw [UInt32.lt_iff_toNat_lt, UInt32.toNat_add, hone]
    have hzero : (0 : UInt32).toNat = 0 := rfl
    omega

/-- The loop over the elements meets none outside of the block. Where its counter wraps, the last
byte has room for one more element. -/
theorem seqBody_ne_outside (hmade : pa.Made) (hfits : pa.capacity.toNat * pa.elsize.toNat < 2 ^ 32)
    (item : UInt32 → Item) (fuel : ℕ) :
    runLoop (seqBody machine pa item) fuel (1, []) ≠ some (.error .outside) := by
  intro hrun
  obtain ⟨⟨idx, out⟩, hvisits, hlast⟩ := exists_leaves_of_runLoop hrun
  obtain ⟨hle, hfails⟩ := seqBody_fails hlast
  refine (guarded_getval hmade.elementSize idx).1 ?_ hfails
  by_cases hpositive : 0 < idx
  · exact hmade.reaches hfits (toNat_sub_one_lt hpositive hle)
  · have hcapacity := (counter_of_visits hvisits).resolve_left hpositive
    have hidx : idx = 0 := UInt32.le_zero_iff.mp (UInt32.not_lt.mp hpositive)
    have hlast : (idx - 1).toNat = 2 ^ 32 - 1 := by
      rw [hidx]
      rfl
    have hpositive := hmade.elementSize.toNat_pos
    rw [hcapacity] at hfits
    have hbit : pa.elsize.toNat = 1 := by omega
    have htotal := pa.toNat_total
    rw [hcapacity, hbit] at htotal
    unfold BitArray.Reaches
    rw [hlast, hmade.length, htotal, hbit]
    decide

/-- No conversion leaves the block. -/
theorem unpack_ne_outside (hmade : pa.Made) (hfits : pa.capacity.toNat * pa.elsize.toNat < 2 ^ 32)
    (ptextmode : Option CString) (item : UInt32 → Item) (byte : UInt8 → Item) (fuel : ℕ) :
    unpack machine pa ptextmode item byte fuel ≠ some (.error .outside) := by
  have hraw : pa.total.toNat ≤ pa.values.length := by
    rw [hmade.length]
    omega
  have hmode : unpackRaw ptextmode ≠ .error .outside := by
    unfold unpackRaw
    split
    · exact fun heq ↦ by cases heq
    · split_ifs <;> exact fun heq ↦ by cases heq
  unfold unpack
  split
  · next failure hfailure =>
    intro heq
    rw [Except.error.inj (Option.some.inj heq)] at hfailure
    exact hmode hfailure
  · unfold rawBytes
    rw [if_pos hraw]
    exact fun heq ↦ by cases heq
  · split_ifs
    · exact fun heq ↦ by cases heq
    · exact seqBody_ne_outside hmade hfits item fuel

end Conversions

/-! ### The bounds of all accesses -/

section Bounds

variable {machine : Machine} {pa : BitArray}

/-- An array whose bits fit a word is accessed inside its block. -/
theorem inBounds_of_fits (hmade : pa.Made) (hfits : pa.capacity.toNat * pa.elsize.toNat < 2 ^ 32) :
    pa.InBounds machine where
  get := fun idx hpositive hle ↦ by
    rw [bitarrayGet_valid hpositive hle]
    exact ((guarded_getval hmade.elementSize idx).map _).1
      (hmade.reaches hfits (toNat_sub_one_lt hpositive hle))
  set := fun idx hpositive hle newval ↦ by
    rw [bitarraySet_valid hpositive hle]
    exact ((guarded_setval hmade.elementSize idx _).map _).1
      (hmade.reaches hfits (toNat_sub_one_lt hpositive hle))
  iter := fun idx hpositive hle ↦ by
    rw [bitarrayIter_valid hle]
    exact ((guarded_getval hmade.elementSize idx).map _).1
      (hmade.reaches hfits (toNat_sub_one_lt hpositive hle))
  tostring := fun ptextmode fuel ↦ unpack_ne_outside hmade hfits ptextmode _ _ fuel
  totable := fun ptextmode fuel ↦ unpack_ne_outside hmade hfits ptextmode _ _ fuel

/-- An array whose bits do not fit a word has an index that leads outside. -/
theorem exists_get_outside (hmade : pa.Made)
    (hwraps : 2 ^ 32 ≤ pa.capacity.toNat * pa.elsize.toNat) :
    ∃ idx : UInt32, 0 < idx ∧ idx ≤ pa.capacity ∧
      bitarrayGet machine pa idx.toInt32 = .error .outside := by
  obtain ⟨i, hi, houtside⟩ := hmade.exists_not_reaches hwraps
  obtain ⟨hpositive, hle, hsub⟩ := index_of_lt hi
  refine ⟨_, hpositive, hle, ?_⟩
  rw [bitarrayGet_valid hpositive hle]
  refine ((guarded_getval hmade.elementSize _).map _).2 ?_
  rwa [hsub]

/-- The accesses to an array stay in its block exactly if the bits of its capacity fit a word, or it
was made from a string or a table. -/
theorem inBounds_iff {numerals : Numerals} {fresh : ℕ → UInt8} {arg1 arg2 arg3 : Arg}
    (hnew : bitarrayNew numerals fresh arg1 arg2 arg3 = .ok pa) :
    pa.InBounds machine ↔ BitsFit numerals arg1 arg2 := by
  obtain ⟨hmade, hsize, hcapacity⟩ := bitarrayNew_ok hnew
  have hfits : BitsFit numerals arg1 arg2 ↔ pa.capacity.toNat * pa.elsize.toNat < 2 ^ 32 := by
    unfold BitsFit
    rw [← hsize]
    split at hcapacity
    · next n hn =>
      rw [hcapacity, hn]
      exact ⟨fun hbits ↦ hbits n rfl, fun hbits m hm ↦ Option.some.inj hm ▸ hbits⟩
    · next hn =>
      rw [hn]
      exact ⟨fun _ ↦ by omega, fun _ _ hm ↦ by cases hm⟩
  rw [hfits]
  constructor
  · intro hbounds
    by_contra hwraps
    obtain ⟨idx, hpositive, hle, houtside⟩ := exists_get_outside hmade (Nat.le_of_not_lt hwraps)
    exact hbounds.get idx hpositive hle houtside
  · exact inBounds_of_fits hmade

end Bounds

/-- No string is taken for a number. -/
def noNumerals : Numerals where
  integer := fun _ ↦ none
  nonzero := fun _ _ hnone ↦ by cases hnone

theorem inBounds_iff_eight_bits :
    BitArray.InBounds ⟨true, false⟩ ⟨8, 1, [0, 0, 0]⟩ ↔ BitsFit noNumerals (.number 8) (.number 1) :=
  inBounds_iff (show bitarrayNew noNumerals (fun _ ↦ 0) (.number 8) (.number 1) .other = .ok _
    from rfl)

/-- A capacity of 2 ^ 29 + 1 bytes is given one byte. -/
theorem not_inBounds_wrapped :
    ∃ pa, bitarrayNew noNumerals (fun _ ↦ 0) (.number 0x20000001) (.number 8) .other = .ok pa ∧
      ¬ pa.InBounds ⟨true, false⟩ :=
  ⟨⟨0x20000001, 8, [0, 0, 0]⟩, rfl, fun hbounds ↦ hbounds.get 4 (by decide) (by decide) rfl⟩

end Elua.Bitarray
