import Elua.Bitarray.Bounds

/-!
# Elements of a bitarray

`element` is the number in an element: a field of a byte if the elements are packed, and a number of
the machine otherwise. `bitarray_getval` gives this number (`getval_eq`).

`bitarray_set` clears the field of a packed element and writes the value there without cutting it to
the field. So the element that is written gets the value modulo its size and later elements keep
their numbers, but the bits that do not fit fall into the earlier elements of the byte. `wrote_iff`
says that a write leaves the other elements alone exactly if these bits are set there already.
-/

set_option autoImplicit false
set_option relaxedAutoImplicit false

namespace Elua.Bitarray

open Foundation

/-! ### The number in an element -/

/-- The distance of packed element `i` from bit 0 of its byte. -/
def elementPos (elsize i : ℕ) : ℕ := (8 / elsize - 1 - i % (8 / elsize)) * elsize

/-- The byte of packed element `i`. -/
def BitArray.byteOf (pa : BitArray) (i : ℕ) : UInt8 :=
  pa.values[i * pa.elsize.toNat / 8]?.getD 0

/-- The number in element `i`, counted from 0. -/
def BitArray.element (machine : Machine) (pa : BitArray) (i : ℕ) : ℕ :=
  if pa.elsize < 8 then
    field (pa.byteOf i).toBitVec (elementPos pa.elsize.toNat i) pa.elsize.toNat
  else
    fromMemory machine.littleEndian
      (segment pa.values (i * (pa.elsize.toNat / 8)) (pa.elsize.toNat / 8))

/-- The position that is computed with a mask of low bits. -/
theorem toNat_shift_of_mask {mask elsize : UInt8} {k : ℕ} (hmask : mask.toNat = 2 ^ k - 1)
    (hsmall : mask.toNat * elsize.toNat < 2 ^ 32) (idx : UInt32) :
    ((mask - (idx &&& mask.toUInt32).toUInt8).toUInt32 * elsize.toUInt32).toNat =
      (mask.toNat - idx.toNat % 2 ^ k) * elsize.toNat := by
  have hpositive := Nat.two_pow_pos k
  have hbyte := mask.toNat_lt
  have hmod : idx.toNat % 2 ^ k ≤ mask.toNat := by
    rw [hmask]
    exact Nat.le_sub_one_of_lt (Nat.mod_lt _ hpositive)
  have hrest : (idx &&& mask.toUInt32).toUInt8.toNat = idx.toNat % 2 ^ k := by
    rw [UInt32.toNat_toUInt8, UInt32.toNat_and, UInt8.toNat_toUInt32, hmask,
      Nat.and_two_pow_sub_one_eq_mod]
    exact Nat.mod_eq_of_lt (lt_of_le_of_lt hmod hbyte)
  have hle : (idx &&& mask.toUInt32).toUInt8 ≤ mask := by
    rw [UInt8.le_iff_toNat_le, hrest]
    exact hmod
  rw [UInt32.toNat_mul, UInt8.toNat_toUInt32, UInt8.toNat_toUInt32, UInt8.toNat_sub_of_le _ _ hle,
    hrest]
  refine Nat.mod_eq_of_lt (lt_of_le_of_lt ?_ hsmall)
  exact Nat.mul_le_mul_right _ (Nat.sub_le _ _)

theorem toNat_elementShift {elsize : UInt8} (hpacked : IsPacked elsize) (idx : UInt32) :
    (elementShift elsize idx).toNat = elementPos elsize.toNat idx.toNat := by
  obtain rfl | rfl | rfl := hpacked
  · exact toNat_shift_of_mask (k := 3) rfl (by decide) idx
  · exact toNat_shift_of_mask (k := 2) rfl (by decide) idx
  · exact toNat_shift_of_mask (k := 1) rfl (by decide) idx

theorem IsPacked.lt {elsize : UInt8} (hpacked : IsPacked elsize) : elsize < 8 := by
  obtain rfl | rfl | rfl := hpacked <;> decide

/-- An element size is that of packed elements, or one to four whole bytes. -/
theorem IsElementSize.cases {elsize : UInt8} (hsize : IsElementSize elsize) :
    IsPacked elsize ∨ elsize = 8 ∨ elsize = 16 ∨ elsize = 32 := by
  obtain h | h | h | h := hsize
  · exact .inl (.inl h)
  · exact .inl (.inr (.inl h))
  · exact .inl (.inr (.inr h))
  · exact .inr h

/-- The distance of an element keeps the element inside of its byte. -/
theorem elementPos_add_le {elsize : UInt8} (hpacked : IsPacked elsize) (i : ℕ) :
    elementPos elsize.toNat i + elsize.toNat ≤ 8 := by
  unfold elementPos
  obtain rfl | rfl | rfl := hpacked
  · show (8 / 1 - 1 - i % (8 / 1)) * 1 + 1 ≤ 8
    omega
  · show (8 / 2 - 1 - i % (8 / 2)) * 2 + 2 ≤ 8
    omega
  · show (8 / 4 - 1 - i % (8 / 4)) * 4 + 4 ≤ 8
    omega

theorem toNat_indexMask {elsize : UInt8} (hpacked : IsPacked elsize) :
    (indexMask elsize).toNat = 2 ^ elsize.toNat - 1 := by
  obtain rfl | rfl | rfl := hpacked <;> rfl

section Access

variable {machine : Machine} {pa : BitArray}

theorem element_packed (hpacked : IsPacked pa.elsize) (i : ℕ) : pa.element machine i =
    field (pa.byteOf i).toBitVec (elementPos pa.elsize.toNat i) pa.elsize.toNat :=
  if_pos hpacked.lt

theorem element_whole {width : ℕ} (hwhole : ¬ pa.elsize < 8)
    (hwidth : pa.elsize.toNat = width * 8) (i : ℕ) : pa.element machine i =
      fromMemory machine.littleEndian (segment pa.values (i * width) width) := by
  unfold BitArray.element
  rw [if_neg hwhole, hwidth, Nat.mul_div_cancel width (by decide)]

/-- A byte that lies in the block. -/
theorem loadByte_eq (hpacked : IsPacked pa.elsize) {idx : UInt32} (hinside : pa.Reaches idx.toNat) :
    loadByte pa.values (idx >>> indexShift pa.elsize) = .ok (pa.byteOf idx.toNat) := by
  have hlt := (lt_length_iff_reaches hpacked idx).mpr hinside
  unfold loadByte BitArray.byteOf
  rw [toNat_shiftRight_indexShift hpacked] at hlt ⊢
  rw [List.getElem?_eq_getElem hlt]
  rfl

/-- An access to an element of whole bytes that lies in the block. -/
theorem access_eq {α : Type} {width : ℕ} (hwhole : ¬ pa.elsize < 8)
    (hwidth : pa.elsize.toNat = width * 8) (hallows : machine.Allows pa.elsize) {idx : UInt32}
    (hinside : pa.Reaches idx.toNat) (result : α) :
    access machine width pa.values idx result = .ok result := by
  have haligned : width = 1 ∨ machine.unaligned = true := by
    refine hallows.imp_left fun hsmall ↦ ?_
    have hlow : 8 ≤ pa.elsize.toNat := UInt8.le_iff_toNat_le.mp (UInt8.not_lt.mp hwhole)
    have hhigh : pa.elsize.toNat < 16 := UInt8.lt_iff_toNat_lt.mp hsmall
    omega
  unfold access
  rw [if_pos ((le_length_iff_reaches hwidth _).mpr hinside), if_pos haligned]

/-- `bitarray_getval` gives the number in an element that lies in the block. -/
theorem getval_eq (hsize : IsElementSize pa.elsize) (hallows : machine.Allows pa.elsize)
    {idx : UInt32} (hinside : pa.Reaches (idx - 1).toNat) : bitarrayGetval machine pa idx =
      .ok (.ofNat (pa.element machine (idx - 1).toNat)) := by
  have hload : ∀ width, pa.elsize.toNat = width * 8 → ¬ pa.elsize < 8 →
      loadElement machine width pa.values (idx - 1) =
        .ok (.ofNat (pa.element machine (idx - 1).toNat)) := by
    intro width hwidth hwhole
    rw [element_whole hwhole hwidth]
    exact access_eq hwhole hwidth hallows hinside _
  unfold bitarrayGetval
  dsimp only
  obtain hpacked | h | h | h := hsize.cases
  · rw [if_pos hpacked.lt, loadByte_eq hpacked hinside, element_packed hpacked]
    refine congrArg Except.ok (UInt32.toNat_inj.mp ?_)
    have hpos := elementPos_add_le hpacked (idx - 1).toNat
    have hshift := Nat.mod_eq_of_lt (show elementPos pa.elsize.toNat (idx - 1).toNat < 32 by omega)
    have hfield := field_lt (pa.byteOf (idx - 1).toNat).toBitVec
      (elementPos pa.elsize.toNat (idx - 1).toNat) pa.elsize.toNat
    have hword : (2 : ℕ) ^ pa.elsize.toNat ≤ 2 ^ 32 := Nat.pow_le_pow_right (by decide) (by omega)
    rw [UInt32.toNat_ofNat_of_lt' (lt_of_lt_of_le hfield hword), UInt32.toNat_and,
      toNat_indexMask hpacked, Nat.and_two_pow_sub_one_eq_mod, UInt32.toNat_shiftRight,
      UInt8.toNat_toUInt32, toNat_elementShift hpacked, hshift, Nat.shiftRight_eq_div_pow]
    rfl
  · have hwhole : ¬ pa.elsize < 8 := by
      rw [h]
      decide
    rw [if_neg hwhole, if_pos h]
    exact hload 1 (by rw [h]; rfl) hwhole
  · have hwhole : ¬ pa.elsize < 8 := by
      rw [h]
      decide
    rw [if_neg hwhole, if_neg (by rw [h]; decide), if_pos h]
    exact hload 2 (by rw [h]; rfl) hwhole
  · have hwhole : ¬ pa.elsize < 8 := by
      rw [h]
      decide
    rw [if_neg hwhole, if_neg (by rw [h]; decide), if_neg (by rw [h]; decide), if_pos h]
    exact hload 4 (by rw [h]; rfl) hwhole

/-- The bytes after a write to a packed element. -/
def BitArray.spliced (pa : BitArray) (i : ℕ) (newval : UInt32) : List UInt8 :=
  pa.values.set (i * pa.elsize.toNat / 8) ⟨(splice ((pa.byteOf i).toBitVec.setWidth 32)
    newval.toBitVec (elementPos pa.elsize.toNat i) pa.elsize.toNat).setWidth 8⟩

theorem setval_packed (hpacked : IsPacked pa.elsize) {idx : UInt32}
    (hinside : pa.Reaches (idx - 1).toNat) (newval : UInt32) :
    setval machine pa idx newval = .ok (pa.spliced (idx - 1).toNat newval) := by
  have hpos := elementPos_add_le hpacked (idx - 1).toNat
  have hshift : (elementShift pa.elsize (idx - 1)).toBitVec % 32 =
      BitVec.ofNat 32 (elementPos pa.elsize.toNat (idx - 1).toNat) := by
    refine BitVec.eq_of_toNat_eq ?_
    have hnat := toNat_elementShift hpacked (idx - 1)
    rw [BitVec.toNat_umod, UInt32.toNat_toBitVec, hnat, BitVec.toNat_ofNat]
    show elementPos pa.elsize.toNat (idx - 1).toNat % 32 = _
    omega
  have hmask : (indexMask pa.elsize).toBitVec = BitVec.ofNat 32 (2 ^ pa.elsize.toNat - 1) := by
    rw [← toNat_indexMask hpacked]
    exact ((BitVec.ofNat_toNat 32 (indexMask pa.elsize).toBitVec).trans
      (BitVec.setWidth_eq _)).symm
  have hbits : (elementPos pa.elsize.toNat (idx - 1).toNat) % 2 ^ 32 =
      elementPos pa.elsize.toNat (idx - 1).toNat := by
    omega
  unfold setval BitArray.spliced
  dsimp only
  rw [if_pos hpacked.lt, loadByte_eq hpacked hinside, toNat_shiftRight_indexShift hpacked]
  refine congrArg (fun byte ↦ Except.ok (pa.values.set _ byte)) (UInt8.toBitVec_inj.mp ?_)
  unfold splice
  rw [UInt32.toBitVec_toUInt8, UInt32.toBitVec_or, UInt32.toBitVec_and, UInt32.toBitVec_not,
    UInt32.toBitVec_shiftLeft, UInt32.toBitVec_shiftLeft, UInt8.toBitVec_toUInt32, hshift, hmask]
  rw [BitVec.shiftLeft_eq', BitVec.shiftLeft_eq', BitVec.toNat_ofNat, hbits]

/-- A write to an element of whole bytes. -/
theorem setval_whole {width : ℕ} (hsize : IsElementSize pa.elsize) (hwhole : ¬ pa.elsize < 8)
    (hwidth : pa.elsize.toNat = width * 8) (hallows : machine.Allows pa.elsize) {idx : UInt32}
    (hinside : pa.Reaches (idx - 1).toNat) (newval : UInt32) : setval machine pa idx newval = .ok
      (overwrite pa.values ((idx - 1).toNat * width) (inMemory machine.littleEndian width newval.toNat)) := by
  have hstore : storeElement machine width pa.values (idx - 1) newval = .ok
      (overwrite pa.values ((idx - 1).toNat * width) (inMemory machine.littleEndian width newval.toNat)) :=
    access_eq hwhole hwidth hallows hinside _
  have hbytes : ∀ number, pa.elsize.toNat = number * 8 → number = width := by omega
  unfold setval
  dsimp only
  rw [if_neg hwhole]
  obtain hpacked | h | h | h := hsize.cases
  · exact absurd hpacked.lt hwhole
  · obtain rfl := hbytes 1 (by rw [h]; rfl)
    rw [if_pos h]
    exact hstore
  · obtain rfl := hbytes 2 (by rw [h]; rfl)
    rw [if_neg (by rw [h]; decide), if_pos h]
    exact hstore
  · obtain rfl := hbytes 4 (by rw [h]; rfl)
    rw [if_neg (by rw [h]; decide), if_neg (by rw [h]; decide), if_pos h]
    exact hstore

end Access

/-! ### What a write does to the elements -/

section Write

variable {machine : Machine} {pa : BitArray} {i j : ℕ} {newval : UInt32}

/-- An earlier element of a byte lies above a later one. -/
theorem elementPos_of_lt {elsize : UInt8} (hpacked : IsPacked elsize) (hlt : i < j)
    (hbyte : i * elsize.toNat / 8 = j * elsize.toNat / 8) :
    elementPos elsize.toNat j + elsize.toNat ≤ elementPos elsize.toNat i := by
  unfold elementPos
  obtain rfl | rfl | rfl := hpacked
  · change i * 1 / 8 = j * 1 / 8 at hbyte
    show (8 / 1 - 1 - j % (8 / 1)) * 1 + 1 ≤ (8 / 1 - 1 - i % (8 / 1)) * 1
    omega
  · change i * 2 / 8 = j * 2 / 8 at hbyte
    show (8 / 2 - 1 - j % (8 / 2)) * 2 + 2 ≤ (8 / 2 - 1 - i % (8 / 2)) * 2
    omega
  · change i * 4 / 8 = j * 4 / 8 at hbyte
    show (8 / 4 - 1 - j % (8 / 4)) * 4 + 4 ≤ (8 / 4 - 1 - i % (8 / 4)) * 4
    omega

/-- A bit of a byte above an element belongs to an earlier element. -/
theorem exists_element_of_bit {elsize : UInt8} (hpacked : IsPacked elsize) {bit : ℕ}
    (hbit : bit < 8) (habove : elementPos elsize.toNat i + elsize.toNat ≤ bit) :
    ∃ j < i, j * elsize.toNat / 8 = i * elsize.toNat / 8 ∧
      ∃ index < elsize.toNat, elementPos elsize.toNat j + index = bit := by
  unfold elementPos at habove ⊢
  obtain rfl | rfl | rfl := hpacked
  · change (8 / 1 - 1 - i % (8 / 1)) * 1 + 1 ≤ bit at habove
    refine ⟨i / 8 * 8 + (7 - bit), ?_, ?_, 0, Nat.one_pos, ?_⟩
    · omega
    · show (i / 8 * 8 + (7 - bit)) * 1 / 8 = i * 1 / 8
      omega
    · show (8 / 1 - 1 - (i / 8 * 8 + (7 - bit)) % (8 / 1)) * 1 + 0 = bit
      omega
  · change (8 / 2 - 1 - i % (8 / 2)) * 2 + 2 ≤ bit at habove
    refine ⟨i / 4 * 4 + (3 - bit / 2), ?_, ?_, bit % 2, Nat.mod_lt _ Nat.two_pos, ?_⟩
    · omega
    · show (i / 4 * 4 + (3 - bit / 2)) * 2 / 8 = i * 2 / 8
      omega
    · show (8 / 2 - 1 - (i / 4 * 4 + (3 - bit / 2)) % (8 / 2)) * 2 + bit % 2 = bit
      omega
  · change (8 / 4 - 1 - i % (8 / 4)) * 4 + 4 ≤ bit at habove
    refine ⟨i / 2 * 2 + (1 - bit / 4), ?_, ?_, bit % 4, Nat.mod_lt _ (by decide), ?_⟩
    · omega
    · show (i / 2 * 2 + (1 - bit / 4)) * 4 / 8 = i * 4 / 8
      omega
    · show (8 / 4 - 1 - (i / 2 * 2 + (1 - bit / 4)) % (8 / 4)) * 4 + bit % 4 = bit
      omega

/-- The bits of a value above its element that fall into its byte are set there. -/
def BitArray.StraySet (pa : BitArray) (i : ℕ) (newval : UInt32) : Prop :=
  ∀ bit < 8, elementPos pa.elsize.toNat i + pa.elsize.toNat ≤ bit →
    newval.toBitVec.getLsbD (bit - elementPos pa.elsize.toNat i) →
      (pa.byteOf i).toBitVec.getLsbD bit

/-- The byte of an element after a write to an element. -/
theorem byteOf_spliced (hpacked : IsPacked pa.elsize) (hinside : pa.Reaches i) (j : ℕ) :
    (pa.withValues (pa.spliced i newval)).byteOf j =
      if j * pa.elsize.toNat / 8 = i * pa.elsize.toNat / 8 then
        ⟨(splice ((pa.byteOf i).toBitVec.setWidth 32) newval.toBitVec
          (elementPos pa.elsize.toNat i) pa.elsize.toNat).setWidth 8⟩
      else pa.byteOf j := by
  have hlt := (div_lt_length_iff_reaches hpacked i).mpr hinside
  show (pa.spliced i newval)[j * pa.elsize.toNat / 8]?.getD 0 = _
  unfold BitArray.spliced
  rw [List.getElem?_set]
  split_ifs with hsame hother
  · rfl
  · exact absurd hsame.symm hother
  · next hother => exact absurd hother.symm hsame
  · rfl

/-- A number in the byte of a packed element that is written. -/
theorem element_spliced (hpacked : IsPacked pa.elsize) (hinside : pa.Reaches i)
    (hbyte : j * pa.elsize.toNat / 8 = i * pa.elsize.toNat / 8) :
    (pa.withValues (pa.spliced i newval)).element machine j =
      field (splice ((pa.byteOf i).toBitVec.setWidth 32) newval.toBitVec
        (elementPos pa.elsize.toNat i) pa.elsize.toNat) (elementPos pa.elsize.toNat j)
          pa.elsize.toNat := by
  have hafter : IsPacked (pa.withValues (pa.spliced i newval)).elsize := hpacked
  rw [element_packed hafter, byteOf_spliced hpacked hinside, if_pos hbyte]
  exact field_setWidth (elementPos_add_le hpacked j)

/-- An element of the same byte before the write. -/
theorem element_of_byte (hpacked : IsPacked pa.elsize)
    (hbyte : j * pa.elsize.toNat / 8 = i * pa.elsize.toNat / 8) : pa.element machine j =
      field ((pa.byteOf i).toBitVec.setWidth 32) (elementPos pa.elsize.toNat j)
        pa.elsize.toNat := by
  have hpos := elementPos_add_le hpacked j
  rw [element_packed hpacked]
  unfold BitArray.byteOf
  rw [hbyte]
  exact field_eq_iff.mpr fun index hindex ↦ by
    have hword : elementPos pa.elsize.toNat j + index < 32 := by omega
    rw [BitVec.getLsbD_setWidth, decide_eq_true hword, Bool.true_and]

theorem element_spliced_self (hpacked : IsPacked pa.elsize) (hinside : pa.Reaches i) :
    (pa.withValues (pa.spliced i newval)).element machine i =
      newval.toNat % 2 ^ pa.elsize.toNat := by
  have hpos := elementPos_add_le hpacked i
  rw [element_spliced hpacked hinside rfl, field_splice_self (by omega)]
  rfl

/-- Elements of other bytes and later elements keep their numbers. -/
theorem element_spliced_of_later (hpacked : IsPacked pa.elsize) (hinside : pa.Reaches i)
    (hlater : j * pa.elsize.toNat / 8 = i * pa.elsize.toNat / 8 → i < j) :
    (pa.withValues (pa.spliced i newval)).element machine j =
      pa.element machine j := by
  by_cases hbyte : j * pa.elsize.toNat / 8 = i * pa.elsize.toNat / 8
  · have hpos := elementPos_add_le hpacked i
    rw [element_spliced hpacked hinside hbyte, element_of_byte hpacked hbyte]
    exact field_splice_of_below (elementPos_of_lt hpacked (hlater hbyte) hbyte.symm) (by omega)
  · have hafter : IsPacked (pa.withValues (pa.spliced i newval)).elsize := hpacked
    rw [element_packed hafter, byteOf_spliced hpacked hinside, if_neg hbyte, element_packed hpacked]
    rfl

/-- Earlier elements of the byte keep their numbers exactly if the stray bits are set there. -/
theorem forall_earlier_iff (hpacked : IsPacked pa.elsize) (hinside : pa.Reaches i) :
    (∀ j < i, (pa.withValues (pa.spliced i newval)).element machine j =
      pa.element machine j) ↔ pa.StraySet i newval := by
  have hearlier : ∀ j < i, j * pa.elsize.toNat / 8 = i * pa.elsize.toNat / 8 →
      ((pa.withValues (pa.spliced i newval)).element machine j =
        pa.element machine j ↔ ∀ index < pa.elsize.toNat,
          newval.toBitVec.getLsbD
            (elementPos pa.elsize.toNat j + index - elementPos pa.elsize.toNat i) →
          (pa.byteOf i).toBitVec.getLsbD (elementPos pa.elsize.toNat j + index)) := by
    intro j hj hbyte
    have hpos := elementPos_add_le hpacked j
    rw [element_spliced hpacked hinside hbyte, element_of_byte hpacked hbyte,
      field_splice_of_above_iff (elementPos_of_lt hpacked hj hbyte) (by omega)]
    refine forall₂_congr fun index hindex ↦ ?_
    have hword : elementPos pa.elsize.toNat j + index < 32 := by omega
    rw [BitVec.getLsbD_setWidth, decide_eq_true hword, Bool.true_and]
  constructor
  · intro hkept bit hbit habove hnew
    obtain ⟨j, hj, hbyte, index, hindex, rfl⟩ := exists_element_of_bit hpacked hbit habove
    exact (hearlier j hj hbyte).mp (hkept j hj) index hindex hnew
  · intro hset j hj
    by_cases hbyte : j * pa.elsize.toNat / 8 = i * pa.elsize.toNat / 8
    · refine (hearlier j hj hbyte).mpr fun index hindex hnew ↦ ?_
      have hpos := elementPos_add_le hpacked j
      have habove := elementPos_of_lt hpacked hj hbyte
      exact hset _ (by omega) (by omega) hnew
    · exact element_spliced_of_later hpacked hinside fun heq ↦ absurd heq hbyte

/-- A write to an element of whole bytes changes this element only. -/
theorem element_overwrite {width : ℕ} (hwhole : ¬ pa.elsize < 8)
    (hwidth : pa.elsize.toNat = width * 8) (hinside : pa.Reaches i) :
    (pa.withValues (overwrite pa.values (i * width)
      (inMemory machine.littleEndian width newval.toNat))).element machine j =
        if j = i then newval.toNat % 2 ^ pa.elsize.toNat else pa.element machine j := by
  have hend := (le_length_iff_reaches hwidth i).mpr hinside
  have hlength := length_inMemory machine.littleEndian width newval.toNat
  have hafter : ∀ values, (pa.withValues values).element machine j =
      fromMemory machine.littleEndian (segment values (j * width) width) :=
    fun values ↦ element_whole (show ¬ (pa.withValues values).elsize < 8 from hwhole) hwidth j
  rw [hafter]
  split_ifs with hsame
  · have hsegment : segment (overwrite pa.values (i * width)
        (inMemory machine.littleEndian width newval.toNat)) (i * width) _ = _ :=
      segment_overwrite_self (by rw [hlength]; exact hend)
    rw [hlength] at hsegment
    have hbyte : (256 : ℕ) = 2 ^ 8 := rfl
    rw [hsame, hsegment, fromMemory_inMemory, hwidth, Nat.mul_comm, pow_mul, hbyte]
  · rw [element_whole hwhole hwidth]
    refine congrArg _ (segment_overwrite_of_disjoint _ ?_)
    rw [hlength, ← Nat.add_one_mul, ← Nat.add_one_mul]
    obtain hlt | hlt := Nat.lt_or_gt_of_ne hsame
    · exact .inl (Nat.mul_le_mul_right _ hlt)
    · exact .inr (Nat.mul_le_mul_right _ hlt)

/-- What a write to an element promises of all elements. -/
def BitArray.Wrote (machine : Machine) (pa after : BitArray) (i : ℕ) (newval : UInt32) : Prop :=
  ∀ j < pa.capacity.toNat, after.element machine j =
    if j = i then newval.toNat % 2 ^ pa.elsize.toNat else pa.element machine j

/-- A write to a valid index keeps the promise exactly if no stray bits do harm. -/
theorem wrote_iff (hsize : IsElementSize pa.elsize) (hallows : machine.Allows pa.elsize)
    {idx : UInt32} (hinside : pa.Reaches (idx - 1).toNat) (hlt : (idx - 1).toNat < pa.capacity.toNat) :
    ∃ values, setval machine pa idx newval = .ok values ∧
      values.length = pa.values.length ∧
        (pa.Wrote machine (pa.withValues values) (idx - 1).toNat newval ↔
          (pa.elsize < 8 → pa.StraySet (idx - 1).toNat newval)) := by
  have hwhole : ∀ width, pa.elsize.toNat = width * 8 → ¬ pa.elsize < 8 →
      ∃ values, setval machine pa idx newval = .ok values ∧
        values.length = pa.values.length ∧
          (pa.Wrote machine (pa.withValues values) (idx - 1).toNat newval ↔
            (pa.elsize < 8 → pa.StraySet (idx - 1).toNat newval)) :=
    fun width hwidth hwhole ↦ ⟨_, setval_whole hsize hwhole hwidth hallows hinside newval,
      length_overwrite _ _ _, iff_of_true (fun j _ ↦ element_overwrite hwhole hwidth hinside)
        fun hpacked ↦ absurd hpacked hwhole⟩
  obtain hpacked | h | h | h := hsize.cases
  · refine ⟨_, setval_packed hpacked hinside newval, List.length_set, ?_⟩
    rw [← forall_earlier_iff hpacked hinside]
    constructor
    · intro hwrote _ j hj
      rw [hwrote j (hj.trans hlt), if_neg (Nat.ne_of_lt hj)]
    · intro hearlier j hj
      split_ifs with hsame
      · rw [hsame, element_spliced_self hpacked hinside]
      · by_cases hbefore : j < (idx - 1).toNat
        · exact hearlier hpacked.lt j hbefore
        · exact element_spliced_of_later hpacked hinside fun _ ↦
            lt_of_le_of_ne (Nat.le_of_not_lt hbefore) (Ne.symm hsame)
  · exact hwhole 1 (by rw [h]; rfl) (by rw [h]; decide)
  · exact hwhole 2 (by rw [h]; rfl) (by rw [h]; decide)
  · exact hwhole 4 (by rw [h]; rfl) (by rw [h]; decide)

end Write

end Elua.Bitarray
