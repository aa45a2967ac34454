import Mathlib.Data.Nat.Bitwise
import Mathlib.Tactic.Common

/-!
# Fields of a word

`field word pos width` is the number in `width` bits of a word from bit `pos` on. `splice` clears a
field with a mask and writes a number there by `or`, without cutting the number to the field.

The field that is written holds the number modulo its width (`field_splice_self`), and fields below
it keep their numbers (`field_splice_of_below`). A field above it keeps its number exactly if the
bits of the number that reach it are set there already (`field_splice_of_above_iff`).

The mask below a power of two keeps the remainder of a word, and its complement rounds the word down
(`toNat_and_sub_one`, `toNat_and_not_sub_one`).
-/

set_option autoImplicit false
set_option relaxedAutoImplicit false

namespace Elua.Foundation

variable {size : ℕ} {word value : BitVec size} {pos width other : ℕ}

/-- The number in a field of a word. -/
def field (word : BitVec size) (pos width : ℕ) : ℕ := word.toNat / 2 ^ pos % 2 ^ width

/-- A word with a number written to a field. Bits of the number that do not fit stay. -/
def splice (word value : BitVec size) (pos width : ℕ) : BitVec size :=
  word &&& ~~~(BitVec.ofNat size (2 ^ width - 1) <<< pos) ||| value <<< pos

theorem field_lt (word : BitVec size) (pos width : ℕ) : field word pos width < 2 ^ width :=
  Nat.mod_lt _ (Nat.two_pow_pos width)

/-- A bit of the number in a field. -/
theorem testBit_field (word : BitVec size) (pos width index : ℕ) :
    (field word pos width).testBit index =
      (decide (index < width) && word.getLsbD (pos + index)) := by
  unfold field
  rw [Nat.testBit_mod_two_pow, Nat.testBit_div_two_pow, BitVec.getLsbD, Nat.add_comm]

/-- Two fields hold the same number exactly if they have the same bits. -/
theorem field_eq_iff {more : ℕ} {first : BitVec size} {second : BitVec more} :
    field first pos width = field second pos width ↔
      ∀ index < width, first.getLsbD (pos + index) = second.getLsbD (pos + index) := by
  constructor
  · intro heq index hindex
    have hbit := congrArg (Nat.testBit · index) heq
    simpa [testBit_field, hindex] using hbit
  · intro hbits
    refine Nat.eq_of_testBit_eq fun index ↦ ?_
    rw [testBit_field, testBit_field]
    by_cases hindex : index < width
    · rw [hbits index hindex]
    · simp [hindex]

/-- A field in the part of a word that is kept. -/
theorem field_setWidth {part : ℕ} (hinside : pos + width ≤ part) :
    field (word.setWidth part) pos width = field word pos width := by
  refine field_eq_iff.mpr fun index hindex ↦ ?_
  have hpart : pos + index < part := by omega
  rw [BitVec.getLsbD_setWidth, decide_eq_true hpart, Bool.true_and]

/-- A bit of a word with a number written to a field. -/
theorem getLsbD_splice (word value : BitVec size) (pos width index : ℕ) :
    (splice word value pos width).getLsbD index =
      (decide (index < size) &&
        if pos ≤ index then
          (word.getLsbD index && decide (pos + width ≤ index)) || value.getLsbD (index - pos)
        else word.getLsbD index) := by
  unfold splice
  by_cases hsize : index < size
  · by_cases hpos : pos ≤ index
    · have hmask : (!decide (index - pos < width)) = decide (pos + width ≤ index) := by
        rw [← decide_not]
        exact decide_eq_decide.mpr (by omega)
      have hlow : index - pos < size := by omega
      simp only [BitVec.getLsbD_or, BitVec.getLsbD_and, BitVec.getLsbD_not,
        BitVec.getLsbD_shiftLeft, BitVec.getLsbD_ofNat, Nat.testBit_two_pow_sub_one, hsize, hlow,
        Nat.not_lt.mpr hpos, hpos, decide_true, decide_false, Bool.true_and, Bool.not_false, hmask,
        if_true]
    · simp [hsize, hpos, Nat.lt_of_not_le hpos]
  · simp [hsize, BitVec.getLsbD_of_ge _ _ (Nat.le_of_not_lt hsize)]

/-- The field that is written holds the number modulo its width. -/
theorem field_splice_self (hinside : pos + width ≤ size) :
    field (splice word value pos width) pos width = value.toNat % 2 ^ width := by
  refine Nat.eq_of_testBit_eq fun index ↦ ?_
  rw [testBit_field, Nat.testBit_mod_two_pow, getLsbD_splice]
  by_cases hindex : index < width
  · have hsize : pos + index < size := by omega
    have hlow : ¬ pos + width ≤ pos + index := by omega
    simp [hsize, hlow, BitVec.getLsbD]
  · simp [hindex]

/-- A field below keeps its number. -/
theorem field_splice_of_below (hbelow : other + width ≤ pos) (hinside : pos ≤ size) :
    field (splice word value pos width) other width = field word other width := by
  refine field_eq_iff.mpr fun index hindex ↦ ?_
  have hsize : other + index < size := by omega
  have hpos : ¬ pos ≤ other + index := by omega
  rw [getLsbD_splice, if_neg hpos]
  simp [hsize]

/-- A field above keeps its number exactly if the bits of the number that reach it are set. -/
theorem field_splice_of_above_iff (habove : pos + width ≤ other) (hinside : other + width ≤ size) :
    field (splice word value pos width) other width = field word other width ↔
      ∀ index < width, value.getLsbD (other + index - pos) → word.getLsbD (other + index) := by
  refine field_eq_iff.trans (forall₂_congr fun index hindex ↦ ?_)
  have hsize : other + index < size := by omega
  have hpos : pos ≤ other + index := by omega
  have hhigh : pos + width ≤ other + index := by omega
  rw [getLsbD_splice, if_pos hpos]
  cases word.getLsbD (other + index) <;> simp [hsize, hhigh]

/-! ### Masks of a power of two -/

section Masks

variable {unit : BitVec size} {log : ℕ}

/-- A word is the sum of what a mask keeps and what it clears. -/
theorem and_not_add_and (word mask : BitVec size) : (word &&& ~~~mask) + (word &&& mask) = word := by
  have hbits : word &&& ~~~mask ||| word &&& mask = word := by
    ext index hindex
    cases hword : word[index] <;> cases hmask : mask[index] <;> simp [hword, hmask]
  have hdisjoint : (word &&& ~~~mask) &&& (word &&& mask) = BitVec.ofNat size 0 := by
    ext index hindex
    cases hword : word[index] <;> cases hmask : mask[index] <;> simp [hword, hmask]
  rw [BitVec.add_eq_or_of_and_eq_zero _ _ hdisjoint, hbits]

/-- A word has the bits of two masks together exactly if it has those of each. -/
theorem and_or_eq_iff {first second : BitVec size} :
    word &&& (first ||| second) = first ||| second ↔
      word &&& first = first ∧ word &&& second = second := by
  constructor
  · intro hboth
    have hbits : ∀ index (_ : index < size),
        (word[index] && (first[index] || second[index])) = (first[index] || second[index]) := by
      intro index hindex
      have hbit := congrArg (·.getLsbD index) hboth
      simpa [BitVec.getLsbD_eq_getElem hindex] using hbit
    constructor
    · ext index hindex
      have hbit := hbits index hindex
      rw [BitVec.getElem_and]
      cases hword : word[index] <;> cases hfirst : first[index] <;> simp_all
    · ext index hindex
      have hbit := hbits index hindex
      rw [BitVec.getElem_and]
      cases hword : word[index] <;> cases hsecond : second[index] <;> simp_all
  · rintro ⟨hfirst, hsecond⟩
    rw [BitVec.and_or_distrib_left, hfirst, hsecond]

/-- The mask below a power of two. -/
theorem toNat_sub_one (hunit : unit.toNat = 2 ^ log) : (unit - 1).toNat = 2 ^ log - 1 := by
  have hbelow : 2 ^ log < 2 ^ size := hunit ▸ unit.isLt
  have hpositive : 0 < 2 ^ log := Nat.two_pow_pos log
  have hone : (1 : BitVec size).toNat = 1 :=
    (BitVec.toNat_ofNat 1 size).trans (Nat.mod_eq_of_lt (by omega))
  have hle : (1 : BitVec size) ≤ unit := by
    rw [BitVec.le_def, hone]
    omega
  rw [BitVec.toNat_sub_of_le hle, hunit, hone]

/-- The mask below a power of two keeps the remainder. -/
theorem toNat_and_sub_one (hunit : unit.toNat = 2 ^ log) (word : BitVec size) :
    (word &&& (unit - 1)).toNat = word.toNat % unit.toNat := by
  rw [BitVec.toNat_and, toNat_sub_one hunit, Nat.and_two_pow_sub_one_eq_mod, hunit]

/-- The complement of that mask rounds down. -/
theorem toNat_and_not_sub_one (hunit : unit.toNat = 2 ^ log) (word : BitVec size) :
    (word &&& ~~~(unit - 1)).toNat = word.toNat - word.toNat % unit.toNat := by
  have hle : word &&& (unit - 1) ≤ word := by
    rw [BitVec.le_def, toNat_and_sub_one hunit]
    exact Nat.mod_le _ _
  rw [← toNat_and_sub_one hunit word, ← BitVec.toNat_sub_of_le hle]
  congr 1
  exact BitVec.eq_sub_iff_add_eq.mpr (and_not_add_and word (unit - 1))

end Masks

end Elua.Foundation
