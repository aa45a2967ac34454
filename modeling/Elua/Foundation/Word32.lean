import Mathlib.Data.Nat.Bitwise
import Mathlib.Tactic.NormNum

/-!
# Unsigned 32-bit arithmetic

Addresses and sizes are naturals below `2 ^ 32`. `add32` and `sub32` wrap as the unsigned operators
do, `alignUp4` is rounding up to a multiple of four by adding three and masking, and
`leBytes32`/`leValue32` are the little endian bytes of a word and the word of four bytes. The
lemmas say what these compute where nothing wraps, and that a word is recovered from its bytes.
-/

set_option autoImplicit false
set_option relaxedAutoImplicit false

namespace Elua.Foundation

/-- Unsigned addition. -/
def add32 (first second : ℕ) : ℕ := (first + second) % 2 ^ 32

/-- Unsigned subtraction of two words. -/
def sub32 (first second : ℕ) : ℕ :=
  if second ≤ first then first - second else first + 2 ^ 32 - second

/-- Rounding up to a multiple of four by masking: `( value + 3 ) & ~3`. -/
def alignUp4 (value : ℕ) : ℕ := add32 value 3 &&& (2 ^ 32 - 4)

theorem add32_eq {first second : ℕ} (hbound : first + second < 2 ^ 32) :
    add32 first second = first + second :=
  Nat.mod_eq_of_lt hbound

theorem sub32_eq {first second : ℕ} (hle : second ≤ first) :
    sub32 first second = first - second :=
  if_pos hle

/-- A sum is a word. -/
theorem add32_lt (first second : ℕ) : add32 first second < 2 ^ 32 :=
  Nat.mod_lt _ (by norm_num)

/-- A sum that wraps keeps its residue modulo four. -/
theorem add32_mod4 (first second : ℕ) : add32 first second % 4 = (first + second) % 4 := by
  unfold add32
  omega

/-- Subtraction undoes addition, also where the sum wraps. -/
theorem sub32_add32 {value amount : ℕ} (hvalue : value < 2 ^ 32) (hamount : amount < 2 ^ 32) :
    sub32 (add32 value amount) amount = value := by
  unfold sub32 add32
  split_ifs <;> omega

/-- Subtracting twice, where nothing wraps. -/
theorem sub32_sub32 {value first second : ℕ} (hle : first + second ≤ value) :
    sub32 (sub32 value first) second = value - first - second := by
  have hinner : sub32 value first = value - first := sub32_eq (by omega)
  rw [hinner, sub32_eq (by omega)]

/-- Masking off the two lowest bits of a word. -/
theorem and_mask4 {value : ℕ} (hvalue : value < 2 ^ 32) :
    value &&& (2 ^ 32 - 4) = value / 4 * 4 := by
  refine Nat.eq_of_testBit_eq fun index ↦ ?_
  have hmask : (2 ^ 32 - 4).testBit index = (decide (2 ≤ index) && decide (index < 32)) := by
    have hshift : (2 ^ 32 - 4 : ℕ) = (2 ^ 30 - 1) * 2 ^ 2 := by norm_num
    rw [hshift, Nat.testBit_mul_two_pow, Nat.testBit_two_pow_sub_one]
    by_cases hindex : 2 ≤ index
    · simp only [hindex, decide_true, Bool.true_and]
      congr 1
      simp only [eq_iff_iff]
      omega
    · simp [hindex]
  have hround : (value / 4 * 4).testBit index = (decide (2 ≤ index) && value.testBit index) := by
    rw [show (4 : ℕ) = 2 ^ 2 by norm_num, Nat.testBit_mul_two_pow, Nat.testBit_div_two_pow]
    by_cases hindex : 2 ≤ index
    · simp [hindex, Nat.sub_add_cancel hindex]
    · simp [hindex]
  rw [Nat.testBit_and, hmask, hround]
  by_cases hindex : index < 32
  · simp [hindex, Bool.and_comm]
  · have hzero : value.testBit index = false := Nat.testBit_lt_two_pow
      (hvalue.trans_le (Nat.pow_le_pow_right (by norm_num) (not_lt.mp hindex)))
    simp [hzero]

/-- Rounding up, where nothing wraps. -/
theorem alignUp4_eq {value : ℕ} (hbound : value + 3 < 2 ^ 32) :
    alignUp4 value = (value + 3) / 4 * 4 := by
  rw [alignUp4, add32_eq hbound, and_mask4 hbound]

/-- Rounding up adds the padding that leads to the next multiple of four. -/
theorem alignUp4_eq_add {value padding : ℕ} (hbound : value + 3 < 2 ^ 32) (hpadding : padding < 4)
    (hmultiple : (value + padding) % 4 = 0) : alignUp4 value = value + padding := by
  rw [alignUp4_eq hbound]
  omega

/-- Rounding up always gives a multiple of four. -/
theorem alignUp4_mod (value : ℕ) : alignUp4 value % 4 = 0 := by
  rw [alignUp4, and_mask4 (add32_lt value 3)]
  omega

/-- A rounded word is a word. -/
theorem alignUp4_lt (value : ℕ) : alignUp4 value < 2 ^ 32 := by
  have hbound := add32_lt value 3
  rw [alignUp4, and_mask4 hbound]
  omega

/-- The four bytes of a word, lowest first. -/
def leBytes32 (value : ℕ) : List UInt8 :=
  [UInt8.ofNat (value &&& 0xFF), UInt8.ofNat ((value >>> 8) &&& 0xFF),
    UInt8.ofNat ((value >>> 16) &&& 0xFF), UInt8.ofNat ((value >>> 24) &&& 0xFF)]

/-- The word of four bytes, lowest first. -/
def leValue32 (b0 b1 b2 b3 : UInt8) : ℕ :=
  (b0.toNat + (b1.toNat <<< 8) + ((b2.toNat <<< 16) + (b3.toNat <<< 24))) % 2 ^ 32

@[simp] theorem length_leBytes32 (value : ℕ) : (leBytes32 value).length = 4 := rfl

/-- The lowest byte of a number. -/
theorem toNat_lowByte (value : ℕ) : (UInt8.ofNat (value &&& 0xFF)).toNat = value % 256 := by
  have hmask : value &&& 0xFF = value % 256 := Nat.and_two_pow_sub_one_eq_mod value 8
  rw [hmask, UInt8.toNat_ofNat']
  omega

/-- A word is recovered from its bytes. -/
theorem leValue32_leBytes32 {value : ℕ} (hvalue : value < 2 ^ 32) :
    leValue32 (UInt8.ofNat (value &&& 0xFF)) (UInt8.ofNat ((value >>> 8) &&& 0xFF))
      (UInt8.ofNat ((value >>> 16) &&& 0xFF)) (UInt8.ofNat ((value >>> 24) &&& 0xFF)) = value := by
  simp only [leValue32, toNat_lowByte, Nat.shiftRight_eq_div_pow, Nat.shiftLeft_eq]
  omega

/-- The word of four bytes fits into 32 bits. -/
theorem leValue32_lt (b0 b1 b2 b3 : UInt8) : leValue32 b0 b1 b2 b3 < 2 ^ 32 :=
  Nat.mod_lt _ (by norm_num)

end Elua.Foundation
