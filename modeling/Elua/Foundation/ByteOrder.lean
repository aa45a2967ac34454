import Mathlib.Data.Nat.Bitwise
import Mathlib.Tactic.NormNum

/-!
# Numbers in memory

A number of `width` bytes lies in memory low byte first on a little endian machine and high byte
first on a big endian one (`inMemory`, `fromMemory`). A signed number is stored as its residue
(`residue`) and read back by the balanced remainder (`signedValue`). Reversing the bytes turns one
order into the other (`reverse_inMemory`), and reading back what was stored gives the number modulo
its width (`fromMemory_inMemory`, `signedValue_residue`).
-/

set_option autoImplicit false
set_option relaxedAutoImplicit false

namespace Elua.Foundation

/-- The low `width` bytes of a number, low byte first. -/
def leBytes : ℕ → ℕ → List UInt8
  | 0, _ => []
  | width + 1, value => UInt8.ofNat (value % 256) :: leBytes width (value / 256)

/-- The number whose bytes, low byte first, are given. -/
def leValue : List UInt8 → ℕ
  | [] => 0
  | byte :: bytes => byte.toNat + 256 * leValue bytes

/-- The bytes of a number as a machine of the given byte order stores them. -/
def inMemory (littleEndian : Bool) (width value : ℕ) : List UInt8 :=
  if littleEndian then leBytes width value else (leBytes width value).reverse

/-- The number that a machine of the given byte order reads from bytes. -/
def fromMemory (littleEndian : Bool) (bytes : List UInt8) : ℕ :=
  leValue (if littleEndian then bytes else bytes.reverse)

/-- The unsigned number of `width` bytes that stands for a signed one. -/
def residue (width : ℕ) (value : ℤ) : ℕ := (value % (256 ^ width : ℕ)).toNat

/-- The signed number for which an unsigned one of `width` bytes stands. -/
def signedValue (width value : ℕ) : ℤ := (value : ℤ).bmod (256 ^ width)

@[simp] theorem length_leBytes (width value : ℕ) : (leBytes width value).length = width := by
  induction width generalizing value with
  | zero => rfl
  | succ width ih => rw [leBytes, List.length_cons, ih]

theorem leValue_leBytes (width value : ℕ) :
    leValue (leBytes width value) = value % 256 ^ width := by
  induction width generalizing value with
  | zero => rw [pow_zero, Nat.mod_one]; rfl
  | succ width ih =>
    have hbyte : (UInt8.ofNat (value % 256)).toNat = value % 256 := by simp
    rw [leBytes, leValue, ih, hbyte, pow_succ', Nat.mod_mul]

@[simp] theorem length_inMemory (littleEndian : Bool) (width value : ℕ) :
    (inMemory littleEndian width value).length = width := by
  unfold inMemory
  split <;> simp

/-- Bytes hold a number of their width. -/
theorem leValue_lt (bytes : List UInt8) : leValue bytes < 256 ^ bytes.length := by
  induction bytes with
  | nil => exact Nat.one_pos
  | cons byte bytes ih =>
    have hbyte := byte.toNat_lt
    rw [leValue, List.length_cons, pow_succ']
    omega

theorem fromMemory_lt (littleEndian : Bool) (bytes : List UInt8) :
    fromMemory littleEndian bytes < 256 ^ bytes.length := by
  unfold fromMemory
  refine lt_of_lt_of_eq (leValue_lt _) ?_
  split
  · rfl
  · rw [List.length_reverse]

/-- Reading a stored number back gives the number modulo its width. -/
theorem fromMemory_inMemory (littleEndian : Bool) (width value : ℕ) :
    fromMemory littleEndian (inMemory littleEndian width value) = value % 256 ^ width := by
  unfold fromMemory inMemory
  cases littleEndian <;> simp [leValue_leBytes]

/-- Reversing the bytes of a number changes the byte order. -/
theorem reverse_inMemory (littleEndian : Bool) (width value : ℕ) :
    (inMemory littleEndian width value).reverse = inMemory (!littleEndian) width value := by
  unfold inMemory
  cases littleEndian <;> simp

/-- A residue fits its width. -/
theorem residue_lt (width : ℕ) (value : ℤ) : residue width value < 256 ^ width := by
  unfold residue
  have hpositive : (0 : ℤ) < (256 ^ width : ℕ) := by positivity
  have hlow := Int.emod_nonneg value hpositive.ne'
  have hhigh := Int.emod_lt_of_pos value hpositive
  omega

/-- The residue of a signed number stands for its balanced remainder. -/
theorem signedValue_residue (width : ℕ) (value : ℤ) :
    signedValue width (residue width value) = value.bmod (256 ^ width) := by
  unfold signedValue residue
  have hpositive : (0 : ℤ) < (256 ^ width : ℕ) := by positivity
  rw [Int.toNat_of_nonneg (Int.emod_nonneg value hpositive.ne'), Int.emod_bmod]

end Elua.Foundation
