import Mathlib.Data.List.Basic
import Mathlib.Data.Nat.Bitwise

/-!
# Layouts of binary files

A `Layout` is a piece of a file whose bytes may depend on the offset at which it starts, as padding
does. Pieces are placed one after the other by `Layout.sequence`, and `Layout.finish` is the offset
behind a piece. Padding ends at a multiple of its unit (`Layout.finish_align_mod`).
-/

set_option autoImplicit false
set_option relaxedAutoImplicit false

namespace Elua.Foundation

/-- A piece of a file: its bytes, given the offset at which it starts. -/
abbrev Layout := ℕ → List UInt8

namespace Layout

/-- The offset behind a piece that starts at an offset. -/
def finish (piece : Layout) (start : ℕ) : ℕ := start + (piece start).length

/-- A piece that is the same at every offset. -/
def block (bytes : List UInt8) : Layout := fun _ ↦ bytes

/-- Zeros up to the next multiple of a unit. -/
def align (unit : ℕ) : Layout := fun start ↦ List.replicate ((unit - start % unit) % unit) 0

/-- Pieces one after the other. -/
def sequence : List Layout → Layout
  | [] => fun _ ↦ []
  | piece :: pieces => fun start ↦ piece start ++ sequence pieces (piece.finish start)

@[simp] theorem sequence_nil (start : ℕ) : sequence [] start = [] := rfl

theorem sequence_cons (piece : Layout) (pieces : List Layout) (start : ℕ) :
    sequence (piece :: pieces) start = piece start ++ sequence pieces (piece.finish start) := rfl

@[simp] theorem finish_block (bytes : List UInt8) (start : ℕ) :
    (block bytes).finish start = start + bytes.length := rfl

@[simp] theorem finish_sequence_nil (start : ℕ) : (sequence []).finish start = start := rfl

@[simp] theorem finish_sequence_cons (piece : Layout) (pieces : List Layout) (start : ℕ) :
    (sequence (piece :: pieces)).finish start =
      (sequence pieces).finish (piece.finish start) := by
  unfold finish
  rw [sequence_cons, List.length_append, ← Nat.add_assoc]
  rfl

/-- Padding is empty at a multiple of its unit. -/
theorem align_of_mod_eq_zero {unit start : ℕ} (hstart : start % unit = 0) :
    align unit start = [] := by
  unfold align
  rw [hstart, Nat.sub_zero, Nat.mod_self, List.replicate_zero]

/-- Elsewhere padding is a zero and the padding behind it. -/
theorem align_of_mod_ne_zero {unit start : ℕ} (hunit : 0 < unit) (hstart : start % unit ≠ 0) :
    align unit start = 0 :: align unit (start + 1) := by
  have hlt := Nat.mod_lt start hunit
  have hnext : (start + 1) % unit = (start % unit + 1) % unit := (Nat.mod_add_mod ..).symm
  have hnow : (unit - start % unit) % unit = unit - start % unit := Nat.mod_eq_of_lt (by omega)
  unfold align
  rw [← List.replicate_succ, hnow, hnext]
  congr 1
  by_cases hlast : start % unit + 1 = unit
  · rw [hlast, Nat.mod_self, Nat.sub_zero, Nat.mod_self]
    omega
  · have hsucc : (start % unit + 1) % unit = start % unit + 1 := Nat.mod_eq_of_lt (by omega)
    have hthen : (unit - (start % unit + 1)) % unit = unit - (start % unit + 1) :=
      Nat.mod_eq_of_lt (by omega)
    rw [hsucc, hthen]
    omega

theorem finish_align (unit start : ℕ) :
    (align unit).finish start = start + (unit - start % unit) % unit := by
  unfold finish align
  rw [List.length_replicate]

/-- Padding ends at a multiple of its unit. -/
theorem finish_align_mod {unit : ℕ} (hunit : 0 < unit) (start : ℕ) :
    (align unit).finish start % unit = 0 := by
  rw [finish_align]
  have hdiv := Nat.div_add_mod start unit
  rcases Nat.eq_zero_or_pos (start % unit) with hzero | hpositive
  · rw [hzero, Nat.sub_zero, Nat.mod_self, Nat.add_zero, hzero]
  · have hlt := Nat.mod_lt start hunit
    rw [Nat.mod_eq_of_lt (by omega : unit - start % unit < unit)]
    have hsum : start + (unit - start % unit) = unit * (start / unit + 1) := by
      rw [Nat.mul_succ]
      omega
    rw [hsum, Nat.mul_mod_right]

end Layout

end Elua.Foundation
