import Mathlib.Data.Nat.ModEq
import Mathlib.Data.Nat.Prime.Basic
import Mathlib.Tactic.Common

/-!
# The window of a ring of slots

A ring of `capacity` slots holds a first-in first-out queue as the window of `count` slots that
starts at slot `start` and wraps around. `ringWindow` is the content of that window. Appending
writes the slot behind the window (`ringWindow_append`), dropping the oldest element moves the
start (`ringWindow_cons`), and only the slots of the window matter (`ringWindow_congr`).
`same_end_iff` compares a window with the one of as many elements in a ring of other sizes.
-/

set_option autoImplicit false
set_option relaxedAutoImplicit false

namespace Elua.Foundation

variable {Element : Type*}

/-- The content of the `count` slots of a ring that start at slot `start`, oldest first. -/
def ringWindow (slot : ℕ → Element) (capacity start count : ℕ) : List Element :=
  (List.range count).map fun index ↦ slot ((start + index) % capacity)

@[simp] theorem length_ringWindow (slot : ℕ → Element) (capacity start count : ℕ) :
    (ringWindow slot capacity start count).length = count := by
  simp [ringWindow]

/-- A window depends only on the slots it covers. -/
theorem ringWindow_congr {first second : ℕ → Element} {capacity start count : ℕ}
    (hagree : ∀ index < count,
      first ((start + index) % capacity) = second ((start + index) % capacity)) :
    ringWindow first capacity start count = ringWindow second capacity start count :=
  List.map_congr_left fun index hindex ↦ hagree index (List.mem_range.mp hindex)

/-- The oldest element of a nonempty window stands at its start; the rest is the window one slot
further. -/
theorem ringWindow_succ (slot : ℕ → Element) (capacity start count : ℕ) :
    ringWindow slot capacity start (count + 1) =
      slot (start % capacity) :: ringWindow slot capacity (start + 1) count := by
  simp only [ringWindow, List.range_succ_eq_map, List.map_cons, List.map_map, Nat.add_zero]
  congr 1
  refine List.map_congr_left fun index _ ↦ ?_
  simp only [Function.comp_apply, Nat.succ_eq_add_one]
  rw [Nat.add_right_comm, Nat.add_assoc]

/-- The newest element of a window stands in its last slot. -/
theorem ringWindow_succ_last (slot : ℕ → Element) (capacity start count : ℕ) :
    ringWindow slot capacity start (count + 1) =
      ringWindow slot capacity start count ++ [slot ((start + count) % capacity)] := by
  simp [ringWindow, List.range_succ]

/-- The start of a window may be reduced modulo the capacity. -/
theorem ringWindow_mod (slot : ℕ → Element) (capacity start count : ℕ) :
    ringWindow slot capacity (start % capacity) count = ringWindow slot capacity start count := by
  refine List.map_congr_left fun index _ ↦ ?_
  rw [Nat.mod_add_mod]

/-- The slot behind a window that does not fill the ring is none of the slots of the window. -/
theorem ringSlot_ne {capacity count index : ℕ} (start : ℕ) (hindex : index < count)
    (hroom : count < capacity) : (start + index) % capacity ≠ (start + count) % capacity := by
  intro hequal
  have hmod : index % capacity = count % capacity :=
    Nat.ModEq.add_left_cancel' start hequal
  rw [Nat.mod_eq_of_lt (hindex.trans hroom), Nat.mod_eq_of_lt hroom] at hmod
  omega

/-- Every slot of a ring is some way behind the start. -/
theorem ringSlot_offset (start : ℕ) {capacity index : ℕ} (hindex : index < capacity) :
    ∃ offset < capacity, index = (start + offset) % capacity := by
  refine ⟨(index + (capacity - start % capacity)) % capacity, Nat.mod_lt _ (by omega), ?_⟩
  have hstart := Nat.mod_lt start (show capacity > 0 by omega)
  have hsum : (start + (index + (capacity - start % capacity)) % capacity) % capacity =
      (start % capacity + (index + (capacity - start % capacity))) % capacity := by
    rw [Nat.add_mod_mod, Nat.mod_add_mod]
  rw [hsum, show start % capacity + (index + (capacity - start % capacity)) = index + capacity by
    omega, Nat.add_mod_right, Nat.mod_eq_of_lt hindex]

/-- Writing the slot behind a window that does not fill the ring appends the new element. -/
theorem ringWindow_append {new : ℕ → Element} (old : ℕ → Element) {capacity start count : ℕ}
    (hroom : count < capacity)
    (hother : ∀ position, position < capacity → position ≠ (start + count) % capacity →
      new position = old position) :
    ringWindow new capacity start (count + 1) =
      ringWindow old capacity start count ++ [new ((start + count) % capacity)] := by
  rw [ringWindow_succ_last]
  congr 1
  refine ringWindow_congr fun index hindex ↦ hother _ (Nat.mod_lt _ (by omega)) ?_
  exact ringSlot_ne start hindex hroom

/-! ### Windows of two rings -/

/-- One wrap reduces a position that is less than twice the size. -/
theorem mod_of_lt_add (position size : ℕ) (hposition : position < size + size) :
    position < size ∧ position % size = position ∨
      size ≤ position ∧ position % size = position - size := by
  rcases Nat.lt_or_ge position size with hlow | hhigh
  · exact .inl ⟨hlow, Nat.mod_eq_of_lt hlow⟩
  · refine .inr ⟨hhigh, ?_⟩
    rw [Nat.mod_eq_sub_mod hhigh, Nat.mod_eq_of_lt (by omega)]

/-- If the same number of larger elements leaves the same gap in a larger ring, there is no gap. -/
theorem full_of_gap_eq {count stride size stride' size' : ℕ} (hcount : 0 < count)
    (hstride : stride < stride') (hle' : count * 2 ^ stride' ≤ 2 ^ size')
    (hle : count * 2 ^ stride ≤ 2 ^ size)
    (hgap : 2 ^ size - count * 2 ^ stride = 2 ^ size' - count * 2 ^ stride') :
    count * 2 ^ stride = 2 ^ size := by
  obtain ⟨more, rfl⟩ := Nat.exists_eq_add_of_lt hstride
  have hlarger : count * 2 ^ (stride + more + 1) =
      count * 2 ^ stride * (2 ^ (more + 1) - 1) + count * 2 ^ stride := by
    rw [← Nat.mul_succ, Nat.succ_eq_add_one, Nat.sub_add_cancel Nat.one_le_two_pow,
      Nat.add_assoc, Nat.pow_add, Nat.mul_assoc]
  have hsize : size < size' := by
    refine (Nat.pow_lt_pow_iff_right (by decide : 1 < 2)).1 ?_
    have hpos : 0 < count * 2 ^ stride * (2 ^ (more + 1) - 1) := by
      refine Nat.mul_pos (Nat.mul_pos hcount (Nat.two_pow_pos _)) ?_
      have := Nat.one_lt_two_pow (n := more + 1) (by omega)
      omega
    omega
  obtain ⟨growth, rfl⟩ := Nat.exists_eq_add_of_lt hsize
  have hgrown : 2 ^ (size + growth + 1) = 2 ^ size * (2 ^ (growth + 1) - 1) + 2 ^ size := by
    rw [← Nat.mul_succ, Nat.succ_eq_add_one, Nat.sub_add_cancel Nat.one_le_two_pow,
      Nat.add_assoc, Nat.pow_add]
  have hequal : count * 2 ^ stride * (2 ^ (more + 1) - 1) =
      2 ^ size * (2 ^ (growth + 1) - 1) := by
    omega
  have hdvd : 2 ^ (more + 1) - 1 ∣ 2 ^ (growth + 1) - 1 := by
    have hcoprime : Nat.Coprime (2 ^ (more + 1) - 1) (2 ^ size) := by
      refine Nat.Coprime.pow_right _ (Nat.Coprime.symm (Nat.coprime_two_left.2 ?_))
      exact Nat.Even.sub_odd Nat.one_le_two_pow (by simp [Nat.even_pow]) odd_one
    exact hcoprime.dvd_of_dvd_mul_left (hequal ▸ Nat.dvd_mul_left _ _)
  have hmore : 0 < 2 ^ (more + 1) - 1 := by
    have := Nat.one_lt_two_pow (n := more + 1) (by omega)
    omega
  have hgrowth : 2 ^ (more + 1) - 1 ≤ 2 ^ (growth + 1) - 1 := by
    refine Nat.le_of_dvd ?_ hdvd
    have := Nat.one_lt_two_pow (n := growth + 1) (by omega)
    omega
  refine Nat.le_antisymm hle (Nat.le_of_mul_le_mul_right ?_ hmore)
  rw [hequal]
  exact Nat.mul_le_mul_left _ hgrowth

/-- When a window of the same number of elements from the same start ends at the same place in two
rings, whose sizes and element sizes are powers of two. -/
theorem same_end_iff {start count stride size stride' size' : ℕ} (hstart : start < 2 ^ size)
    (hstart' : start < 2 ^ size') (hle : count * 2 ^ stride ≤ 2 ^ size) :
    (count * 2 ^ stride' ≤ 2 ^ size' ∧
        (start + count * 2 ^ stride) % 2 ^ size = (start + count * 2 ^ stride') % 2 ^ size') ↔
      count = 0 ∨ (stride = stride' ∧ size = size') ∨
        (stride = stride' ∧ start + count * 2 ^ stride < 2 ^ size ∧
          start + count * 2 ^ stride' < 2 ^ size') ∨
        (count * 2 ^ stride = 2 ^ size ∧ count * 2 ^ stride' = 2 ^ size') := by
  constructor
  · rintro ⟨hle', hend⟩
    rcases Nat.eq_zero_or_pos count with hzero | hpos
    · exact .inl hzero
    have hbytes : 0 < count * 2 ^ stride := Nat.mul_pos hpos (Nat.two_pow_pos _)
    have hbytes' : 0 < count * 2 ^ stride' := Nat.mul_pos hpos (Nat.two_pow_pos _)
    rcases mod_of_lt_add (start + count * 2 ^ stride) (2 ^ size) (by omega) with
      ⟨hlow, hmod⟩ | ⟨hhigh, hmod⟩ <;>
    rcases mod_of_lt_add (start + count * 2 ^ stride') (2 ^ size') (by omega) with
      ⟨hlow', hmod'⟩ | ⟨hhigh', hmod'⟩ <;>
    rw [hmod, hmod'] at hend
    · have hsame : 2 ^ stride = 2 ^ stride' := Nat.eq_of_mul_eq_mul_left hpos (by omega)
      exact .inr (.inr (.inl ⟨Nat.pow_right_injective (Nat.le_refl 2) hsame, hlow, hlow'⟩))
    · omega
    · omega
    · have hgap : 2 ^ size - count * 2 ^ stride = 2 ^ size' - count * 2 ^ stride' := by omega
      rcases Nat.lt_trichotomy stride stride' with hless | rfl | hmore
      · have hfull := full_of_gap_eq hpos hless hle' hle hgap
        exact .inr (.inr (.inr ⟨hfull, by omega⟩))
      · have hsame : 2 ^ size = 2 ^ size' := by omega
        exact .inr (.inl ⟨rfl, Nat.pow_right_injective (Nat.le_refl 2) hsame⟩)
      · have hfull := full_of_gap_eq hpos hmore hle hle' hgap.symm
        exact .inr (.inr (.inr ⟨by omega, hfull⟩))
  · rintro (rfl | ⟨rfl, rfl⟩ | ⟨rfl, hlow, hlow'⟩ | ⟨hfull, hfull'⟩)
    · simp [Nat.mod_eq_of_lt hstart, Nat.mod_eq_of_lt hstart']
    · exact ⟨hle, rfl⟩
    · exact ⟨by omega, by rw [Nat.mod_eq_of_lt hlow, Nat.mod_eq_of_lt hlow']⟩
    · rw [hfull, hfull', Nat.add_mod_right, Nat.add_mod_right, Nat.mod_eq_of_lt hstart,
        Nat.mod_eq_of_lt hstart']
      exact ⟨Nat.le_refl _, rfl⟩
end Elua.Foundation
