import Mathlib.Data.List.FinRange
import Mathlib.Logic.Function.Basic
import Mathlib.Tactic.Common

/-!
# Slots that are taken and given back

A table has `n` slots, and `free` tells of each whether it is free. `firstFree` is the slot that a
search from the start finds. Beside the table stands the list of the slots that have been handed out
and not been given back; `Tracks` says that these are the ones that are not free, each once. Handing
out the first free slot and taking one back keep this (`Tracks.take`, `Tracks.giveBack`), and there
is a free slot as long as fewer than `n` are out (`Tracks.exists_firstFree`). -/

set_option autoImplicit false
set_option relaxedAutoImplicit false

namespace Elua.Foundation

variable {n : ℕ}

/-- The first slot that is free. -/
def firstFree (free : Fin n → Bool) : Option (Fin n) := (List.finRange n).find? free

/-- The slots that are not free. -/
def occupied (free : Fin n → Bool) : List (Fin n) := (List.finRange n).filter fun slot ↦ !free slot

variable {free : Fin n → Bool} {out : List (Fin n)} {slot : Fin n}

theorem free_of_firstFree (hfirst : firstFree free = some slot) : free slot = true :=
  List.find?_some hfirst

theorem mem_occupied : slot ∈ occupied free ↔ free slot = false := by
  unfold occupied
  rw [List.mem_filter, and_iff_right (List.mem_finRange slot), Bool.not_eq_true']

theorem nodup_occupied (free : Fin n → Bool) : (occupied free).Nodup :=
  (List.nodup_finRange n).filter _

/-- The slots that are out are those that are not free. -/
structure Tracks (free : Fin n → Bool) (out : List (Fin n)) : Prop where
  nodup : out.Nodup
  mem_iff : ∀ slot, slot ∈ out ↔ free slot = false

theorem Tracks.perm_occupied (htracks : Tracks free out) : out.Perm (occupied free) :=
  (List.perm_ext_iff_of_nodup htracks.nodup (nodup_occupied free)).2 fun slot ↦
    (htracks.mem_iff slot).trans mem_occupied.symm

/-- As many slots are out as are not free. -/
theorem Tracks.length_eq (htracks : Tracks free out) : out.length = (occupied free).length :=
  htracks.perm_occupied.length_eq

/-- A search fails only if all slots are out. -/
theorem Tracks.exists_firstFree (htracks : Tracks free out) (hroom : out.length < n) :
    ∃ slot, firstFree free = some slot := by
  cases hfirst : firstFree free with
  | some slot => exact ⟨slot, rfl⟩
  | none =>
    have hall : ∀ slot ∈ List.finRange n, (!free slot) = true := by
      intro slot hmem
      rw [Bool.not_eq_true']
      exact Bool.eq_false_of_not_eq_true (List.find?_eq_none.mp hfirst slot hmem)
    have hlength := htracks.length_eq
    unfold occupied at hlength
    rw [List.filter_eq_self.mpr hall, List.length_finRange] at hlength
    omega

theorem Tracks.length_le (htracks : Tracks free out) : out.length ≤ n := by
  rw [htracks.length_eq]
  exact (List.length_filter_le _ _).trans_eq (List.length_finRange)

/-- A free slot is handed out. -/
theorem Tracks.take (htracks : Tracks free out) (hfree : free slot = true) :
    Tracks (Function.update free slot false) (out ++ [slot]) where
  nodup := by
    have hnew : slot ∉ out := by
      rw [htracks.mem_iff, hfree]
      exact Bool.noConfusion
    exact List.nodup_append.mpr ⟨htracks.nodup, List.nodup_singleton slot, fun other hother last
      hlast heq ↦ hnew (List.eq_of_mem_singleton hlast ▸ heq ▸ hother)⟩
  mem_iff other := by
    rw [List.mem_append, List.mem_singleton, htracks.mem_iff]
    by_cases hsame : other = slot
    · rw [hsame, Function.update_self]
      exact iff_of_true (.inr rfl) rfl
    · rw [Function.update_of_ne hsame]
      exact or_iff_left hsame

/-- A slot that is out is given back. -/
theorem Tracks.giveBack (htracks : Tracks free out) :
    Tracks (Function.update free slot true) (out.erase slot) where
  nodup := htracks.nodup.erase slot
  mem_iff other := by
    rw [htracks.nodup.mem_erase_iff, htracks.mem_iff]
    by_cases hsame : other = slot
    · rw [hsame, Function.update_self]
      exact iff_of_false (fun hmem ↦ hmem.1 rfl) Bool.noConfusion
    · rw [Function.update_of_ne hsame]
      exact and_iff_right hsame

end Elua.Foundation
