import Mathlib.Data.Set.Function
import Mathlib.Logic.Equiv.Basic
import Mathlib.Tactic.Common

/-!
# Rearranging the elements of a part of a sequence

`Rearranges s a b` says that the sequence `b` has the elements of `a`, of which those at the indices
in `s` may have changed places. Rearrangements compose, and exchanging two elements is one
(`rearranges_exchange`). What holds of all elements of the part holds of them afterwards
(`Rearranges.forall_mem`).
-/

set_option autoImplicit false
set_option relaxedAutoImplicit false

namespace Elua.Foundation

variable {ι α : Type*} {s s' : Set ι} {a b c : ι → α}

/-- The elements at some indices change places. -/
def Rearranges (s : Set ι) (a b : ι → α) : Prop :=
  ∃ σ : Equiv.Perm ι, (∀ k, k ∉ s → σ k = k) ∧ b = a ∘ σ

theorem Rearranges.refl (s : Set ι) (a : ι → α) : Rearranges s a a :=
  ⟨Equiv.refl ι, fun _ _ ↦ rfl, rfl⟩

theorem Rearranges.trans (hfirst : Rearranges s a b) (hsecond : Rearranges s b c) :
    Rearranges s a c := by
  obtain ⟨σ, hσ, rfl⟩ := hfirst
  obtain ⟨τ, hτ, rfl⟩ := hsecond
  refine ⟨τ.trans σ, fun k hk ↦ ?_, rfl⟩
  rw [Equiv.trans_apply, hτ k hk, hσ k hk]

theorem Rearranges.mono (hrearranges : Rearranges s a b) (hsubset : s ⊆ s') : Rearranges s' a b := by
  obtain ⟨σ, hσ, rfl⟩ := hrearranges
  exact ⟨σ, fun k hk ↦ hσ k fun hmem ↦ hk (hsubset hmem), rfl⟩

theorem Rearranges.eq_of_notMem (hrearranges : Rearranges s a b) {k : ι} (hk : k ∉ s) :
    b k = a k := by
  obtain ⟨σ, hσ, rfl⟩ := hrearranges
  rw [Function.comp_apply, hσ k hk]

theorem Rearranges.exists_of_mem (hrearranges : Rearranges s a b) {k : ι} (hk : k ∈ s) :
    ∃ j ∈ s, b k = a j := by
  obtain ⟨σ, hσ, rfl⟩ := hrearranges
  refine ⟨σ k, ?_, rfl⟩
  by_contra hout
  have hfixed : σ k = k := σ.injective (hσ (σ k) hout)
  exact hout (hfixed.symm ▸ hk)

/-- What holds of all elements of the part still does. -/
theorem Rearranges.forall_mem (hrearranges : Rearranges s a b) {holds : α → Prop}
    (hholds : ∀ k ∈ s, holds (a k)) : ∀ k ∈ s, holds (b k) := by
  intro k hk
  obtain ⟨j, hj, heq⟩ := hrearranges.exists_of_mem hk
  exact heq ▸ hholds j hj

section Exchange

variable [DecidableEq ι] {i j : ι}

/-- Two elements change places. -/
def exchange (a : ι → α) (i j : ι) : ι → α := Function.update (Function.update a i (a j)) j (a i)

theorem exchange_eq (a : ι → α) (i j : ι) : exchange a i j = a ∘ Equiv.swap i j := by
  funext k
  rw [exchange, Function.comp_apply]
  by_cases hj : k = j
  · rw [hj, Function.update_self, Equiv.swap_apply_right]
  · rw [Function.update_of_ne hj]
    by_cases hi : k = i
    · rw [hi, Function.update_self, Equiv.swap_apply_left]
    · rw [Function.update_of_ne hi, Equiv.swap_apply_of_ne_of_ne hi hj]

theorem exchange_left (a : ι → α) (i j : ι) : exchange a i j i = a j := by
  rw [exchange_eq, Function.comp_apply, Equiv.swap_apply_left]

theorem exchange_right (a : ι → α) (i j : ι) : exchange a i j j = a i := Function.update_self ..

theorem exchange_of_ne (a : ι → α) {k : ι} (hi : k ≠ i) (hj : k ≠ j) : exchange a i j k = a k := by
  rw [exchange, Function.update_of_ne hj, Function.update_of_ne hi]

theorem rearranges_exchange (a : ι → α) (hi : i ∈ s) (hj : j ∈ s) :
    Rearranges s a (exchange a i j) := by
  refine ⟨Equiv.swap i j, fun k hk ↦ ?_, exchange_eq a i j⟩
  exact Equiv.swap_apply_of_ne_of_ne (fun heq ↦ hk (heq ▸ hi)) fun heq ↦ hk (heq ▸ hj)

end Exchange

end Elua.Foundation
