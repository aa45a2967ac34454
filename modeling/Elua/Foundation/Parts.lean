import Mathlib.Data.List.Basic
import Mathlib.Order.Nat
import Mathlib.Tactic.Common

/-!
# Transfers in parts

A transfer of many items is made in parts of at most some size. It goes on while parts are
transferred whole, and ends with the first one that is short or fails. What a part does depends on a
state, and a `Part` says what is transferred of it.

Items that come from a source one after the other are a beginning of it (`transfer_prefix_source`),
those that are taken from given data are a beginning of the data (`transfer_prefix_data`), and from
a source that gives all it has the parts give what one transfer gives (`transfer_eq_take`). -/

set_option autoImplicit false
set_option relaxedAutoImplicit false

namespace Elua.Foundation

variable {State α : Type}

/-- What is transferred of a part, from a state, at an offset and of a size, or a failure. -/
abbrev Part (State α : Type) : Type := State → ℕ → ℕ → Option (List α) × State

namespace Part

variable (part : Part State α) (most : ℕ)

/-- A transfer in parts of at most `most` items. -/
def transfer (len offset : ℕ) (state : State) : List α × State :=
  if min most len = 0 then ([], state)
  else
    match part state offset (min most len) with
    | (none, state) => ([], state)
    | (some items, state) =>
      if items.length < min most len then (items, state)
      else
        let (more, last) := transfer (len - min most len) (offset + min most len) state
        (items ++ more, last)
termination_by len

/-- The first part fails. -/
def Fails (len : ℕ) (state : State) : Prop :=
  min most len ≠ 0 ∧ (part state 0 (min most len)).1 = none

/-- No part gives more than was asked for. -/
def Bounded : Prop :=
  ∀ state offset size items after, part state offset size = (some items, after) →
    items.length ≤ size

/-- What a transfer is: nothing, a short part, or a whole part and the transfer of the rest. -/
theorem transfer_induction {motive : ℕ → ℕ → State → List α × State → Prop}
    (hnothing : ∀ len offset state, min most len = 0 → motive len offset state ([], state))
    (hfails : ∀ len offset state after, min most len ≠ 0 →
      part state offset (min most len) = (none, after) → motive len offset state ([], after))
    (hshort : ∀ len offset state items after, min most len ≠ 0 →
      part state offset (min most len) = (some items, after) → items.length < min most len →
        motive len offset state (items, after))
    (hwhole : ∀ len offset state items after more last, min most len ≠ 0 →
      part state offset (min most len) = (some items, after) → min most len ≤ items.length →
        motive (len - min most len) (offset + min most len) after (more, last) →
          motive len offset state (items ++ more, last))
    (len offset : ℕ) (state : State) :
    motive len offset state (part.transfer most len offset state) := by
  induction len using Nat.strongRecOn generalizing offset state with
  | _ len ih =>
    rw [transfer]
    by_cases hsize : min most len = 0
    · rw [if_pos hsize]
      exact hnothing len offset state hsize
    rw [if_neg hsize]
    cases hpart : part state offset (min most len) with
    | mk found after =>
      cases found with
      | none => exact hfails len offset state after hsize hpart
      | some items =>
        dsimp only
        by_cases hlength : items.length < min most len
        · rw [if_pos hlength]
          exact hshort len offset state items after hsize hpart hlength
        · rw [if_neg hlength]
          exact hwhole len offset state items after _ _ hsize hpart (Nat.le_of_not_lt hlength)
            (ih _ (by omega) _ after)

variable {part most}

/-- If the first part fails, nothing is transferred. -/
theorem transfer_of_fails {len : ℕ} {state : State} (hfails : part.Fails most len state) :
    (part.transfer most len 0 state).1 = [] := by
  obtain ⟨hsize, hnone⟩ := hfails
  rw [transfer, if_neg hsize]
  cases hpart : part state 0 (min most len) with
  | mk found after =>
    rw [hpart] at hnone
    obtain rfl : found = none := hnone
    rfl

/-- What comes from a source one after the other is a beginning of the source. -/
theorem transfer_prefix_source {rest : State → List α}
    (hsource : ∀ state offset size items after, part state offset size = (some items, after) →
      items <+: rest state ∧ rest after = (rest state).drop items.length)
    (len offset : ℕ) (state : State) : (part.transfer most len offset state).1 <+: rest state := by
  refine transfer_induction part most
    (motive := fun _ _ state result ↦ result.1 <+: rest state) ?_ ?_ ?_ ?_ len offset state
  · intro _ _ state _
    exact List.nil_prefix
  · intro _ _ state _ _ _
    exact List.nil_prefix
  · intro _ _ _ _ _ _ hpart _
    exact (hsource _ _ _ _ _ hpart).1
  · intro _ _ state items after more last _ hpart _ hmore
    obtain ⟨hitems, hrest⟩ := hsource _ _ _ _ _ hpart
    obtain ⟨left, hleft⟩ := hitems
    change more <+: rest after at hmore
    rw [hrest, ← hleft, List.drop_left] at hmore
    rw [← hleft]
    exact (List.prefix_append_right_inj items).2 hmore

/-- What is taken from given data is a beginning of the data. -/
theorem transfer_prefix_data {data : List α}
    (hdata : ∀ state offset size items after, part state offset size = (some items, after) →
      items <+: (data.drop offset).take size)
    (len offset : ℕ) (state : State) :
    (part.transfer most len offset state).1 <+: data.drop offset := by
  refine transfer_induction part most
    (motive := fun _ offset _ result ↦ result.1 <+: data.drop offset) ?_ ?_ ?_ ?_ len offset state
  · intro _ _ _ _
    exact List.nil_prefix
  · intro _ _ _ _ _ _
    exact List.nil_prefix
  · intro _ _ _ _ _ _ hpart _
    exact (hdata _ _ _ _ _ hpart).trans (List.take_prefix _ _)
  · intro len offset state items after more last _ hpart hwhole hmore
    have hitems := hdata _ _ _ _ _ hpart
    have hlength := hitems.length_le
    have hall : items = (data.drop offset).take (min most len) :=
      hitems.eq_of_length (by rw [List.length_take] at hlength ⊢; omega)
    change more <+: data.drop (offset + min most len) at hmore
    rw [← List.drop_drop] at hmore
    obtain ⟨left, hleft⟩ := hmore
    refine ⟨left, ?_⟩
    rw [hall, List.append_assoc, hleft, List.take_append_drop]

/-- From a source that gives all it has, the parts give what one transfer gives. -/
theorem transfer_eq_take (hmost : 0 < most) {rest : State → List α}
    (hsource : ∀ state offset size, ∃ after,
      part state offset size = (some ((rest state).take size), after) ∧
        rest after = (rest state).drop size)
    (len offset : ℕ) (state : State) :
    (part.transfer most len offset state).1 = (rest state).take len := by
  refine transfer_induction part most
    (motive := fun len _ state result ↦ result.1 = (rest state).take len) ?_ ?_ ?_ ?_ len offset
    state
  · intro len _ state hsize
    obtain rfl : len = 0 := by omega
    rw [List.take_zero]
  · intro len offset state after _ hpart
    obtain ⟨_, hgives, -⟩ := hsource state offset (min most len)
    cases hpart.symm.trans hgives
  · intro len offset state items after _ hpart hlength
    obtain ⟨_, hgives, -⟩ := hsource state offset (min most len)
    obtain rfl : items = _ := Option.some.inj (Prod.mk.inj (hpart.symm.trans hgives)).1
    rw [List.length_take] at hlength
    change (rest state).take (min most len) = _
    rw [List.take_of_length_le (by omega), List.take_of_length_le (by omega)]
  · intro len offset state items after more last _ hpart _ hmore
    obtain ⟨next, hgives, hrest⟩ := hsource state offset (min most len)
    obtain ⟨hitems, rfl⟩ := Prod.mk.inj (hpart.symm.trans hgives)
    obtain rfl : items = _ := Option.some.inj hitems
    change more = (rest after).take _ at hmore
    change _ ++ more = _
    rw [hmore, hrest, ← List.take_add, Nat.add_sub_cancel' (Nat.min_le_right _ _)]

end Part

end Elua.Foundation
