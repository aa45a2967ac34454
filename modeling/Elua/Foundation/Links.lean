import Mathlib.Data.List.Perm.Subperm
import Mathlib.Data.List.Range
import Mathlib.Logic.Equiv.Basic
import Mathlib.Logic.Relation
import Mathlib.Tactic.Common

/-!
# Chains of links

A vector whose elements have links to other elements holds a number of chains at once. `Reaches
next` is the relation of an index to those that its chain comes to, and `Chained next` says that no
two links lead to one index and that every chain ends. So the chain from an index is a list without
repetitions, which is at most as long as the vector (`mem_chainFrom_iff`).

There are two changes that keep a vector chained. An index without links is put behind another one
(`link`), and two indices change their places (`exchange`). Both keep what is reached from where, up
to the exchange (`Reaches.link`, `Reaches.exchange`).
-/

set_option autoImplicit false
set_option relaxedAutoImplicit false

namespace Elua.Foundation.Links

variable {Index : Type*} {next : Index → Option Index} {a b c n : Index}

/-! ### Chains -/

/-- The chain from an index comes to another one. -/
def Reaches (next : Index → Option Index) : Index → Index → Prop :=
  Relation.ReflTransGen fun a b ↦ next a = some b

/-- No two links lead to one index, and following links comes to an end. -/
structure Chained (next : Index → Option Index) : Prop where
  injective : ∀ {a b c}, next a = some c → next b = some c → a = b
  ends : ∃ rank : Index → ℕ, ∀ a b, next a = some b → rank b < rank a

/-- No link leads from the index or to it. -/
structure Isolated (next : Index → Option Index) (a : Index) : Prop where
  next_eq : next a = none
  ne_some : ∀ b, next b ≠ some a

theorem Reaches.refl (a : Index) : Reaches next a a := Relation.ReflTransGen.refl

theorem Reaches.tail (hreach : Reaches next a b) (hnext : next b = some c) : Reaches next a c :=
  Relation.ReflTransGen.tail hreach hnext

theorem Reaches.head (hnext : next a = some b) (hreach : Reaches next b c) : Reaches next a c :=
  Relation.ReflTransGen.head hnext hreach

theorem reaches_iff : Reaches next a c ↔ a = c ∨ ∃ b, next a = some b ∧ Reaches next b c :=
  Relation.ReflTransGen.cases_head_iff

/-- The last step of a chain. -/
theorem Reaches.exists_prev (hreach : Reaches next a c) (hne : a ≠ c) :
    ∃ b, Reaches next a b ∧ next b = some c := by
  rcases Relation.ReflTransGen.cases_tail hreach with rfl | ⟨b, hb, hlast⟩
  · exact absurd rfl hne
  · exact ⟨b, hb, hlast⟩

/-- What holds of the first index, and passes along links, holds of what is reached. -/
theorem Reaches.rule (hreach : Reaches next a b) (holds : Index → Prop) (hstart : holds a)
    (hpass : ∀ c d, holds c → next c = some d → holds d) : holds b := by
  induction hreach with
  | refl => exact hstart
  | tail _ hnext ih => exact hpass _ _ ih hnext

theorem Isolated.eq_of_reaches (hisolated : Isolated next a) (hreach : Reaches next a b) :
    a = b := by
  rcases reaches_iff.1 hreach with heq | ⟨c, hnext, -⟩
  · exact heq
  · rw [hisolated.next_eq] at hnext
    cases hnext

/-- The indices that the chain from an index comes to. -/
def chainFrom (next : Index → Option Index) : ℕ → Index → List Index
  | 0, _ => []
  | fuel + 1, a =>
    a :: match next a with
      | none => []
      | some b => chainFrom next fuel b

theorem exists_chain {rank : Index → ℕ} (hrank : ∀ a b, next a = some b → rank b < rank a)
    (a : Index) :
    ∃ indices : List Index, indices.Pairwise (fun b c ↦ rank c < rank b) ∧
      (∀ b, Reaches next a b ↔ b ∈ indices) ∧
      ∀ fuel, indices.length ≤ fuel → chainFrom next fuel a = indices := by
  induction hbound : rank a using Nat.strongRecOn generalizing a with
  | _ bound ih =>
    rcases hnext : next a with - | b
    · refine ⟨[a], List.pairwise_singleton .., fun c ↦ ?_, fun fuel hfuel ↦ ?_⟩
      · rw [reaches_iff, hnext, List.mem_singleton]
        simp [eq_comm]
      · obtain ⟨fuel, rfl⟩ := Nat.exists_eq_add_of_le' hfuel
        simp only [List.length_singleton, chainFrom, hnext]
    · obtain ⟨indices, hpairwise, hmem, hchain⟩ := ih (rank b) (hbound ▸ hrank a b hnext) b rfl
      have hless : ∀ c ∈ indices, rank c < rank a := by
        intro c hc
        have hreach := (hmem c).2 hc
        refine hreach.rule (rank · < rank a) (hrank a b hnext) fun d e hd hde ↦ ?_
        exact Nat.lt_trans (hrank d e hde) hd
      refine ⟨a :: indices, List.pairwise_cons.2 ⟨hless, hpairwise⟩, fun c ↦ ?_,
        fun fuel hfuel ↦ ?_⟩
      · rw [reaches_iff, hnext, List.mem_cons, ← hmem]
        simp [eq_comm]
      · rw [List.length_cons] at hfuel
        obtain ⟨fuel, rfl⟩ := Nat.exists_eq_add_of_le' (Nat.le_of_add_left_le hfuel)
        simp only [chainFrom, hnext, hchain fuel (by omega)]

/-- In a vector, the chain from an index is not longer than the vector. -/
theorem Chained.mem_chainFrom_iff {next : ℕ → Option ℕ} (hchained : Chained next) {size a b : ℕ}
    (ha : a < size) (hbound : ∀ a b, next a = some b → b < size) :
    b ∈ chainFrom next size a ↔ Reaches next a b := by
  obtain ⟨rank, hrank⟩ := hchained.ends
  obtain ⟨indices, hpairwise, hmem, hchain⟩ := exists_chain hrank a
  have hnodup : indices.Nodup := hpairwise.imp fun hless heq ↦ by
    rw [heq] at hless
    exact Nat.lt_irrefl _ hless
  have hsubset : indices ⊆ List.range size := by
    intro c hc
    rw [List.mem_range]
    have hreach := (hmem c).2 hc
    exact hreach.rule (· < size) ha fun d e _ hde ↦ hbound d e hde
  have hlength := (List.Nodup.subperm hnodup hsubset).length_le
  rw [List.length_range] at hlength
  rw [hchain size hlength, hmem]

/-! ### Putting an index behind another one -/

section Link

variable [DecidableEq Index]

/-- Puts an index behind another one. -/
def link (next : Index → Option Index) (a n : Index) : Index → Option Index :=
  fun x ↦ if x = a then some n else if x = n then next a else next x

theorem Reaches.link (hreach : Reaches next b c) (hisolated : Isolated next n) (hne : n ≠ a) :
    Reaches (link next a n) b c := by
  induction hreach with
  | refl => exact .refl b
  | @tail d e _ hnext ih =>
    by_cases hd : d = a
    · subst hd
      have hfirst : Links.link next d n d = some n := if_pos rfl
      have hsecond : Links.link next d n n = some e := by
        rw [Links.link, if_neg hne, if_pos rfl, hnext]
      exact (ih.tail hfirst).tail hsecond
    · refine ih.tail ?_
      have hdn : d ≠ n := by
        rintro rfl
        rw [hisolated.next_eq] at hnext
        cases hnext
      rw [Links.link, if_neg hd, if_neg hdn, hnext]

theorem Chained.link (hchained : Chained next) (hisolated : Isolated next n) (hne : n ≠ a) :
    Chained (link next a n) := by
  constructor
  · intro x y z hx hy
    simp only [Links.link] at hx hy
    split_ifs at hx hy with hxa hya hyn hxn hya hyn hya hyn
    all_goals first
      | exact hxa.trans hya.symm
      | exact hxn.trans hyn.symm
      | skip
    · obtain rfl := Option.some.inj hx
      exact absurd hy (hisolated.ne_some a)
    · obtain rfl := Option.some.inj hx
      exact absurd hy (hisolated.ne_some y)
    · obtain rfl := Option.some.inj hy
      exact absurd hx (hisolated.ne_some a)
    · exact absurd (hchained.injective hy hx) hya
    · obtain rfl := Option.some.inj hy
      exact absurd hx (hisolated.ne_some x)
    · exact absurd (hchained.injective hx hy) hxa
    · exact hchained.injective hx hy
  · obtain ⟨rank, hrank⟩ := hchained.ends
    refine ⟨fun x ↦ if x = n then 2 * rank a else 2 * rank x + 1, fun x y hxy ↦ ?_⟩
    simp only [Links.link] at hxy
    dsimp only
    split_ifs at hxy with hxa hxn
    · obtain rfl := Option.some.inj hxy
      subst hxa
      rw [if_pos rfl, if_neg (Ne.symm hne)]
      omega
    · have hyn : y ≠ n := fun heq ↦ hisolated.ne_some a (heq ▸ hxy)
      have hless := hrank a y hxy
      rw [if_neg hyn, if_pos hxn]
      omega
    · have hyn : y ≠ n := fun heq ↦ hisolated.ne_some x (heq ▸ hxy)
      have hless := hrank x y hxy
      rw [if_neg hyn, if_neg hxn]
      omega

end Link

/-! ### Exchanging two indices -/

section Exchange

variable [DecidableEq Index] {i j : Index}

/-- The links when two indices have changed their places. -/
def exchange (next : Index → Option Index) (i j : Index) : Index → Option Index :=
  fun x ↦ (next (Equiv.swap i j x)).map (Equiv.swap i j)

theorem exchange_eq_some (hnext : next a = some b) :
    exchange next i j (Equiv.swap i j a) = some (Equiv.swap i j b) := by
  rw [exchange, Equiv.swap_apply_self, hnext]
  rfl

theorem of_exchange_eq_some (hnext : exchange next i j a = some b) :
    next (Equiv.swap i j a) = some (Equiv.swap i j b) := by
  obtain ⟨c, hc, rfl⟩ := Option.map_eq_some_iff.1 hnext
  rw [hc, Equiv.swap_apply_self]

theorem Reaches.exchange (hreach : Reaches next a b) :
    Reaches (exchange next i j) (Equiv.swap i j a) (Equiv.swap i j b) := by
  induction hreach with
  | refl => exact .refl _
  | tail _ hnext ih => exact ih.tail (exchange_eq_some hnext)

theorem Chained.exchange (hchained : Chained next) : Chained (exchange next i j) := by
  constructor
  · intro x y z hx hy
    exact (Equiv.swap i j).injective
      (hchained.injective (of_exchange_eq_some hx) (of_exchange_eq_some hy))
  · obtain ⟨rank, hrank⟩ := hchained.ends
    exact ⟨rank ∘ Equiv.swap i j, fun x y hxy ↦ hrank _ _ (of_exchange_eq_some hxy)⟩

theorem Isolated.exchange (hisolated : Isolated next a) :
    Isolated (exchange next i j) (Equiv.swap i j a) := by
  constructor
  · rw [Links.exchange, Equiv.swap_apply_self, hisolated.next_eq]
    rfl
  · intro b hb
    have hbefore := of_exchange_eq_some hb
    rw [Equiv.swap_apply_self] at hbefore
    exact hisolated.ne_some _ hbefore

end Exchange

end Elua.Foundation.Links
