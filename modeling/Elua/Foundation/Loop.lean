import Mathlib.Logic.Relation
import Mathlib.Tactic.Common

/-!
# Loops that may not end

The body of a loop takes a state and either has no result, or goes on from a next state, or leaves
the loop with a value. `runLoop body fuel state` runs at most `fuel` passes. More fuel never changes
a result (`runLoop_mono`), so a loop leaves with at most one value (`runLoop_unique`).
`Visits body` relates a state to those that passes start from when the loop runs from it, and
`Visits.rule` is the rule for an invariant of the loop.

`FuelMono run` says the same of a program with several loops that share their fuel: it is closed
under sequencing (`FuelMono.bind`) and loops (`FuelMono.loop`), such a program has one result
(`FuelMono.unique`), and it has a result when its parts have (`FuelMono.exists_bind`,
`exists_loop_of_continues`). -/

set_option autoImplicit false
set_option relaxedAutoImplicit false

namespace Elua.Foundation

variable {State Value : Type*}

/-- Runs a loop for at most `fuel` passes; `none` if it has not ended by then, or if a pass has no
result. -/
def runLoop (body : State → Option (State ⊕ Value)) : ℕ → State → Option Value
  | 0, _ => none
  | fuel + 1, state =>
    match body state with
    | none => none
    | some (.inr value) => some value
    | some (.inl next) => runLoop body fuel next

/-- A pass of the loop leads from one state to the next. -/
def Continues (body : State → Option (State ⊕ Value)) (state next : State) : Prop :=
  body state = some (.inl next)

/-- The states from which passes of the loop start. -/
def Visits (body : State → Option (State ⊕ Value)) : State → State → Prop :=
  Relation.ReflTransGen (Continues body)

variable {body : State → Option (State ⊕ Value)}

theorem runLoop_of_leaves {state : State} {value : Value} (hbody : body state = some (.inr value))
    (fuel : ℕ) : runLoop body (fuel + 1) state = some value := by
  rw [runLoop, hbody]

theorem runLoop_of_continues {state next : State} (hbody : Continues body state next)
    (fuel : ℕ) : runLoop body (fuel + 1) state = runLoop body fuel next := by
  rw [runLoop, hbody]

/-- More fuel keeps the result. -/
theorem runLoop_mono {state : State} {value : Value} {fuel more : ℕ} (hmore : fuel ≤ more)
    (hrun : runLoop body fuel state = some value) : runLoop body more state = some value := by
  induction fuel generalizing state more with
  | zero => cases hrun
  | succ fuel ih =>
    obtain ⟨extra, rfl⟩ := Nat.exists_eq_add_of_le hmore
    rw [Nat.add_right_comm]
    rw [runLoop] at hrun ⊢
    split at hrun
    · cases hrun
    · exact hrun
    · exact ih (by omega) hrun

/-- The value a loop leaves with does not depend on the fuel. -/
theorem runLoop_unique {state : State} {first second : Value} {fuel more : ℕ}
    (hfirst : runLoop body fuel state = some first)
    (hsecond : runLoop body more state = some second) : first = second := by
  have hjoin := runLoop_mono (Nat.le_max_left fuel more) hfirst
  rw [runLoop_mono (Nat.le_max_right fuel more) hsecond] at hjoin
  exact (Option.some.inj hjoin).symm

/-- A value comes from a pass that leaves the loop, which starts from a visited state. -/
theorem exists_leaves_of_runLoop {state : State} {value : Value} {fuel : ℕ}
    (hrun : runLoop body fuel state = some value) :
    ∃ last, Visits body state last ∧ body last = some (.inr value) := by
  induction fuel generalizing state with
  | zero => cases hrun
  | succ fuel ih =>
    rw [runLoop] at hrun
    split at hrun
    case h_1 => cases hrun
    case h_2 leaving hbody =>
      obtain rfl := Option.some.inj hrun
      exact ⟨state, .refl, hbody⟩
    case h_3 next hbody =>
      obtain ⟨last, hvisits, hlast⟩ := ih hrun
      exact ⟨last, .head hbody hvisits, hlast⟩

/-- A loop that leaves at once visits no other state. -/
theorem visits_of_leaves {state visited : State} {value : Value}
    (hbody : body state = some (.inr value)) : Visits body state visited ↔ visited = state := by
  refine ⟨fun hvisits ↦ ?_, fun heq ↦ heq ▸ .refl⟩
  obtain rfl | ⟨next, hnext, -⟩ := hvisits.cases_head
  · rfl
  · rw [Continues, hbody] at hnext
    cases hnext

/-- A loop that goes on visits its state and what the next state visits. -/
theorem visits_of_continues {state next visited : State} (hbody : Continues body state next) :
    Visits body state visited ↔ visited = state ∨ Visits body next visited := by
  constructor
  · intro hvisits
    obtain rfl | ⟨middle, hmiddle, hrest⟩ := hvisits.cases_head
    · exact .inl rfl
    · rw [Continues, hbody] at hmiddle
      obtain rfl : next = middle := by simpa using hmiddle
      exact .inr hrest
  · rintro (rfl | hvisits)
    · exact .refl
    · exact .head hbody hvisits

/-- What holds of the first state, and survives every pass, holds of every state visited. -/
theorem Visits.rule (holds : State → Prop) {state visited : State} (hstart : holds state)
    (hpass : ∀ first second, holds first → Continues body first second → holds second)
    (hvisits : Visits body state visited) : holds visited := by
  induction hvisits with
  | refl => exact hstart
  | tail _ hnext ih => exact hpass _ _ ih hnext

/-- A loop ends when every pass has a result, and makes a measure smaller if the loop goes on. -/
theorem exists_runLoop_of_measure (measure : State → ℕ)
    (hpass : ∀ state, (∃ value, body state = some (.inr value)) ∨
      ∃ next, Continues body state next ∧ measure next < measure state) (state : State) :
    ∃ fuel value, runLoop body fuel state = some value := by
  induction hmeasure : measure state using Nat.strongRecOn generalizing state with
  | _ bound ih =>
    rcases hpass state with ⟨value, hleaves⟩ | ⟨next, hnext, hless⟩
    · exact ⟨1, value, runLoop_of_leaves hleaves 0⟩
    · obtain ⟨fuel, value, hrun⟩ := ih (measure next) (hmeasure ▸ hless) next rfl
      exact ⟨fuel + 1, value, by rw [runLoop_of_continues hnext, hrun]⟩

/-- The rule for total correctness: an invariant that every pass keeps while it makes a measure
smaller, and that gives the condition on the value when a pass leaves. -/
theorem exists_runLoop_of_invariant (holds : State → Prop) (result : Value → Prop)
    (measure : State → ℕ)
    (hpass : ∀ state, holds state → (∃ value, body state = some (.inr value) ∧ result value) ∨
      ∃ next, body state = some (.inl next) ∧ holds next ∧ measure next < measure state)
    {state : State} (hstart : holds state) {fuel : ℕ} (hfuel : measure state < fuel) :
    ∃ value, runLoop body fuel state = some value ∧ result value := by
  induction fuel generalizing state with
  | zero => exact absurd hfuel (Nat.not_lt_zero _)
  | succ fuel ih =>
    rcases hpass state hstart with ⟨value, hleaves, hresult⟩ | ⟨next, hnext, hholds, hless⟩
    · exact ⟨value, runLoop_of_leaves hleaves fuel, hresult⟩
    · rw [runLoop_of_continues hnext]
      exact ih hholds (by omega)

/-- A body that has more results keeps the result of the loop. -/
theorem runLoop_mono_body {other : State → Option (State ⊕ Value)}
    (hbody : ∀ state result, body state = some result → other state = some result) {state : State}
    {value : Value} {fuel : ℕ} (hrun : runLoop body fuel state = some value) :
    runLoop other fuel state = some value := by
  induction fuel generalizing state with
  | zero => cases hrun
  | succ fuel ih =>
    rw [runLoop] at hrun
    split at hrun
    case h_1 => cases hrun
    case h_2 leaving hleaves =>
      rw [runLoop, hbody _ _ hleaves]
      exact hrun
    case h_3 next hnext =>
      rw [runLoop, hbody _ _ hnext]
      exact ih hrun

/-! ### Programs with fuel -/

section FuelMono

variable {Result : Type*} {run : ℕ → Option Value} {next : Value → ℕ → Option Result}

/-- More fuel keeps the result of a program. -/
def FuelMono (run : ℕ → Option Value) : Prop :=
  ∀ ⦃fuel more value⦄, fuel ≤ more → run fuel = some value → run more = some value

theorem fuelMono_const (result : Option Value) : FuelMono fun _ ↦ result := fun _ _ _ _ hrun ↦ hrun

theorem fuelMono_runLoop (body : State → Option (State ⊕ Value)) (state : State) :
    FuelMono (runLoop body · state) :=
  fun _ _ _ hmore hrun ↦ runLoop_mono hmore hrun

theorem FuelMono.bind (hrun : FuelMono run) (hnext : ∀ value, FuelMono (next value)) :
    FuelMono fun fuel ↦ (run fuel).bind (next · fuel) := by
  intro fuel more result hmore hresult
  obtain ⟨value, hvalue, hresult⟩ := Option.bind_eq_some_iff.mp hresult
  exact Option.bind_eq_some_iff.mpr ⟨value, hrun hmore hvalue, hnext value hmore hresult⟩

theorem FuelMono.map (hrun : FuelMono run) (convert : Value → Result) :
    FuelMono fun fuel ↦ (run fuel).map convert := by
  intro fuel more result hmore hresult
  obtain ⟨value, hvalue, rfl⟩ := Option.map_eq_some_iff.mp hresult
  exact Option.map_eq_some_iff.mpr ⟨value, hrun hmore hvalue, rfl⟩

theorem FuelMono.ite {first second : ℕ → Option Value} (condition : Prop) [Decidable condition]
    (hfirst : FuelMono first) (hsecond : FuelMono second) :
    FuelMono fun fuel ↦ if condition then first fuel else second fuel := by
  by_cases hcondition : condition
  · simpa only [if_pos hcondition] using hfirst
  · simpa only [if_neg hcondition] using hsecond

/-- The result does not depend on the fuel. -/
theorem FuelMono.unique (hrun : FuelMono run) {first second : Value} {fuel more : ℕ}
    (hfirst : run fuel = some first) (hsecond : run more = some second) : first = second := by
  have hjoin := hrun (Nat.le_max_left fuel more) hfirst
  rw [hrun (Nat.le_max_right fuel more) hsecond] at hjoin
  exact (Option.some.inj hjoin).symm

/-- A sequence has a result when its parts have. -/
theorem FuelMono.exists_bind (hrun : FuelMono run) {value : Value} {result : Result}
    (hnext : FuelMono (next value)) (hvalue : ∃ fuel, run fuel = some value)
    (hresult : ∃ fuel, next value fuel = some result) :
    ∃ fuel, (run fuel).bind (next · fuel) = some result := by
  obtain ⟨fuel, hvalue⟩ := hvalue
  obtain ⟨more, hresult⟩ := hresult
  exact ⟨max fuel more, Option.bind_eq_some_iff.mpr
    ⟨value, hrun (Nat.le_max_left _ _) hvalue, hnext (Nat.le_max_right _ _) hresult⟩⟩

/-- A loop whose body also takes fuel. -/
theorem FuelMono.loop {body : ℕ → State → Option (State ⊕ Value)}
    (hbody : ∀ state, FuelMono (body · state)) (state : State) :
    FuelMono fun fuel ↦ runLoop (body fuel) fuel state :=
  fun _ _ _ hmore hrun ↦
    runLoop_mono hmore (runLoop_mono_body (fun state _ hresult ↦ hbody state hmore hresult) hrun)

/-- Such a loop ends when its first pass leaves it. -/
theorem exists_loop_of_leaves {body : ℕ → State → Option (State ⊕ Value)} {state : State}
    {value : Value} (hbody : ∀ state, FuelMono (body · state))
    (hleaves : ∃ fuel, body fuel state = some (.inr value)) :
    ∃ fuel, runLoop (body fuel) fuel state = some value := by
  obtain ⟨fuel, hleaves⟩ := hleaves
  exact ⟨fuel + 1, runLoop_of_leaves (hbody state (Nat.le_succ fuel) hleaves) fuel⟩

/-- Such a loop ends when it does from the state that its first pass leads to. -/
theorem exists_loop_of_continues {body : ℕ → State → Option (State ⊕ Value)} {state next : State}
    {value : Value} (hbody : ∀ state, FuelMono (body · state))
    (hnext : ∃ fuel, body fuel state = some (.inl next))
    (hrest : ∃ fuel, runLoop (body fuel) fuel next = some value) :
    ∃ fuel, runLoop (body fuel) fuel state = some value := by
  obtain ⟨first, hnext⟩ := hnext
  obtain ⟨second, hrest⟩ := hrest
  have hgoes : Continues (body (max first second + 1)) state next :=
    hbody state (by omega) hnext
  refine ⟨max first second + 1, ?_⟩
  rw [runLoop_of_continues hgoes]
  refine runLoop_mono (Nat.le_max_right first second) ?_
  exact runLoop_mono_body (fun state _ hresult ↦ hbody state (by omega) hresult) hrest

end FuelMono

end Elua.Foundation
