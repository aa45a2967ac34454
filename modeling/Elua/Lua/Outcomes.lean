import Elua.Lua.TableNodes

/-!
# What calls come to

`Outcome.Meets` is partial correctness: a condition on what a call returns, and one on what it leaves
when it throws. `Outcome.Delivers` says that a call returns, with a condition on what. Both have a
rule for the next call.
-/

set_option autoImplicit false
set_option relaxedAutoImplicit false

namespace Elua.Lua.Tables

variable {State Value Result : Type*} {outcome : Outcome State Value}
  {rest : State → Value → Outcome State Result}

/-- What a call leaves when it returns, and when it throws. -/
def Outcome.Meets (returned : State → Value → Prop) (thrown : State → Prop) :
    Outcome State Value → Prop
  | .returns state value => returned state value
  | .throws state => thrown state
  | .stuck => True

theorem Outcome.Meets.andThen {returned : State → Value → Prop} {thrown : State → Prop}
    {after : State → Result → Prop} (hmeets : outcome.Meets returned thrown)
    (hrest : ∀ state value, returned state value → (rest state value).Meets after thrown) :
    (outcome.andThen rest).Meets after thrown := by
  rcases outcome with ⟨state, value⟩ | state | -
  · exact hrest state value hmeets
  · exact hmeets
  · exact trivial

theorem Outcome.Meets.imp {returned returned' : State → Value → Prop} {thrown thrown' : State → Prop}
    (hmeets : outcome.Meets returned thrown)
    (hreturned : ∀ state value, returned state value → returned' state value)
    (hthrown : ∀ state, thrown state → thrown' state) : outcome.Meets returned' thrown' := by
  rcases outcome with ⟨state, value⟩ | state | -
  · exact hreturned state value hmeets
  · exact hthrown state hmeets
  · exact trivial

/-- The call returns. -/
def Outcome.Delivers (returned : State → Value → Prop) (outcome : Outcome State Value) : Prop :=
  ∃ state value, outcome = .returns state value ∧ returned state value

theorem Outcome.Delivers.andThen {returned : State → Value → Prop} {after : State → Result → Prop}
    (hdelivers : outcome.Delivers returned)
    (hrest : ∀ state value, returned state value → (rest state value).Delivers after) :
    (outcome.andThen rest).Delivers after := by
  obtain ⟨state, value, rfl, hreturned⟩ := hdelivers
  exact hrest state value hreturned

theorem Outcome.Delivers.imp {returned returned' : State → Value → Prop}
    (hdelivers : outcome.Delivers returned)
    (hreturned : ∀ state value, returned state value → returned' state value) :
    outcome.Delivers returned' := by
  obtain ⟨state, value, rfl, hvalue⟩ := hdelivers
  exact ⟨state, value, rfl, hreturned state value hvalue⟩

end Elua.Lua.Tables
