import Mathlib.Data.List.Basic
import Mathlib.Data.List.Forall2

/-!
# Transducers, and decoding what another transducer encoded

A transducer reads symbols one at a time and answers each with a list of outputs. `runTransducer`
feeds it a list of symbols and collects the outputs. `forall₂_decode_encode` is the simulation
rule for an encoder followed by a decoder: if from related states the decoder answers the encoding
of one symbol as wanted and the states are related again, then it answers the encoding of every
list of symbols so, symbol by symbol. `decode_encode` is the case in which the wanted answer is a
function of the symbol.
-/

set_option autoImplicit false
set_option relaxedAutoImplicit false

namespace Elua.Foundation

variable {State Other Symbol Code Output : Type*}

/-- Feeds a list of symbols to a transducer and collects the outputs. -/
def runTransducer (step : State → Symbol → State × List Output) :
    State → List Symbol → State × List Output
  | state, [] => (state, [])
  | state, symbol :: symbols =>
    let first := step state symbol
    let rest := runTransducer step first.1 symbols
    (rest.1, first.2 ++ rest.2)

@[simp] theorem runTransducer_nil (step : State → Symbol → State × List Output) (state : State) :
    runTransducer step state [] = (state, []) := rfl

theorem runTransducer_cons (step : State → Symbol → State × List Output) (state : State)
    (symbol : Symbol) (symbols : List Symbol) :
    runTransducer step state (symbol :: symbols) =
      ((runTransducer step (step state symbol).1 symbols).1,
        (step state symbol).2 ++ (runTransducer step (step state symbol).1 symbols).2) := rfl

/-- One more symbol in front, when the answer to it is known. -/
theorem runTransducer_cons_of {step : State → Symbol → State × List Output}
    {state next : State} {symbol : Symbol} {output : List Output}
    (hstep : step state symbol = (next, output)) (symbols : List Symbol) :
    runTransducer step state (symbol :: symbols) =
      ((runTransducer step next symbols).1, output ++ (runTransducer step next symbols).2) := by
  rw [runTransducer_cons, hstep]

/-- Feeding two lists after each other continues from the state the first one leaves. -/
theorem runTransducer_append (step : State → Symbol → State × List Output) (state : State)
    (first second : List Symbol) :
    runTransducer step state (first ++ second) =
      ((runTransducer step (runTransducer step state first).1 second).1,
        (runTransducer step state first).2 ++
          (runTransducer step (runTransducer step state first).1 second).2) := by
  induction first generalizing state with
  | nil => rfl
  | cons symbol first ih =>
    rw [List.cons_append, runTransducer_cons, ih, runTransducer_cons, List.append_assoc]

/-- What every answer preserves holds of the state after a list of symbols. -/
theorem runTransducer_invariant {step : State → Symbol → State × List Output}
    {invariant : State → Prop}
    (hstep : ∀ state symbol, invariant state → invariant (step state symbol).1)
    {state : State} (hstate : invariant state) (symbols : List Symbol) :
    invariant (runTransducer step state symbols).1 := by
  induction symbols generalizing state with
  | nil => exact hstate
  | cons symbol symbols ih => exact ih (hstep state symbol hstate)

/-- Each output is part of the answer to one symbol, in the state that the symbols before it
lead to. -/
theorem mem_runTransducer {step : State → Symbol → State × List Output} {state : State}
    {symbols : List Symbol} {output : Output} :
    output ∈ (runTransducer step state symbols).2 ↔
      ∃ before symbol after, symbols = before ++ symbol :: after ∧
        output ∈ (step (runTransducer step state before).1 symbol).2 := by
  constructor
  · intro hmem
    induction symbols generalizing state with
    | nil => simp at hmem
    | cons symbol symbols ih =>
      rw [runTransducer_cons, List.mem_append] at hmem
      rcases hmem with hfirst | hrest
      · exact ⟨[], symbol, symbols, rfl, hfirst⟩
      · obtain ⟨before, other, after, rfl, hother⟩ := ih hrest
        exact ⟨symbol :: before, other, after, rfl, hother⟩
  · rintro ⟨before, symbol, after, rfl, hmem⟩
    rw [runTransducer_append, runTransducer_cons]
    simp [hmem]

variable (encode : State → Symbol → State × List Code) (decode : Other → Code → Other × List Output)

/-- The simulation rule for an encoder followed by a decoder. If from related states the outputs
the decoder makes of one encoded symbol are as wanted and the states stay related, then the outputs
it makes of a whole encoded list split into the wanted answers to its symbols. -/
theorem forall₂_decode_encode (related : State → Other → Prop)
    (wanted : Symbol → List Output → Prop) (permitted : Symbol → Prop)
    (hstep : ∀ sender receiver symbol, related sender receiver → permitted symbol →
      wanted symbol (runTransducer decode receiver (encode sender symbol).2).2 ∧
        related (encode sender symbol).1
          (runTransducer decode receiver (encode sender symbol).2).1)
    (symbols : List Symbol) (hpermitted : ∀ symbol ∈ symbols, permitted symbol)
    {sender : State} {receiver : Other} (hrelated : related sender receiver) :
    ∃ answers, List.Forall₂ wanted symbols answers ∧
      (runTransducer decode receiver (runTransducer encode sender symbols).2).2 =
        answers.flatten := by
  induction symbols generalizing sender receiver with
  | nil => exact ⟨[], .nil, rfl⟩
  | cons symbol symbols ih =>
    obtain ⟨hwanted, hnext⟩ := hstep sender receiver symbol hrelated (hpermitted _ (by simp))
    obtain ⟨answers, hanswers, houtput⟩ :=
      ih (fun other hother ↦ hpermitted other (by simp [hother])) hnext
    refine ⟨_ :: answers, .cons hwanted hanswers, ?_⟩
    rw [runTransducer_cons, runTransducer_append, houtput, List.flatten_cons]

variable {encode decode}

/-- The simulation rule when the wanted answer is a function of the symbol. -/
theorem decode_encode (related : State → Other → Prop) (answer : Symbol → List Output)
    (permitted : Symbol → Prop)
    (hstep : ∀ sender receiver symbol, related sender receiver → permitted symbol →
      (runTransducer decode receiver (encode sender symbol).2).2 = answer symbol ∧
        related (encode sender symbol).1
          (runTransducer decode receiver (encode sender symbol).2).1)
    (symbols : List Symbol) (hpermitted : ∀ symbol ∈ symbols, permitted symbol)
    {sender : State} {receiver : Other} (hrelated : related sender receiver) :
    (runTransducer decode receiver (runTransducer encode sender symbols).2).2 =
      symbols.flatMap answer := by
  obtain ⟨answers, hanswers, houtput⟩ := forall₂_decode_encode encode decode related
    (fun symbol output ↦ output = answer symbol) permitted hstep symbols hpermitted hrelated
  have hanswers' : answers = symbols.map answer := by
    clear houtput hpermitted
    induction hanswers with
    | nil => rfl
    | cons hhead _ ih => rw [hhead, ih, List.map_cons]
  rw [houtput, hanswers', List.flatMap]

end Elua.Foundation
