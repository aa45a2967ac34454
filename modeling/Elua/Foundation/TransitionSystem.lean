import Mathlib.Logic.Basic

/-!
# Transition systems and the states their runs reach

A component is described by its initial states and by what one event does. `ReachableUnder`
collects the states reached by the runs whose every step meets a side condition, and `Reachable`
those of all runs. `ReachableUnder.invariant` is the induction rule: a property of the initial
states that every permitted step preserves holds in every state reached. A system given by a
partial step function is `ofFunction`, and `reachableUnder_of_runEvents` turns a list of events that
such a function evaluates into a run.
-/

set_option autoImplicit false
set_option relaxedAutoImplicit false

namespace Elua.Foundation

/-- A labelled transition system: the states a run may start in, and the steps an event allows. -/
structure TransitionSystem (State Event : Type*) where
  /-- The states a run starts in. -/
  initial : State → Prop
  /-- `step state event next`: the event takes `state` to `next`. -/
  step : State → Event → State → Prop

namespace TransitionSystem

variable {State Event : Type*} {system : TransitionSystem State Event}

/-- The states reached by the runs all of whose steps meet `permitted`. -/
inductive ReachableUnder (system : TransitionSystem State Event)
    (permitted : State → Event → Prop) : State → Prop
  | start {state : State} (hinitial : system.initial state) : ReachableUnder system permitted state
  | next {state : State} {event : Event} {after : State}
      (hreach : ReachableUnder system permitted state) (hpermitted : permitted state event)
      (hstep : system.step state event after) : ReachableUnder system permitted after

/-- The states reached by any run. -/
def Reachable (system : TransitionSystem State Event) : State → Prop :=
  system.ReachableUnder fun _ _ ↦ True

/-- A run is continued by an event. -/
theorem ReachableUnder.andThen {permitted : State → Event → Prop} {state : State}
    (hreach : system.ReachableUnder permitted state) (event : Event) {after : State}
    (hpermitted : permitted state event) (hstep : system.step state event after) :
    system.ReachableUnder permitted after :=
  .next hreach hpermitted hstep

/-- A weaker condition on the steps permits more runs. -/
theorem ReachableUnder.mono {permitted weaker : State → Event → Prop}
    (hweaker : ∀ state event, permitted state event → weaker state event) {state : State}
    (hreach : system.ReachableUnder permitted state) : system.ReachableUnder weaker state := by
  induction hreach with
  | start hinitial => exact .start hinitial
  | next _ hpermitted hstep ih => exact .next ih (hweaker _ _ hpermitted) hstep

/-- Every restricted run is a run. -/
theorem ReachableUnder.reachable {permitted : State → Event → Prop} {state : State}
    (hreach : system.ReachableUnder permitted state) : system.Reachable state :=
  hreach.mono fun _ _ _ ↦ trivial

/-- The invariant rule: what holds initially and survives every permitted step holds in every
state reached by permitted steps. -/
theorem ReachableUnder.invariant {permitted : State → Event → Prop} (invariant : State → Prop)
    (hinitial : ∀ state, system.initial state → invariant state)
    (hstep : ∀ state event after, invariant state → permitted state event →
      system.step state event after → invariant after)
    {state : State} (hreach : system.ReachableUnder permitted state) : invariant state := by
  induction hreach with
  | start hstart => exact hinitial _ hstart
  | next _ hpermitted hnext ih => exact hstep _ _ _ ih hpermitted hnext

/-- The system of a partial step function. -/
def ofFunction (initial : State → Prop) (stepFunction : State → Event → Option State) :
    TransitionSystem State Event where
  initial := initial
  step := fun state event after ↦ stepFunction state event = some after

/-- Runs a partial step function over a list of events, the first event first. -/
def runEvents (stepFunction : State → Event → Option State) : State → List Event → Option State
  | state, [] => some state
  | state, event :: events => (stepFunction state event).bind fun after ↦
      runEvents stepFunction after events

/-- Events after each other continue from the state that the first ones lead to. -/
theorem runEvents_append (stepFunction : State → Event → Option State) (state : State)
    (first second : List Event) :
    runEvents stepFunction state (first ++ second) =
      (runEvents stepFunction state first).bind fun after ↦
        runEvents stepFunction after second := by
  induction first generalizing state with
  | nil => rfl
  | cons event first ih =>
    simp only [List.cons_append, runEvents, ih, Option.bind_assoc]

/-- An evaluated list of permitted events is a run. -/
theorem reachableUnder_of_runEvents {stepFunction : State → Event → Option State}
    (hfunction : ∀ state event after, stepFunction state event = some after →
      system.step state event after)
    {permitted : State → Event → Prop} (events : List Event) {start finish : State}
    (hstart : system.ReachableUnder permitted start)
    (hpermitted : ∀ state, ∀ event ∈ events, permitted state event)
    (hrun : runEvents stepFunction start events = some finish) :
    system.ReachableUnder permitted finish := by
  induction events generalizing start with
  | nil =>
    simp only [runEvents, Option.some.injEq] at hrun
    exact hrun ▸ hstart
  | cons event events ih =>
    simp only [runEvents, Option.bind_eq_some_iff] at hrun
    obtain ⟨middle, hmiddle, hrest⟩ := hrun
    exact ih (.next hstart (hpermitted _ _ (List.mem_cons_self ..)) (hfunction _ _ _ hmiddle))
      (fun state event hevent ↦ hpermitted state event (List.mem_cons_of_mem _ hevent)) hrest

/-- Every event of a list is permitted in the state it comes in. -/
def PermitsEvents (stepFunction : State → Event → Option State)
    (permitted : State → Event → Prop) : State → List Event → Prop
  | _, [] => True
  | state, event :: events => permitted state event ∧
      ∀ after ∈ stepFunction state event, PermitsEvents stepFunction permitted after events

instance decidablePermitsEvents (stepFunction : State → Event → Option State)
    (permitted : State → Event → Prop) [∀ state event, Decidable (permitted state event)] :
    (state : State) → (events : List Event) →
      Decidable (PermitsEvents stepFunction permitted state events)
  | _, [] => .isTrue trivial
  | state, event :: events =>
    have := fun after ↦ decidablePermitsEvents stepFunction permitted after events
    inferInstanceAs (Decidable (permitted state event ∧ ∀ after ∈ stepFunction state event,
      PermitsEvents stepFunction permitted after events))

/-- An evaluated list of events, each permitted in its state, is a run. -/
theorem reachableUnder_of_permitsEvents {stepFunction : State → Event → Option State}
    {initial : State → Prop} {permitted : State → Event → Prop} (events : List Event)
    {start finish : State}
    (hstart : (ofFunction initial stepFunction).ReachableUnder permitted start)
    (hpermits : PermitsEvents stepFunction permitted start events)
    (hrun : runEvents stepFunction start events = some finish) :
    (ofFunction initial stepFunction).ReachableUnder permitted finish := by
  induction events generalizing start with
  | nil =>
    simp only [runEvents, Option.some.injEq] at hrun
    exact hrun ▸ hstart
  | cons event events ih =>
    simp only [runEvents, Option.bind_eq_some_iff] at hrun
    obtain ⟨middle, hmiddle, hrest⟩ := hrun
    exact ih (.next hstart hpermits.1 hmiddle) (hpermits.2 middle hmiddle) hrest

end TransitionSystem

end Elua.Foundation
