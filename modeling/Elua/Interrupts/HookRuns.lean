import Elua.Foundation.TransitionSystem
import Elua.Interrupts.Queue

/-!
# Runs of the interrupt hook

`hookSystem` interleaves the steps of `elua_int_hook` with `elua_int_add`, with enabling and
disabling of interrupt sources and with the life of the Lua state and its coroutines. A handler may
run a coroutine that has a hook, which is then entered within the first one. A run also records
which events were accepted, which were dequeued and for which the handler was called. `QueueKept`
says that the queue loses and invents nothing.

A handler that raises an error leaves the hook before the check that clears it, and a coroutine that
is created while the hook is set has the hook too, of which only one is cleared. `OrderlyHook` is the
condition that an event is queued when the hook is entered after that, and
`queueKept_of_orderlyHook` says that the queue is kept in every run that meets it.
-/

set_option autoImplicit false
set_option relaxedAutoImplicit false

namespace Elua.Interrupts

open Buf Foundation TransitionSystem

/-! ### The system -/

/-- How far `elua_int_hook` has got. -/
inductive HookStage
  | idle
  | fetched (crt : IntElement)
  | cleared (crt : IntElement)
  | advanced (crt : IntElement)
  | calling (crt : IntElement)
  | finishing
  deriving DecidableEq

/-- An event taken out of the queue, with whether its source was enabled and whether there was a
handler for it. -/
structure Dequeued where
  event : IntElement
  enabled : Bool
  registered : Bool

/-- The state of a run, with the events of the Lua state that were accepted, that were dequeued and
for which the handler was called. After an error in a handler, `raised` is set until the hook is
entered again or an event is accepted. The hook runs in the state `thread`, within the handlers that
it has called in the states of `outer`, and `copied` is whether a coroutine took a hook over. -/
structure IntRun where
  state : IntState
  stage : HookStage
  accepted : List IntElement
  dequeued : List Dequeued
  called : List IntElement
  raised : Bool
  thread : ℕ
  outer : List (ℕ × IntElement)
  copied : Bool

/-- The state at the start of a run. -/
def IntRun.initial : IntRun := ⟨.initial, .idle, [], [], [], false, 0, [], false⟩

/-- What may happen: an interrupt, an entry of the hook in a state, its next step, the end of a Lua
handler, the change of a source, a new coroutine, and the start and the end of the Lua state. -/
inductive IntEvent
  | add (inttype resnum : ℕ)
  | enter (L : ℕ)
  | hookStep (registered : Bool)
  | handlerReturns
  | handlerRaises
  | enable (inttype : ℕ)
  | disable (inttype : ℕ)
  | newthread (L L1 : ℕ)
  | open
  | close
  deriving DecidableEq

/-- The states that are within their hooks, whose `allowhook` is zero. -/
def IntRun.inHook (run : IntRun) : List ℕ :=
  if run.stage = .idle then [] else run.thread :: run.outer.map Prod.fst

/-- The virtual machine enters the hook of a state that runs. -/
def hookEnter (run : IntRun) (L : ℕ) : Option IntRun :=
  let entered := { run with stage := .fetched (hookFetch run.state), raised := false, thread := L }
  if run.state.running = true ∧ run.state.hook L = true ∧ L ∉ run.inHook then
    match run.stage with
    | .idle => some { entered with outer := [] }
    | .calling crt => some { entered with outer := (run.thread, crt) :: run.outer }
    | _ => none
  else none

/-- The hook is left, for the handler within which it was entered. -/
def hookLeave (run : IntRun) : IntRun :=
  match run.outer with
  | [] => { run with stage := .idle }
  | (L, crt) :: outer => { run with stage := .calling crt, thread := L, outer := outer }

/-- The next step of the hook. -/
def hookStep (config : IntConfig) (run : IntRun) (registered : Bool) : Option IntRun :=
  match run.stage with
  | .idle => none
  | .fetched crt => some { run with state := hookClear run.state, stage := .cleared crt }
  | .cleared crt => some { run with state := hookAdvance config run.state, stage := .advanced crt }
  | .advanced crt =>
    let enabled := eluaIntIsEnabled run.state crt.id
    let dequeued := run.dequeued ++ [⟨crt, enabled, registered⟩]
    if enabled = true ∧ registered = true then
      some { run with stage := .calling crt, dequeued := dequeued, called := run.called ++ [crt] }
    else some { run with stage := .finishing, dequeued := dequeued }
  | .calling _ => none
  | .finishing => some (hookLeave { run with state := hookFinish run.thread run.state })

/-- One event. -/
def intStep (config : IntConfig) (run : IntRun) : IntEvent → Option IntRun
  | .add inttype resnum =>
    let result := eluaIntAdd config run.state inttype resnum
    let accepted := run.accepted ++ [⟨inttype, resnum⟩]
    if result.1 = .ok then
      some { run with state := result.2, accepted := accepted, raised := false }
    else some { run with state := result.2 }
  | .enter L => hookEnter run L
  | .hookStep registered => hookStep config run registered
  | .handlerReturns =>
    match run.stage with
    | .calling _ => some { run with stage := .finishing }
    | _ => none
  -- the error leaves the hook function too
  | .handlerRaises =>
    match run.stage with
    | .calling _ => some (hookLeave { run with raised := true })
    | _ => none
  | .enable inttype => some { run with state := eluaIntEnable run.state inttype }
  | .disable inttype => some { run with state := eluaIntDisable run.state inttype }
  | .newthread L L1 =>
    if run.state.running = true ∧ L1 ≠ 0 then
      some { run with
        state := luaENewthread run.state L L1, copied := run.copied || run.state.hook L }
    else none
  | .open =>
    if run.state.running = true then none else some { run with state := luaOpen run.state }
  | .close =>
    if run.stage = .idle then some { IntRun.initial with state := luaClose run.state } else none

/-- The runs from the state at the start. -/
def hookSystem (config : IntConfig) : TransitionSystem IntRun IntEvent :=
  ofFunction (fun run ↦ run = .initial) (intStep config)

/-! ### What must hold -/

/-- The slot is in use. -/
def SlotUsed (state : IntState) (index : ℕ) : Prop := (state.queue index).id ≠ eluaIntEmptySlot

instance (state : IntState) (index : ℕ) : Decidable (SlotUsed state index) :=
  inferInstanceAs (Decidable (_ ≠ _))

/-- Whether the handler of a dequeued event has to be called. -/
def Dequeued.handled (entry : Dequeued) : Bool := entry.enabled && entry.registered

/-- At a hook entry, the used slots are those from the read index to the write index, and they hold
what was accepted and has not been dequeued, in the order of arrival. -/
def SlotsKept (config : IntConfig) (run : IntRun) : Prop :=
  ∃ count ≤ queueSize config,
    run.state.writeIdx = (run.state.readIdx + count) % queueSize config ∧
    (∀ index < queueSize config, SlotUsed run.state index ↔
      ∃ offset < count, index = (run.state.readIdx + offset) % queueSize config) ∧
    run.accepted = run.dequeued.map Dequeued.event ++
      ringWindow run.state.queue (queueSize config) run.state.readIdx count

/-- The queue loses and invents nothing. -/
structure QueueKept (config : IntConfig) (run : IntRun) : Prop where
  slots : (run.stage = .idle ∨ ∃ crt, run.stage = .calling crt) → SlotsKept config run
  called : run.called = (run.dequeued.filter Dequeued.handled).map Dequeued.event
  rejected : ∀ inttype resnum, isSource config inttype → run.state.running = true →
    eluaIntIsEnabled run.state inttype = true →
      ((eluaIntAdd config run.state inttype resnum).1 = .err ↔
        ∀ index < queueSize config, SlotUsed run.state index)
  hooked : run.state.running = true → (∃ index < queueSize config, SlotUsed run.state index) →
    run.state.hook 0 = true
  fetches : ∀ crt, run.stage = .fetched crt → crt.id ≠ eluaIntEmptySlot

/-- After an error in a handler, and when a coroutine has taken a hook over, the hook is entered only
when an event is queued. -/
def OrderlyHook (run : IntRun) : IntEvent → Prop
  | .enter _ => run.raised = true ∨ run.copied = true → SlotUsed run.state run.state.readIdx
  | _ => True

/-! ### The invariant -/

/-- The event that is not in the queue any more and not yet recorded as dequeued. -/
def HookStage.inFlight : HookStage → List IntElement
  | .cleared crt => [crt]
  | .advanced crt => [crt]
  | _ => []

/-- Where the queue starts: between the clearing of a slot and the step to the next one, it starts
behind the read index. -/
def IntRun.start (run : IntRun) : ℕ :=
  match run.stage with
  | .cleared _ => run.state.readIdx + 1
  | _ => run.state.readIdx

/-- The run with the elements in its queue. -/
structure Queued (config : IntConfig) (run : IntRun) (pending : List IntElement) : Prop where
  ring : RingHolds run.state.queue (queueSize config) run.start pending
  readIdx_lt : run.state.readIdx < queueSize config
  writeIdx_eq : run.state.writeIdx = (run.start + pending.length) % queueSize config
  fetched : ∀ crt, run.stage = .fetched crt → ∃ rest, pending = crt :: rest
  accepted : run.accepted =
    run.dequeued.map Dequeued.event ++ (run.stage.inFlight ++ pending)
  called : run.called = (run.dequeued.filter Dequeued.handled).map Dequeued.event
  hooked : pending ≠ [] → run.state.hook 0 = true
  used : run.copied = false → run.stage = .idle → run.state.hook 0 = true →
    run.raised = true ∨ pending ≠ []
  alone : run.copied = false → (∀ L ≠ 0, run.state.hook L = false) ∧ run.outer = [] ∧
    (run.stage ≠ .idle → run.thread = 0)
  stopped : run.state.running = false → run.stage = .idle ∧ pending = []

section Steps

variable {config : IntConfig} {run : IntRun} {pending : List IntElement}

theorem Queued.writeIdx_lt (hqueued : Queued config run pending) :
    run.state.writeIdx < queueSize config := by
  rw [hqueued.writeIdx_eq]
  exact Nat.mod_lt _ (queueSize_pos config)

theorem Queued.readIdx_mod (hqueued : Queued config run pending) :
    run.state.readIdx % queueSize config = run.state.readIdx :=
  Nat.mod_eq_of_lt hqueued.readIdx_lt

/-- Where the queue starts, unless a slot has been cleared and not been left yet. -/
theorem IntRun.start_eq (hstage : ∀ crt, run.stage ≠ .cleared crt) :
    run.start = run.state.readIdx := by
  unfold IntRun.start
  split
  · next crt hcleared => exact absurd hcleared (hstage crt)
  · rfl

theorem Queued.ring_readIdx (hqueued : Queued config run pending)
    (hstage : ∀ crt, run.stage ≠ .cleared crt) :
    RingHolds run.state.queue (queueSize config) run.state.readIdx pending := by
  rw [← IntRun.start_eq hstage]
  exact hqueued.ring

theorem Queued.writeIdx_readIdx (hqueued : Queued config run pending)
    (hstage : ∀ crt, run.stage ≠ .cleared crt) :
    run.state.writeIdx = (run.state.readIdx + pending.length) % queueSize config := by
  rw [← IntRun.start_eq hstage]
  exact hqueued.writeIdx_eq

/-- The Lua state is open while the hook runs. -/
theorem Queued.running (hqueued : Queued config run pending) (hstage : run.stage ≠ .idle) :
    run.state.running ≠ false :=
  fun hstopped ↦ hstage (hqueued.stopped hstopped).1

/-- The flags do not matter. -/
theorem Queued.setFlags (hqueued : Queued config run pending) (flags : ℕ → ℕ) :
    Queued config { run with state := { run.state with flags := flags } } pending :=
  { hqueued with }

/-- The slot at the write index is used exactly when the queue is full. -/
theorem Queued.full_iff (hqueued : Queued config run pending) :
    SlotUsed run.state run.state.writeIdx ↔ pending.length = queueSize config := by
  rw [SlotUsed, hqueued.writeIdx_eq]
  exact hqueued.ring.full_iff (queueSize_pos config)

/-- An interrupt is queued. -/
theorem Queued.push (hqueued : Queued config run pending) (hrunning : run.state.running = true)
    (hroom : pending.length ≠ queueSize config) {element : IntElement}
    (helement : element.id ≠ eluaIntEmptySlot) :
    Queued config
      { run with
        state := { run.state with
          queue := Function.update run.state.queue run.state.writeIdx element
          writeIdx := nextIdx config run.state.writeIdx
          hook := Function.update run.state.hook 0 true }
        accepted := run.accepted ++ [element]
        raised := false } (pending ++ [element]) := by
  have hlt := Nat.lt_of_le_of_ne hqueued.ring.length_le hroom
  constructor
  · have hring := hqueued.ring.push hlt helement
    rw [← hqueued.writeIdx_eq] at hring
    exact hring
  · exact hqueued.readIdx_lt
  · change nextIdx config run.state.writeIdx = (run.start + (pending ++ [element]).length) % _
    rw [nextIdx_eq hqueued.writeIdx_lt, hqueued.writeIdx_eq, Nat.mod_add_mod, List.length_append,
      List.length_singleton, Nat.add_assoc]
  · intro crt hstage
    obtain ⟨rest, hrest⟩ := hqueued.fetched crt hstage
    exact ⟨rest ++ [element], by rw [hrest]; rfl⟩
  · change run.accepted ++ [element] = _
    rw [hqueued.accepted, List.append_assoc, List.append_assoc]
  · exact hqueued.called
  · intro _
    exact Function.update_self 0 true run.state.hook
  · intro _ _ _
    exact .inr (List.append_ne_nil_of_right_ne_nil _ (List.cons_ne_nil _ _))
  · intro hcopied
    obtain ⟨hhooks, hrest⟩ := hqueued.alone hcopied
    exact ⟨fun L hL ↦ (Function.update_of_ne hL ..).trans (hhooks L hL), hrest⟩
  · intro hstopped
    exact absurd (hrunning.symm.trans hstopped) (Bool.false_ne_true ∘ Eq.symm)

/-- `elua_int_add` keeps the queue. -/
theorem Queued.add (hqueued : Queued config run pending) (inttype resnum : ℕ) {after : IntRun}
    (hstep : intStep config run (.add inttype resnum) = some after) :
    ∃ elements, Queued config after elements := by
  simp only [intStep] at hstep
  rcases eluaIntAdd_cases config run.state inttype resnum with hrejected | haccepted
  · rw [hrejected, if_neg (fun herr ↦ PlatformStatus.noConfusion herr)] at hstep
    obtain rfl := Option.some.inj hstep
    exact ⟨pending, hqueued⟩
  · obtain ⟨hsource, hrunning, -, hfree, hadded⟩ := haccepted
    rw [hadded, if_pos rfl] at hstep
    obtain rfl := Option.some.inj hstep
    have hroom : pending.length ≠ queueSize config := by
      intro hlength
      exact hqueued.full_iff.mpr hlength hfree
    exact ⟨_, hqueued.push hrunning hroom hsource.ne_empty⟩

/-- The hook is entered only when an event is queued. -/
theorem Queued.pending_ne_nil (hqueued : Queued config run pending) {L : ℕ}
    (horderly : OrderlyHook run (.enter L)) (hhook : run.state.hook L = true)
    (houtside : L ∉ run.inHook) (hcleared : ∀ crt, run.stage ≠ .cleared crt) : pending ≠ [] := by
  by_cases hstale : run.raised = true ∨ run.copied = true
  · rintro rfl
    have hempty := (hqueued.ring_readIdx hcleared).head_empty (queueSize_pos config)
    rw [hqueued.readIdx_mod] at hempty
    exact horderly hstale hempty
  · -- only the main state has the hook, which is not within it
    rw [not_or, Bool.not_eq_true, Bool.not_eq_true] at hstale
    obtain ⟨hhooks, -, hthread⟩ := hqueued.alone hstale.2
    have hmain : L = 0 := by
      by_contra hL
      exact Bool.false_ne_true ((hhooks L hL).symm.trans hhook)
    subst hmain
    have hidle : run.stage = .idle := by
      by_contra hbusy
      rw [IntRun.inHook, if_neg hbusy, hthread hbusy] at houtside
      exact houtside List.mem_cons_self
    refine (hqueued.used hstale.2 hidle hhook).resolve_left fun hraised ↦ ?_
    exact Bool.false_ne_true (hstale.1.symm.trans hraised)

/-- The hook is entered: it finds the oldest event. -/
theorem Queued.enter (hqueued : Queued config run pending) {L : ℕ}
    (horderly : OrderlyHook run (.enter L)) {after : IntRun}
    (hstep : hookEnter run L = some after) : Queued config after pending := by
  simp only [hookEnter] at hstep
  split_ifs at hstep with hentered
  obtain ⟨hrunning, hhook, houtside⟩ := hentered
  have hstage : (run.stage = .idle ∨ ∃ crt, run.stage = .calling crt) ∧
      ∃ outer, after = { run with
        stage := .fetched (hookFetch run.state), raised := false, thread := L, outer := outer } ∧
          (run.stage = .idle → outer = []) := by
    split at hstep
    · next hidle => exact ⟨.inl hidle, [], (Option.some.inj hstep).symm, fun _ ↦ rfl⟩
    · next crt hcalling =>
      exact ⟨.inr ⟨crt, hcalling⟩, _, (Option.some.inj hstep).symm,
        fun hidle ↦ HookStage.noConfusion (hidle.symm.trans hcalling)⟩
    · cases hstep
  obtain ⟨hstage, outer, rfl, houter⟩ := hstage
  have hcleared : ∀ crt, run.stage ≠ .cleared crt := by
    rintro crt hcleared
    rcases hstage with hidle | ⟨other, hcalling⟩
    · exact HookStage.noConfusion (hidle.symm.trans hcleared)
    · exact HookStage.noConfusion (hcalling.symm.trans hcleared)
  have hpending := hqueued.pending_ne_nil horderly hhook houtside hcleared
  obtain ⟨first, rest, rfl⟩ := List.exists_cons_of_ne_nil hpending
  have hring := hqueued.ring_readIdx hcleared
  constructor
  · exact hring
  · exact hqueued.readIdx_lt
  · exact hqueued.writeIdx_readIdx hcleared
  · rintro crt hcrt
    obtain rfl := HookStage.fetched.inj hcrt
    have hhead := hring.head_eq
    rw [hqueued.readIdx_mod] at hhead
    exact ⟨rest, by rw [hookFetch, hhead]⟩
  · rw [hqueued.accepted]
    rcases hstage with hidle | ⟨other, hcalling⟩
    · rw [hidle]
      rfl
    · rw [hcalling]
      rfl
  · exact hqueued.called
  · exact hqueued.hooked
  · intro _ hidle
    cases hidle
  · intro hcopied
    obtain ⟨hhooks, -, hthread⟩ := hqueued.alone hcopied
    have hmain : L = 0 := by
      by_contra hL
      exact Bool.false_ne_true ((hhooks L hL).symm.trans hhook)
    refine ⟨hhooks, ?_, fun _ ↦ hmain⟩
    rcases hstage with hidle | ⟨other, hcalling⟩
    · exact houter hidle
    · have hbusy : run.stage ≠ .idle := fun hidle ↦ HookStage.noConfusion (hidle.symm.trans hcalling)
      rw [IntRun.inHook, if_neg hbusy, hthread hbusy, hmain] at houtside
      exact absurd List.mem_cons_self houtside
  · intro hstopped
    exact absurd (hrunning.symm.trans hstopped) (Bool.false_ne_true ∘ Eq.symm)

/-- The slot of the fetched event is cleared. -/
theorem Queued.clear (hqueued : Queued config run pending) {crt : IntElement}
    (hstage : run.stage = .fetched crt) :
    ∃ elements,
      Queued config { run with state := hookClear run.state, stage := .cleared crt } elements := by
  obtain ⟨rest, rfl⟩ := hqueued.fetched crt hstage
  have hbusy : run.stage ≠ .idle := fun hidle ↦ HookStage.noConfusion (hstage.symm.trans hidle)
  have hcleared : ∀ other, run.stage ≠ .cleared other := fun other hcleared ↦
    HookStage.noConfusion (hstage.symm.trans hcleared)
  refine ⟨rest, ?_⟩
  constructor
  · have hpopped := (hqueued.ring_readIdx hcleared).pop
      { run.state.queue run.state.readIdx with id := eluaIntEmptySlot } rfl
    rw [hqueued.readIdx_mod] at hpopped
    exact hpopped
  · exact hqueued.readIdx_lt
  · change run.state.writeIdx = (run.state.readIdx + 1 + rest.length) % queueSize config
    rw [hqueued.writeIdx_readIdx hcleared, List.length_cons, Nat.add_assoc, Nat.add_comm 1]
  · intro other hother
    cases hother
  · rw [hqueued.accepted, hstage]
    rfl
  · exact hqueued.called
  · intro _
    exact hqueued.hooked (List.cons_ne_nil _ _)
  · intro _ hidle
    cases hidle
  · intro hcopied
    obtain ⟨hhooks, houter, hthread⟩ := hqueued.alone hcopied
    exact ⟨hhooks, houter, fun _ ↦ hthread hbusy⟩
  · intro hstopped
    exact absurd (hqueued.stopped hstopped).2 (List.cons_ne_nil _ _)

/-- The read index moves on. -/
theorem Queued.advance (hqueued : Queued config run pending) {crt : IntElement}
    (hstage : run.stage = .cleared crt) :
    Queued config { run with state := hookAdvance config run.state, stage := .advanced crt }
      pending := by
  have hbusy : run.stage ≠ .idle := fun hidle ↦ HookStage.noConfusion (hstage.symm.trans hidle)
  have hstart : run.start = run.state.readIdx + 1 := by
    rw [IntRun.start, hstage]
  have hnext : nextIdx config run.state.readIdx = run.start % queueSize config := by
    rw [nextIdx_eq hqueued.readIdx_lt, hstart]
  constructor
  · change RingHolds run.state.queue (queueSize config) (nextIdx config run.state.readIdx) pending
    rw [hnext]
    exact hqueued.ring.mod
  · change nextIdx config run.state.readIdx < queueSize config
    rw [hnext]
    exact Nat.mod_lt _ (queueSize_pos config)
  · change run.state.writeIdx = (nextIdx config run.state.readIdx + pending.length) % _
    rw [hnext, Nat.mod_add_mod]
    exact hqueued.writeIdx_eq
  · intro other hother
    cases hother
  · rw [hqueued.accepted, hstage]
    rfl
  · exact hqueued.called
  · exact hqueued.hooked
  · intro _ hidle
    cases hidle
  · intro hcopied
    obtain ⟨hhooks, houter, hthread⟩ := hqueued.alone hcopied
    exact ⟨hhooks, houter, fun _ ↦ hthread hbusy⟩
  · intro hstopped
    exact absurd (hqueued.stopped hstopped).1 hbusy

/-- The hook moves on behind the queue, which stays as it is. -/
theorem Queued.moves (hqueued : Queued config run pending) (hbusy : run.stage ≠ .idle)
    (hcleared : ∀ crt, run.stage ≠ .cleared crt) {after : IntRun} (hstate : after.state = run.state)
    (hstage : after.stage = .finishing ∨ (∃ crt, after.stage = .calling crt) ∨
      after.stage = .idle ∧ (run.copied = false → run.state.hook 0 = true →
        after.raised = true ∨ pending ≠ []))
    (haccepted : after.accepted = after.dequeued.map Dequeued.event ++ pending)
    (hcalled : after.called = (after.dequeued.filter Dequeued.handled).map Dequeued.event)
    (hcopied : after.copied = run.copied) (hframes : run.copied = false →
      after.outer = [] ∧ (after.stage ≠ .idle → after.thread = 0)) :
    Queued config after pending := by
  have hrunning := hqueued.running hbusy
  have hring := hqueued.ring_readIdx hcleared
  have hwrite := hqueued.writeIdx_readIdx hcleared
  obtain ⟨state, stage, accepted, dequeued, called, raised, thread, outer, copied⟩ := after
  obtain rfl : state = run.state := hstate
  obtain rfl : copied = run.copied := hcopied
  have halone (hfalse : run.copied = false) := And.intro (hqueued.alone hfalse).1 (hframes hfalse)
  obtain rfl | ⟨crt, rfl⟩ | ⟨rfl, hused⟩ := hstage
  · exact ⟨hring, hqueued.readIdx_lt, hwrite, (fun other hother ↦ by cases hother), haccepted,
      hcalled, hqueued.hooked, (fun _ hidle ↦ by cases hidle), halone,
      fun hstopped ↦ absurd hstopped hrunning⟩
  · exact ⟨hring, hqueued.readIdx_lt, hwrite, (fun other hother ↦ by cases hother), haccepted,
      hcalled, hqueued.hooked, (fun _ hidle ↦ by cases hidle), halone,
      fun hstopped ↦ absurd hstopped hrunning⟩
  · exact ⟨hring, hqueued.readIdx_lt, hwrite, (fun other hother ↦ by cases hother), haccepted,
      hcalled, hqueued.hooked, (fun hfalse _ ↦ hused hfalse), halone,
      fun hstopped ↦ absurd hstopped hrunning⟩

/-- The hook is left. -/
theorem Queued.leave (hqueued : Queued config run pending)
    (hstage : run.stage = .finishing ∨ ∃ crt, run.stage = .calling crt) {raised : Bool}
    (hused : run.copied = false → run.state.hook 0 = true → raised = true ∨ pending ≠ []) :
    Queued config (hookLeave { run with raised := raised }) pending := by
  have hstage' : run.stage ≠ .idle ∧ (∀ other, run.stage ≠ .cleared other) ∧
      run.stage.inFlight = [] := by
    rcases hstage with hfinishing | ⟨crt, hcalling⟩
    · rw [hfinishing]
      exact ⟨HookStage.noConfusion, fun _ ↦ HookStage.noConfusion, rfl⟩
    · rw [hcalling]
      exact ⟨HookStage.noConfusion, fun _ ↦ HookStage.noConfusion, rfl⟩
  obtain ⟨hbusy, hcleared, hflight⟩ := hstage'
  have haccepted := hqueued.accepted
  rw [hflight, List.nil_append] at haccepted
  rw [hookLeave]
  split
  · next houter =>
    exact hqueued.moves hbusy hcleared rfl (.inr (.inr ⟨rfl, hused⟩)) haccepted hqueued.called rfl
      fun _ ↦ ⟨houter, fun hidle ↦ absurd rfl hidle⟩
  · next L crt outer houter =>
    refine hqueued.moves hbusy hcleared rfl (.inr (.inl ⟨crt, rfl⟩)) haccepted hqueued.called rfl
      fun hcopied ↦ ?_
    exact absurd (houter.symm.trans (hqueued.alone hcopied).2.1) (List.cons_ne_nil _ _)

/-- The handler of the dequeued event is called, or there is none to call. -/
theorem Queued.dispatch (hqueued : Queued config run pending) {crt : IntElement}
    (hstage : run.stage = .advanced crt) {registered : Bool} {after : IntRun}
    (hstep : hookStep config run registered = some after) : Queued config after pending := by
  have hbusy : run.stage ≠ .idle := fun hidle ↦ HookStage.noConfusion (hstage.symm.trans hidle)
  have hcleared : ∀ other, run.stage ≠ .cleared other := fun other hcleared ↦
    HookStage.noConfusion (hstage.symm.trans hcleared)
  have haccepted := hqueued.accepted
  rw [hstage] at haccepted
  have hframes (hcopied : run.copied = false) :
      run.outer = [] ∧ run.thread = 0 :=
    (hqueued.alone hcopied).2.imp_right fun hthread ↦ hthread hbusy
  simp only [hookStep, hstage] at hstep
  generalize henabled : eluaIntIsEnabled run.state crt.id = enabled at hstep
  have hmoved : run.accepted =
      (run.dequeued ++ [Dequeued.mk crt enabled registered]).map Dequeued.event ++ pending := by
    rw [haccepted, List.map_append, List.append_assoc]
    rfl
  have hcalled : (if enabled = true ∧ registered = true then run.called ++ [crt] else run.called) =
      ((run.dequeued ++ [Dequeued.mk crt enabled registered]).filter Dequeued.handled).map
        Dequeued.event := by
    rw [List.filter_append, List.map_append, ← hqueued.called]
    cases enabled <;> cases registered <;> simp [Dequeued.handled]
  split_ifs at hstep hcalled with hhandled
  · obtain rfl := Option.some.inj hstep
    exact hqueued.moves hbusy hcleared rfl (.inr (.inl ⟨crt, rfl⟩)) hmoved hcalled rfl
      fun hcopied ↦ (hframes hcopied).imp_right fun hthread _ ↦ hthread
  · obtain rfl := Option.some.inj hstep
    exact hqueued.moves hbusy hcleared rfl (.inl rfl) hmoved hcalled rfl
      fun hcopied ↦ (hframes hcopied).imp_right fun hthread _ ↦ hthread

/-- The hook ends: it is cleared if the queue is empty. -/
theorem Queued.finish (hqueued : Queued config run pending) (hstage : run.stage = .finishing) :
    Queued config (hookLeave { run with state := hookFinish run.thread run.state }) pending := by
  have hbusy : run.stage ≠ .idle := fun hidle ↦ HookStage.noConfusion (hstage.symm.trans hidle)
  have hcleared : ∀ other, run.stage ≠ .cleared other := fun other hcleared ↦
    HookStage.noConfusion (hstage.symm.trans hcleared)
  have hring := hqueued.ring_readIdx hcleared
  rw [hookFinish]
  split_ifs with hempty
  · have hpending : pending = [] := by
      rcases pending with - | ⟨first, rest⟩
      · rfl
      · have hhead := hring.head_eq
        rw [hqueued.readIdx_mod] at hhead
        rw [hhead] at hempty
        exact absurd hempty (hring.used first List.mem_cons_self)
    have hfinished : Queued config { run with
        state := { run.state with hook := Function.update run.state.hook run.thread false } }
          pending := by
      refine ⟨hqueued.ring, hqueued.readIdx_lt, hqueued.writeIdx_eq, hqueued.fetched,
        hqueued.accepted, hqueued.called, fun hne ↦ absurd hpending hne,
        fun _ hidle ↦ absurd hidle hbusy, fun hcopied ↦ ?_, hqueued.stopped⟩
      obtain ⟨hhooks, hrest⟩ := hqueued.alone hcopied
      refine ⟨fun L hL ↦ ?_, hrest⟩
      change Function.update run.state.hook run.thread false L = false
      rw [hrest.2 hbusy, Function.update_of_ne hL]
      exact hhooks L hL
    refine hfinished.leave (.inl hstage) fun hcopied hhook ↦ ?_
    rw [(hqueued.alone hcopied).2.2 hbusy] at hhook
    have hoff : Function.update run.state.hook 0 false 0 = false := Function.update_self ..
    exact absurd (hhook.symm.trans hoff) (Bool.false_ne_true ∘ Eq.symm)
  · refine hqueued.leave (.inl hstage) fun _ _ ↦ .inr ?_
    rintro rfl
    have hhead := hring.head_empty (queueSize_pos config)
    rw [hqueued.readIdx_mod] at hhead
    exact hempty hhead

/-- A coroutine is created. -/
theorem Queued.newthread (hqueued : Queued config run pending) {L L1 : ℕ} (hL1 : L1 ≠ 0) :
    Queued config { run with
      state := luaENewthread run.state L L1, copied := run.copied || run.state.hook L } pending := by
  have hmain : (luaENewthread run.state L L1).hook 0 = run.state.hook 0 :=
    Function.update_of_ne hL1.symm ..
  refine ⟨hqueued.ring, hqueued.readIdx_lt, hqueued.writeIdx_eq, hqueued.fetched,
    hqueued.accepted, hqueued.called, fun hne ↦ hmain.trans (hqueued.hooked hne),
    fun hcopied hidle hhook ↦ ?_, fun hcopied ↦ ?_, hqueued.stopped⟩
  · exact hqueued.used (Bool.or_eq_false_iff.mp hcopied).1 hidle (hmain.symm.trans hhook)
  · obtain ⟨hcopied, hhook⟩ := Bool.or_eq_false_iff.mp hcopied
    obtain ⟨hhooks, hrest⟩ := hqueued.alone hcopied
    refine ⟨fun other hother ↦ ?_, hrest⟩
    change Function.update run.state.hook L1 (run.state.hook L) other = false
    by_cases hsame : other = L1
    · rw [hsame, Function.update_self, hhook]
    · rw [Function.update_of_ne hsame]
      exact hhooks other hother

/-- The Lua state is closed. -/
theorem queued_close (config : IntConfig) (state : IntState) :
    Queued config { IntRun.initial with state := luaClose state } [] := by
  have hring : RingHolds (luaClose state).queue (queueSize config) 0 [] :=
    ⟨Nat.zero_le _, rfl, fun _ _ _ ↦ rfl, (fun _ hmem ↦ by cases hmem)⟩
  exact ⟨hring, queueSize_pos config, (Nat.zero_mod _).symm, (fun other hother ↦ by cases hother),
    rfl, rfl, fun hne ↦ absurd rfl hne, (fun _ _ hhook ↦ by cases hhook),
    fun _ ↦ ⟨fun _ _ ↦ rfl, rfl, fun hidle ↦ absurd rfl hidle⟩, fun _ ↦ ⟨rfl, rfl⟩⟩

/-- A Lua state is opened. -/
theorem Queued.reopen (hqueued : Queued config run pending) (hstopped : run.state.running = false) :
    Queued config { run with state := luaOpen run.state } pending := by
  obtain ⟨-, hpending⟩ := hqueued.stopped hstopped
  constructor
  · exact hqueued.ring
  · exact hqueued.readIdx_lt
  · exact hqueued.writeIdx_eq
  · exact hqueued.fetched
  · exact hqueued.accepted
  · exact hqueued.called
  · intro hne
    exact absurd hpending hne
  · intro _ _ hhook
    cases hhook
  · intro hcopied
    exact ⟨fun _ _ ↦ rfl, (hqueued.alone hcopied).2⟩
  · intro hrunning
    cases hrunning

/-- A step of the hook keeps the queue. -/
theorem Queued.hookStep (hqueued : Queued config run pending) {registered : Bool} {after : IntRun}
    (hstep : hookStep config run registered = some after) :
    ∃ elements, Queued config after elements := by
  rcases hstage : run.stage with - | crt | crt | crt | crt | -
  · simp only [Interrupts.hookStep, hstage] at hstep
    cases hstep
  · simp only [Interrupts.hookStep, hstage] at hstep
    obtain rfl := Option.some.inj hstep
    exact hqueued.clear hstage
  · simp only [Interrupts.hookStep, hstage] at hstep
    obtain rfl := Option.some.inj hstep
    exact ⟨pending, hqueued.advance hstage⟩
  · exact ⟨pending, hqueued.dispatch hstage hstep⟩
  · simp only [Interrupts.hookStep, hstage] at hstep
    cases hstep
  · simp only [Interrupts.hookStep, hstage] at hstep
    obtain rfl := Option.some.inj hstep
    exact ⟨pending, hqueued.finish hstage⟩

/-- Every step that meets the condition keeps the queue. -/
theorem Queued.step (hqueued : Queued config run pending) {event : IntEvent}
    (horderly : OrderlyHook run event) {after : IntRun}
    (hstep : intStep config run event = some after) : ∃ elements, Queued config after elements := by
  cases event with
  | add inttype resnum => exact hqueued.add inttype resnum hstep
  | enter L => exact ⟨pending, hqueued.enter horderly hstep⟩
  | hookStep registered => exact hqueued.hookStep hstep
  | handlerReturns =>
    rcases hstage : run.stage with - | crt | crt | crt | crt | -
    all_goals simp only [intStep, hstage, Option.some.injEq, reduceCtorEq] at hstep
    subst hstep
    have hbusy : run.stage ≠ .idle := fun hidle ↦ HookStage.noConfusion (hstage.symm.trans hidle)
    have haccepted := hqueued.accepted
    rw [hstage] at haccepted
    exact ⟨pending, hqueued.moves hbusy (fun _ ↦ hstage ▸ HookStage.noConfusion) rfl (.inl rfl)
      haccepted hqueued.called rfl fun hcopied ↦
        ⟨(hqueued.alone hcopied).2.1, fun _ ↦ (hqueued.alone hcopied).2.2 hbusy⟩⟩
  | handlerRaises =>
    rcases hstage : run.stage with - | crt | crt | crt | crt | -
    all_goals simp only [intStep, hstage, Option.some.injEq, reduceCtorEq] at hstep
    subst hstep
    exact ⟨pending, hqueued.leave (.inr ⟨crt, hstage⟩) fun _ _ ↦ .inl rfl⟩
  | enable inttype =>
    obtain rfl := Option.some.inj hstep
    rw [eluaIntEnable]
    split_ifs
    · exact ⟨pending, hqueued.setFlags _⟩
    · exact ⟨pending, hqueued⟩
  | disable inttype =>
    obtain rfl := Option.some.inj hstep
    rw [eluaIntDisable]
    split_ifs
    · exact ⟨pending, hqueued.setFlags _⟩
    · exact ⟨pending, hqueued⟩
  | newthread L L1 =>
    simp only [intStep] at hstep
    split_ifs at hstep with hcreated
    obtain rfl := Option.some.inj hstep
    exact ⟨pending, hqueued.newthread hcreated.2⟩
  | «open» =>
    simp only [intStep] at hstep
    split_ifs at hstep with hrunning
    obtain rfl := Option.some.inj hstep
    exact ⟨pending, hqueued.reopen (Bool.eq_false_iff.mpr hrunning)⟩
  | close =>
    simp only [intStep] at hstep
    split_ifs at hstep
    obtain rfl := Option.some.inj hstep
    exact ⟨[], queued_close config run.state⟩

end Steps

/-! ### Runs -/

section Runs

variable {config : IntConfig} {run : IntRun}

/-- The invariant says that nothing is lost or invented. -/
theorem Queued.kept {pending : List IntElement} (hqueued : Queued config run pending) :
    QueueKept config run := by
  have hused : (∃ index < queueSize config, SlotUsed run.state index) → pending ≠ [] := by
    rintro ⟨index, hindex, hslot⟩ rfl
    obtain ⟨offset, hoffset, -⟩ := (hqueued.ring.used_iff hindex).mp hslot
    exact Nat.not_lt_zero offset hoffset
  constructor
  · intro hstage
    have hstage' : (∀ crt, run.stage ≠ .cleared crt) ∧ run.stage.inFlight = [] := by
      rcases hstage with hidle | ⟨crt, hcalling⟩
      · rw [hidle]
        exact ⟨fun _ ↦ HookStage.noConfusion, rfl⟩
      · rw [hcalling]
        exact ⟨fun _ ↦ HookStage.noConfusion, rfl⟩
    have hstart := IntRun.start_eq hstage'.1
    have hring := hqueued.ring
    rw [hstart] at hring
    refine ⟨pending.length, hring.length_le, ?_, fun index hindex ↦ hring.used_iff hindex, ?_⟩
    · rw [hqueued.writeIdx_eq, hstart]
    · rw [hring.window, hqueued.accepted, hstage'.2, List.nil_append]
  · exact hqueued.called
  · intro inttype resnum hsource hrunning henabled
    constructor
    · intro hrejected index hindex
      have hwrite : SlotUsed run.state run.state.writeIdx := by
        intro hfree
        rw [eluaIntAdd, if_neg (not_not.mpr hsource), hrunning, henabled,
          if_neg (by simp), if_neg (not_not.mpr hfree)] at hrejected
        exact PlatformStatus.noConfusion hrejected
      have hfull := hqueued.full_iff.mp hwrite
      have hslot := hqueued.ring.used_iff hindex
      rw [hfull] at hslot
      exact hslot.mpr (ringSlot_offset run.start hindex)
    · intro hfull
      rcases eluaIntAdd_cases config run.state inttype resnum with hrejected | haccepted
      · rw [hrejected]
      · obtain ⟨-, -, -, hfree, -⟩ := haccepted
        exact absurd hfree (hfull _ hqueued.writeIdx_lt)
  · intro _ hsome
    exact hqueued.hooked (hused hsome)
  · intro crt hstage
    obtain ⟨rest, hrest⟩ := hqueued.fetched crt hstage
    exact hqueued.ring.used crt (hrest ▸ List.mem_cons_self)

theorem queued_of_orderlyHook (hreach : (hookSystem config).ReachableUnder OrderlyHook run) :
    ∃ pending, Queued config run pending := by
  refine hreach.invariant (fun run ↦ ∃ pending, Queued config run pending) ?_ ?_
  · rintro run rfl
    have hring : RingHolds IntState.initial.queue (queueSize config) 0 [] :=
      ⟨Nat.zero_le _, rfl, fun _ _ _ ↦ rfl, fun _ hmem ↦ by cases hmem⟩
    exact ⟨[], hring, queueSize_pos config, (Nat.zero_mod _).symm, (fun _ hother ↦ by cases hother),
      rfl, rfl, fun hne ↦ absurd rfl hne, (fun _ _ hhook ↦ by cases hhook),
      fun _ ↦ ⟨fun _ _ ↦ rfl, rfl, fun hidle ↦ absurd rfl hidle⟩, fun _ ↦ ⟨rfl, rfl⟩⟩
  · rintro run event after ⟨pending, hqueued⟩ horderly hstep
    exact hqueued.step horderly hstep

/-- The queue loses and invents nothing, as long as an event is queued when the hook is entered after
an error or when a coroutine has taken it over. -/
theorem queueKept_of_orderlyHook
    (hreach : (hookSystem config).ReachableUnder OrderlyHook run) : QueueKept config run := by
  obtain ⟨pending, hqueued⟩ := queued_of_orderlyHook hreach
  exact hqueued.kept

/-- An interrupt arrives, and the hook is entered. -/
theorem queueKept_at_entry :
    ∃ (config : IntConfig) (run : IntRun), (hookSystem config).ReachableUnder OrderlyHook run ∧
      run.accepted = [⟨1, 9⟩] ∧ run.stage = .fetched ⟨1, 9⟩ ∧ QueueKept config run := by
  have hstart : (hookSystem ⟨2, 5⟩).ReachableUnder OrderlyHook .initial := .start rfl
  have hopened := hstart.andThen .open trivial rfl
  have henabled := hopened.andThen (.enable 1) trivial rfl
  have hadded := henabled.andThen (.add 1 9) trivial rfl
  have hentered := hadded.andThen (.enter 0) (by rintro (hraised | hcopied) <;> contradiction) rfl
  exact ⟨_, _, hentered, rfl, rfl, queueKept_of_orderlyHook hentered⟩

/-- A handler raises an error while the queue is empty: the hook stays installed, and its next run
dequeues an empty slot. -/
theorem not_queueKept_after_error :
    ∃ (config : IntConfig) (run : IntRun),
      (hookSystem config).Reachable run ∧ ¬ QueueKept config run := by
  have hstart : (hookSystem ⟨2, 5⟩).Reachable .initial := .start rfl
  have hopened := hstart.andThen .open trivial rfl
  have henabled := hopened.andThen (.enable 1) trivial rfl
  have hadded := henabled.andThen (.add 1 9) trivial rfl
  have hfetched := hadded.andThen (.enter 0) trivial rfl
  have hcleared := hfetched.andThen (.hookStep true) trivial rfl
  have hadvanced := hcleared.andThen (.hookStep true) trivial rfl
  have hcalled := hadvanced.andThen (.hookStep true) trivial rfl
  have hraised := hcalled.andThen .handlerRaises trivial rfl
  have hentered := hraised.andThen (.enter 0) trivial rfl
  refine ⟨_, _, hentered, fun hkept ↦ ?_⟩
  exact hkept.fetches _ rfl rfl

end Runs

end Elua.Interrupts
