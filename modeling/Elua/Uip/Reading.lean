import Elua.Foundation.TransitionSystem
import Elua.Uip.AppCall
import Mathlib.Algebra.Order.Ring.Int
import Mathlib.Data.List.Forall2

/-!
# Reading from a socket

Calls of `elua_net_recv` and `elua_net_recvbuf` on one socket, with the events of uIP that come
between their steps. uIP delivers the data of the stream segment by segment, each once and in order,
and delivers none while the connection is stopped.

The lemmas say what the application does while a call receives: an event without data starts the
transfer or ends the call with an error, and a segment is stored. -/

set_option autoImplicit false
set_option relaxedAutoImplicit false

namespace Elua.Uip

open Foundation TransitionSystem

/-! ### The system -/

/-- A call: whether its buffer is a Lua buffer, `maxsize`, `readto`, whether it is on the telnet
socket, and whether it has a timeout. -/
structure ReadCall where
  lua : Bool
  maxsize : ℤ
  readto : ℤ
  telnet : Bool
  timed : Bool
  deriving DecidableEq, Repr

/-- The shared state, the call that waits, what the calls before it have given out, and the part of
the stream that uIP has delivered. -/
structure ReadRun where
  app : AppState
  current : Option ReadCall
  finished : List (ReadCall × List UInt8)
  stream : List UInt8
  deriving DecidableEq

/-- A call begins, an event of uIP comes, the time of a call is over, or a call returns. -/
inductive ReadEvent
  | call (lua : Bool) (memory : List UInt8) (maxsize readto : ℤ) (timed active : Bool)
  | uip (event : Event)
  | timeout
  | returns
  deriving DecidableEq

/-- What a call gives out: what is in its Lua buffer, or `maxsize - pstate->len` bytes of its
memory. -/
def ReadCall.output (call : ReadCall) (app : AppState) : List UInt8 :=
  if call.lua then app.buffer.bytes
  else app.buffer.bytes.take (call.maxsize - app.socket.len).toNat

/-- A call begins, with memory of at least `maxsize` bytes if its buffer is raw. -/
def ReadRun.begin (config : Config) (sockno : ℕ) (run : ReadRun) (call : ReadCall)
    (memory : List UInt8) (active : Bool) : Option ReadRun :=
  if run.current ≠ none ∨ (¬ call.lua ∧ memory.length < call.maxsize) then none
  else
    let recv := if call.lua then eluaNetRecvbuf else eluaNetRecv
    match recv config run.app.services active sockno call.maxsize call.readto with
    | .returns _ => some { run with finished := run.finished ++ [(call, [])] }
    | .waits socket =>
      some { run with
        current := some call
        app := { run.app with
          socket := socket
          buffer := ⟨call.lua, if call.lua then [] else memory, false⟩ } }

/-- uIP may deliver the event: it has data if and only if it says so, and none is delivered while
the connection is stopped. -/
def ReadRun.Delivers (run : ReadRun) (event : Event) : Prop :=
  ¬ event.connected ∧ (event.newdata ↔ event.data ≠ []) ∧
    (event.newdata → ¬ run.app.conn.stopped)

instance (run : ReadRun) (event : Event) : Decidable (run.Delivers event) :=
  inferInstanceAs (Decidable (_ ∧ _ ∧ _))

/-- One step. -/
def readStep (config : Config) (sockno : ℕ) (run : ReadRun) : ReadEvent → Option ReadRun
  | .call lua memory maxsize readto timed active =>
    run.begin config sockno
      ⟨lua, maxsize, readto, run.app.services.isTelnet config sockno, timed⟩ memory active
  | .uip event =>
    if run.Delivers event then
      some { run with
        app := eluaUipAppcall config sockno event run.app
        stream := run.stream ++ event.data }
    else none
  | .timeout =>
    if run.current.any ReadCall.timed then
      some { run with app := { run.app with socket := recvTimedout run.app.socket } }
    else none
  | .returns =>
    match run.current with
    | some call =>
      if run.app.socket.state = .idle then
        some { run with
          current := none
          finished := run.finished ++ [(call, call.output run.app)] }
      else none
    | none => none

/-- The runs on an established connection: the socket is idle, and no data has come yet. -/
def readSystem (config : Config) (sockno : ℕ) : TransitionSystem ReadRun ReadEvent :=
  ofFunction
    (fun run ↦ run.app.socket.state = .idle ∧ run.app.buffer.misused = false ∧
      run.current = none ∧ run.finished = [] ∧ run.stream = [])
    (readStep config sockno)

/-! ### What a step can do -/

section Steps

variable {config : Config} {sockno : ℕ} {run after : ReadRun}

/-- The state while a call waits that has just begun. -/
def ReadCall.requestedApp (call : ReadCall) (memory : List UInt8) (app : AppState) : AppState :=
  { app with
    socket := prepSocketState call.maxsize call.readto (if call.lua then 1 else 0) .recv
    buffer := ⟨call.lua, if call.lua then [] else memory, false⟩ }

/-- A call that begins returns at once, or waits. -/
theorem begin_eq_some {call : ReadCall} {memory : List UInt8} {active : Bool}
    (hstep : run.begin config sockno call memory active = some after) :
    run.current = none ∧ (¬ call.lua → call.maxsize ≤ memory.length) ∧
      (after = { run with finished := run.finished ++ [(call, [])] } ∨
        run.app.services.configured ∧
          after = { run with
            current := some call
            app := call.requestedApp memory run.app }) := by
  unfold ReadRun.begin at hstep
  by_cases hguard : run.current ≠ none ∨ (¬ call.lua ∧ memory.length < call.maxsize)
  · rw [if_pos hguard] at hstep
    cases hstep
  rw [if_neg hguard] at hstep
  rw [not_or, not_not, not_and, not_lt] at hguard
  refine ⟨hguard.1, hguard.2, ?_⟩
  have hrecv : (if call.lua then eluaNetRecvbuf else eluaNetRecv) config run.app.services active
      sockno call.maxsize call.readto = eluaNetRecvInternal config run.app.services active sockno
        call.maxsize call.readto (if call.lua then 1 else 0) := by
    split_ifs <;> rfl
  simp only [hrecv] at hstep
  unfold eluaNetRecvInternal at hstep
  by_cases hok : ¬ isSockOk config run.app.services sockno ∨ ¬ active
  · rw [if_pos hok] at hstep
    exact .inl (Option.some.inj hstep).symm
  rw [if_neg hok] at hstep
  by_cases hmaxsize : call.maxsize = 0
  · rw [if_pos hmaxsize] at hstep
    exact .inl (Option.some.inj hstep).symm
  rw [if_neg hmaxsize] at hstep
  push Not at hok
  have hand := hok.1
  rw [isSockOk, Bool.and_eq_true] at hand
  exact .inr ⟨hand.1, (Option.some.inj hstep).symm⟩

theorem readStep_uip {event : Event}
    (hstep : readStep config sockno run (.uip event) = some after) :
    run.Delivers event ∧
      after = { run with
        app := eluaUipAppcall config sockno event run.app
        stream := run.stream ++ event.data } := by
  simp only [readStep] at hstep
  split_ifs at hstep with hdelivers
  exact ⟨hdelivers, (Option.some.inj hstep).symm⟩

theorem readStep_timeout (hstep : readStep config sockno run .timeout = some after) :
    run.current ≠ none ∧
      after = { run with app := { run.app with socket := recvTimedout run.app.socket } } := by
  simp only [readStep] at hstep
  split_ifs at hstep with htimed
  refine ⟨?_, (Option.some.inj hstep).symm⟩
  intro hnone
  rw [hnone] at htimed
  cases htimed

theorem readStep_returns (hstep : readStep config sockno run .returns = some after) :
    ∃ call, run.current = some call ∧ run.app.socket.state = .idle ∧
      after = { run with
        current := none
        finished := run.finished ++ [(call, call.output run.app)] } := by
  simp only [readStep] at hstep
  split at hstep
  · next call hcall =>
    split_ifs at hstep with hidle
    exact ⟨call, hcall, hidle, (Option.some.inj hstep).symm⟩
  · cases hstep

/-- A call that has just begun has given out nothing. -/
theorem ReadCall.output_requestedApp (call : ReadCall) (memory : List UInt8) (app : AppState) :
    call.output (call.requestedApp memory app) = [] := by
  unfold ReadCall.output ReadCall.requestedApp
  split_ifs
  · rfl
  · simp [prepSocketState]

end Steps

end Elua.Uip
