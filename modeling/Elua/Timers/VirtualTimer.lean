import Elua.Timers.ElapsedTime
import Mathlib.Data.List.FinRange
import Mathlib.Logic.Function.Basic

/-!
# Virtual timers

The virtual timers of `common_tmr.c`. `cmnVirtualTimerCb` is the tick, which runs in the timer
interrupt of the platform: it counts every timer, and where the counter reaches the period limit it
sets the interrupt flag and queues the match interrupt. The other functions run in the foreground,
and a tick may come between any two of their accesses to the variables that they share with it. So a
call is given as the list of these accesses (`Statement`), and `Machine` runs them one by one.

A bit of `vtmr_int_enabled` or `vtmr_int_flag` is changed by reading its byte and writing it back.
These are two accesses, and the second also writes the bits of the other timers in the byte.
-/

set_option autoImplicit false
set_option relaxedAutoImplicit false

namespace Elua.Timers

/-! ### The tick -/

/-- What belongs to one virtual timer: its elements of `vtmr_counters` and `vtmr_period_limit`, and
its bits of `vtmr_int_periodic_flag`, `vtmr_int_enabled` and `vtmr_int_flag`. -/
structure VirtualTimer where
  counter : ℕ
  periodLimit : ℕ
  periodic : Bool
  enabled : Bool
  flag : Bool
  deriving DecidableEq, Repr

/-- The static variables, with `vtmr_reset_idx`. -/
structure Vtmr (n : ℕ) where
  timers : Fin n → VirtualTimer
  resetIdx : Option (Fin n)

/-- The next count reaches the period limit. -/
def VirtualTimer.reaches (timer : VirtualTimer) : Bool :=
  timer.periodLimit ≤ (timer.counter + 1) % 2 ^ 32

/-- The turn of the loop of `cmn_virtual_timer_cb` for one timer. -/
def VirtualTimer.count (timer : VirtualTimer) : VirtualTimer :=
  let counter := (timer.counter + 1) % 2 ^ 32
  if timer.reaches then
    if timer.periodic then { timer with counter := 0, flag := true }
    else { timer with counter := counter, flag := true, enabled := false }
  else { timer with counter := counter }

/-- The end of `cmn_virtual_timer_cb`: the counter of the timer to reset. -/
def VirtualTimer.resetIf (timer : VirtualTimer) (reset : Bool) : VirtualTimer :=
  if reset then { timer with counter := 0 } else timer

/-- `cmn_virtual_timer_cb`: the timers for which it calls `elua_int_add`, and the variables. -/
def cmnVirtualTimerCb {n : ℕ} (vtmr : Vtmr n) : List (Fin n) × Vtmr n :=
  ((List.finRange n).filter fun id ↦ (vtmr.timers id).reaches && (vtmr.timers id).enabled,
    { timers := fun id ↦ (vtmr.timers id).count.resetIf (vtmr.resetIdx == some id)
      resetIdx := none })

/-! ### Calls from the foreground -/

/-- An access of the foreground to the shared variables. The tick does not touch
`vtmr_int_periodic_flag`, so setting a bit of it is one access. -/
inductive Statement (n : ℕ)
  | setPeriodLimit (id : Fin n) (final : ℕ)
  | setPeriodic (id : Fin n) (value : Bool)
  | loadEnabled
  | storeEnabled (id : Fin n) (value : Bool)
  | loadFlag
  | storeFlag (id : Fin n) (value : Bool)
  | testEnabled (id : Fin n)
  | testFlag (id : Fin n)
  | requestReset (id : Fin n)
  | awaitReset
  | awaitCounter (id : Fin n) (final : ℕ)
  deriving DecidableEq

/-- `PLATFORM_TIMER_INT_ONESHOT` and `PLATFORM_TIMER_INT_CYCLIC`. -/
inductive MatchType
  | oneshot | cyclic
  deriving DecidableEq, Repr

/-- `PLATFORM_TIMER_INT_OK` and the errors for a period. -/
inductive MatchResult
  | ok | tooShort | tooLong
  deriving DecidableEq, Repr

variable {n : ℕ}

/-- `vtmr_reset_timer`. -/
def vtmrResetTimer (id : Fin n) : List (Statement n) := [.requestReset id, .awaitReset]

/-- `vtmr_delay`. -/
def vtmrDelay (w : TimerWidth) (freqHz : ℕ) (id : Fin n) (delayUs : ℕ) : List (Statement n) :=
  if vtmrMaxPeriod < delayUs then []
  else vtmrResetTimer id ++
    [.awaitCounter id (delayUs * freqHz % 2 ^ 64 / 1000000 % 2 ^ w.bits)]

/-- What `vtmr_set_match_int` does after it has stored the period limit. -/
def armTimer (id : Fin n) (type : MatchType) : List (Statement n) :=
  [.setPeriodic id (type == .cyclic), .loadFlag, .storeFlag id false] ++ vtmrResetTimer id ++
    [.loadEnabled, .storeEnabled id true]

/-- `vtmr_set_match_int`. The period in ticks is computed in `timer_data_type`. -/
def vtmrSetMatchInt (w : TimerWidth) (freqHz : ℕ) (id : Fin n) (periodUs : ℕ) (type : MatchType) :
    MatchResult × List (Statement n) :=
  if periodUs = 0 then
    (.ok, [.loadEnabled, .storeEnabled id false, .loadFlag, .storeFlag id false,
      .setPeriodic id false])
  else
    let final := periodUs * freqHz % 2 ^ w.bits / 1000000
    if vtmrMaxPeriod < final then (.tooLong, [])
    else if final = 0 then (.tooShort, [])
    else (.ok, .setPeriodLimit id final :: armTimer id type)

/-- `vtmr_int_get_flag`. -/
def vtmrIntGetFlag (id : Fin n) (clear : Bool) : List (Statement n) :=
  .testFlag id :: if clear then [.loadFlag, .storeFlag id false] else []

/-- `vtmr_int_set_status`. -/
def vtmrIntSetStatus (id : Fin n) (status : Bool) : List (Statement n) :=
  [.testEnabled id, .loadEnabled, .storeEnabled id status]

/-- The calls on virtual timers: of `platform_timer_set_match_int`, of the operation
`PLATFORM_TIMER_OP_START`, of `platform_timer_delay`, and through the interrupt table. -/
inductive VtmrCall (n : ℕ)
  | setMatchInt (id : Fin n) (periodUs : ℕ) (type : MatchType)
  | start (id : Fin n)
  | delay (id : Fin n) (delayUs : ℕ)
  | getFlag (id : Fin n) (clear : Bool)
  | setStatus (id : Fin n) (status : Bool)

/-- The accesses of a call. -/
def VtmrCall.statements (w : TimerWidth) (freqHz : ℕ) : VtmrCall n → List (Statement n)
  | .setMatchInt id periodUs type => (vtmrSetMatchInt w freqHz id periodUs type).2
  | .start id => vtmrResetTimer id
  | .delay id delayUs => vtmrDelay w freqHz id delayUs
  | .getFlag id clear => vtmrIntGetFlag id clear
  | .setStatus id status => vtmrIntSetStatus id status

/-- The variables, the accesses that the foreground has still to make, the bits it has loaded and
the last bit it has tested. -/
structure Machine (n : ℕ) where
  vtmr : Vtmr n
  program : List (Statement n)
  loaded : Fin n → Bool
  tested : Bool

/-- Two timers have their bits in the same byte. -/
def SameByte (first second : Fin n) : Prop := first.val / 8 = second.val / 8

instance (first second : Fin n) : Decidable (SameByte first second) :=
  inferInstanceAs (Decidable (_ = _))

/-- The bits of a byte written back: one is changed, and the others of the byte are as loaded. -/
def writeBack (id : Fin n) (value : Bool) (loaded bits : Fin n → Bool) (other : Fin n) : Bool :=
  if other = id then value else if SameByte other id then loaded other else bits other

/-- Changes one timer. -/
def Vtmr.modify (vtmr : Vtmr n) (id : Fin n) (change : VirtualTimer → VirtualTimer) : Vtmr n :=
  { vtmr with timers := Function.update vtmr.timers id (change (vtmr.timers id)) }

/-- Makes an access. The two waiting loops go on only when what they wait for is there. -/
def Statement.execute (machine : Machine n) : Statement n → Option (Machine n)
  | .setPeriodLimit id final =>
    some { machine with vtmr := machine.vtmr.modify id ({ · with periodLimit := final }) }
  | .setPeriodic id value =>
    some { machine with vtmr := machine.vtmr.modify id ({ · with periodic := value }) }
  | .loadEnabled => some { machine with loaded := fun id ↦ (machine.vtmr.timers id).enabled }
  | .storeEnabled id value =>
    let enabled := writeBack id value machine.loaded fun id ↦ (machine.vtmr.timers id).enabled
    some { machine with
      vtmr.timers := fun id ↦ { machine.vtmr.timers id with enabled := enabled id } }
  | .loadFlag => some { machine with loaded := fun id ↦ (machine.vtmr.timers id).flag }
  | .storeFlag id value =>
    let flag := writeBack id value machine.loaded fun id ↦ (machine.vtmr.timers id).flag
    some { machine with vtmr.timers := fun id ↦ { machine.vtmr.timers id with flag := flag id } }
  | .testEnabled id => some { machine with tested := (machine.vtmr.timers id).enabled }
  | .testFlag id => some { machine with tested := (machine.vtmr.timers id).flag }
  | .requestReset id => some { machine with vtmr.resetIdx := some id }
  | .awaitReset => if machine.vtmr.resetIdx = none then some machine else none
  | .awaitCounter id final =>
    if final ≤ (machine.vtmr.timers id).counter then some machine else none

/-- Makes the next access of the foreground. -/
def Machine.run (machine : Machine n) : Option (Machine n) :=
  match machine.program with
  | [] => none
  | statement :: program => statement.execute { machine with program := program }

/-- A tick. -/
def Machine.tick (machine : Machine n) : Machine n :=
  { machine with vtmr := (cmnVirtualTimerCb machine.vtmr).2 }

end Elua.Timers
