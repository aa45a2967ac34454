import Elua.Timers.VirtualTimer
import Elua.Foundation.TransitionSystem

/-!
# Match interrupts of virtual timers

`vtmrSystem` runs any calls from the foreground on the virtual timers, with ticks between any two of
their accesses. It records, for every timer that a call of `vtmr_set_match_int` has armed, how many
ticks have come since the one that reset its counter, at which of them a match interrupt was queued,
and at which of them the interrupt flag became set (`Arming`).

An arming fires on time if these are the ticks it is due at (`Arming.OnTime`). Whether it does
depends on the moments of the ticks (`TickTimely`) and on what the foreground does to a one-shot
timer that has fired (`StatementTimely`). `Counting` is what holds of a timer after the reset of its
counter, and a tick at a good moment keeps it (`Counting.count`). -/

set_option autoImplicit false
set_option relaxedAutoImplicit false

namespace Elua.Timers

open Foundation TransitionSystem

variable {n : ℕ}

/-! ### Armings -/

/-- An arming of a timer: its period in ticks and its type, whether the call has still to enable the
interrupt, and the number of ticks since the reset of the counter. A match interrupt queued and a
rise of the flag are recorded with the number of the tick, or `none` up to the reset and outside of
a tick. -/
structure Arming where
  limit : ℕ
  cyclic : Bool
  enabling : Bool
  ticks : Option ℕ
  queued : List (Option ℕ)
  raised : List (Option ℕ)
  deriving DecidableEq

/-- The ticks up to a number at which the match interrupt is due. -/
def Arming.due (arming : Arming) (ticks : ℕ) : List ℕ :=
  if arming.cyclic then (List.range (ticks / arming.limit)).map fun index ↦ (index + 1) * arming.limit
  else if arming.limit ≤ ticks then [arming.limit] else []

/-- No match interrupt is queued and the flag does not become set up to the reset. After it, match
interrupts are queued at the ticks they are due at and at no other, and the flag becomes set at no
other. -/
def Arming.OnTime (arming : Arming) : Prop :=
  match arming.ticks with
  | none => arming.queued = [] ∧ arming.raised = []
  | some ticks => arming.queued = (arming.due ticks).map some ∧
      ∀ tick ∈ arming.raised, tick ∈ (arming.due ticks).map some

/-- Records whether a match interrupt was queued and whether the flag became set. -/
def Arming.record (arming : Arming) (label : Option ℕ) (queues before after : Bool) : Arming :=
  { arming with
    queued := arming.queued ++ if queues then [label] else []
    raised := arming.raised ++ if !before && after then [label] else [] }

/-- The number of the next tick, counted from the reset on. -/
def Arming.nextTick (arming : Arming) : Option ℕ := arming.ticks.map (· + 1)

/-- Counts a tick, which may be the one of the reset. -/
def Arming.advance (arming : Arming) (reset : Bool) : Arming :=
  { arming with ticks := match arming.ticks with
    | none => if reset then some 0 else none
    | some ticks => some (ticks + 1) }

/-- The accesses that end an arming: those that arm, disarm, restart or disable the timer. -/
def Statement.ends (id : Fin n) : Statement n → Bool
  | .setPeriodLimit other _ | .setPeriodic other _ | .requestReset other | .storeEnabled other false =>
    other == id
  | _ => false

/-- What an access does to the arming in force of a timer. One begins when its limit is stored. -/
def Statement.arm (id : Fin n) (arming : Option Arming) : Statement n → Option Arming
  | .setPeriodLimit other final =>
    if other = id then some ⟨final, false, true, none, [], []⟩ else arming
  | .setPeriodic other value =>
    if other = id then arming.map ({ · with cyclic := value }) else arming
  | .storeEnabled other value =>
    if other = id ∧ value then arming.map ({ · with enabling := false }) else arming
  | _ => arming

/-! ### Runs -/

/-- The machine, with the armings in force. -/
structure VtmrWorld (n : ℕ) where
  machine : Machine n
  armed : Fin n → Option Arming

/-- What happens: a call begins, the foreground makes its next access, or a tick comes. -/
inductive VtmrEvent (n : ℕ)
  | call (call : VtmrCall n)
  | access
  | tick

/-- The flag of a timer. -/
def Machine.flag (machine : Machine n) (id : Fin n) : Bool := (machine.vtmr.timers id).flag

/-- The arming of a timer after a tick. -/
def Arming.tick (arming : Arming) (before : Machine n) (id : Fin n) : Arming :=
  (arming.record arming.nextTick ((cmnVirtualTimerCb before.vtmr).1.contains id) (before.flag id)
    (before.tick.flag id)).advance (before.vtmr.resetIdx == some id)

/-- One event. A call begins when the foreground has nothing else to do. -/
def vtmrStep (w : TimerWidth) (freqHz : ℕ) (world : VtmrWorld n) :
    VtmrEvent n → Option (VtmrWorld n)
  | .call call =>
    if world.machine.program = [] then
      let program := call.statements w freqHz
      some ⟨{ world.machine with program := program },
        fun id ↦ if program.any (·.ends id) then none else world.armed id⟩
    else none
  | .access => do
    let statement ← world.machine.program.head?
    let machine ← world.machine.run
    return ⟨machine, fun id ↦ statement.arm id ((world.armed id).map
      (·.record none false (world.machine.flag id) (machine.flag id)))⟩
  | .tick =>
    some ⟨world.machine.tick, fun id ↦ (world.armed id).map (·.tick world.machine id)⟩

/-- At the start all variables are zero and there is no reset to make. -/
def VtmrWorld.initial (n : ℕ) : VtmrWorld n :=
  ⟨⟨⟨fun _ ↦ ⟨0, 0, false, false, false⟩, none⟩, [], fun _ ↦ false, false⟩, fun _ ↦ none⟩

/-- The virtual timers under any calls and ticks. -/
def vtmrSystem (n : ℕ) (w : TimerWidth) (freqHz : ℕ) :
    TransitionSystem (VtmrWorld n) (VtmrEvent n) :=
  ofFunction (· = .initial n) (vtmrStep w freqHz)

/-- Every arming in force fires on time. -/
def FiresOnTime (world : VtmrWorld n) : Prop :=
  ∀ id arming, world.armed id = some arming → arming.OnTime

/-- A tick that finds the counter of an armed timer about to reach its limit does not come
- before the counter has been reset, unless the flag is set and the interrupt disabled;
- before the call has enabled the interrupt, unless the timer is cyclic and still enabled;
- after a one-shot timer has fired, unless the flag is still set;
- between the two accesses that write the byte of its enable bit, unless the tick leaves it. -/
structure TickTimely (machine : Machine n) (id : Fin n) (arming : Arming) : Prop where
  reset : arming.ticks = none →
    (machine.vtmr.timers id).flag ∧ ¬ (machine.vtmr.timers id).enabled
  enabled : arming.ticks ≠ none → arming.enabling →
    arming.cyclic ∧ (machine.vtmr.timers id).enabled
  fired : ∀ ticks ∈ arming.ticks, ¬ arming.cyclic → arming.limit ≤ ticks →
    (machine.vtmr.timers id).flag
  writes : ∀ other value, machine.program.head? = some (.storeEnabled other value) →
    SameByte id other → arming.cyclic ∨ ¬ (machine.vtmr.timers id).enabled

/-- The interrupt of a one-shot timer is not enabled after it has fired. -/
def StatementTimely (armed : Fin n → Option Arming) (statement : Statement n) : Prop :=
  ∀ id arming, statement = .storeEnabled id true → armed id = some arming →
    ∀ ticks ∈ arming.ticks, ¬ arming.cyclic → ticks < arming.limit

/-- The events of a run whose armings fire on time. -/
def Timely (world : VtmrWorld n) : VtmrEvent n → Prop
  | .call _ => True
  | .access => ∀ statement ∈ world.machine.program.head?, StatementTimely world.armed statement
  | .tick => ∀ id arming, world.armed id = some arming →
      (world.machine.vtmr.timers id).reaches → TickTimely world.machine id arming

instance (machine : Machine n) (id : Fin n) (arming : Arming) :
    Decidable (TickTimely machine id arming) :=
  decidable_of_iff (
    (arming.ticks = none →
      (machine.vtmr.timers id).flag ∧ ¬ (machine.vtmr.timers id).enabled) ∧
    (arming.ticks ≠ none → arming.enabling →
      arming.cyclic ∧ (machine.vtmr.timers id).enabled) ∧
    (∀ ticks ∈ arming.ticks, ¬ arming.cyclic → arming.limit ≤ ticks →
      (machine.vtmr.timers id).flag) ∧
    ∀ other value, machine.program.head? = some (.storeEnabled other value) →
      SameByte id other → arming.cyclic ∨ ¬ (machine.vtmr.timers id).enabled)
    ⟨fun ⟨hreset, henabled, hfired, hwrites⟩ ↦ ⟨hreset, henabled, hfired, hwrites⟩,
      fun ⟨hreset, henabled, hfired, hwrites⟩ ↦ ⟨hreset, henabled, hfired, hwrites⟩⟩

instance (armed : Fin n → Option Arming) (statement : Statement n) :
    Decidable (StatementTimely armed statement) :=
  decidable_of_iff (∀ id, statement = .storeEnabled id true → ∀ arming ∈ armed id,
    ∀ ticks ∈ arming.ticks, ¬ arming.cyclic → ticks < arming.limit)
    ⟨fun htimely id arming heq ↦ htimely id heq arming,
      fun htimely id heq arming ↦ htimely id arming heq⟩

instance (world : VtmrWorld n) (event : VtmrEvent n) : Decidable (Timely world event) :=
  match event with
  | .call _ => .isTrue trivial
  | .access => inferInstanceAs (Decidable (∀ statement ∈ world.machine.program.head?,
      StatementTimely world.armed statement))
  | .tick => inferInstanceAs (Decidable (∀ id, ∀ arming ∈ world.armed id,
      (world.machine.vtmr.timers id).reaches → TickTimely world.machine id arming))

/-! ### What is due -/

theorem Arming.due_zero {arming : Arming} (hpositive : 0 < arming.limit) : arming.due 0 = [] := by
  unfold Arming.due
  rw [Nat.zero_div, if_neg (Nat.not_le_of_lt hpositive)]
  exact ite_self _

/-- A cyclic timer is due when the remainder has reached the limit. -/
theorem Arming.due_succ_cyclic {arming : Arming} (hcyclic : arming.cyclic = true)
    (hpositive : 0 < arming.limit) (ticks : ℕ) :
    arming.due (ticks + 1) =
      arming.due ticks ++ if ticks % arming.limit + 1 = arming.limit then [ticks + 1] else [] := by
  have hdiv := Nat.div_add_mod ticks arming.limit
  have hmod := Nat.mod_lt ticks hpositive
  unfold Arming.due
  rw [if_pos hcyclic, if_pos hcyclic]
  split_ifs with hfull
  · have hnext : ticks + 1 = (ticks / arming.limit + 1) * arming.limit := by
      rw [Nat.succ_mul, Nat.mul_comm]
      omega
    rw [hnext, Nat.mul_div_cancel _ hpositive, List.range_succ, List.map_append]
    rfl
  · have hsame : (ticks + 1) / arming.limit = ticks / arming.limit := by
      refine Nat.div_eq_of_lt_le ?_ ?_
      · rw [Nat.mul_comm]
        omega
      · rw [Nat.succ_mul, Nat.mul_comm]
        omega
    rw [hsame, List.append_nil]

/-- A one-shot timer is due once. -/
theorem Arming.due_succ_oneshot {arming : Arming} (honce : arming.cyclic = false) (ticks : ℕ) :
    arming.due (ticks + 1) =
      arming.due ticks ++ if ticks + 1 = arming.limit then [ticks + 1] else [] := by
  unfold Arming.due
  simp only [honce, Bool.false_eq_true, if_false]
  by_cases hnow : ticks + 1 = arming.limit
  · rw [if_pos (by omega), if_neg (by omega), if_pos hnow, hnow]
    rfl
  · rw [if_neg hnow, List.append_nil]
    by_cases hfired : arming.limit ≤ ticks
    · rw [if_pos hfired, if_pos (by omega)]
    · rw [if_neg hfired, if_neg (by omega)]

/-! ### A timer after its reset -/

/-- An armed timer, a number of ticks after the reset of its counter. -/
structure Counting (timer : VirtualTimer) (arming : Arming) (ticks : ℕ) : Prop where
  periodLimit : timer.periodLimit = arming.limit
  periodic : timer.periodic = arming.cyclic
  cyclic : arming.cyclic = true → timer.counter = ticks % arming.limit ∧
    (timer.enabled = true ∨ arming.enabling = true ∧ ticks < arming.limit)
  waiting : arming.cyclic = false → ticks < arming.limit → timer.counter = ticks ∧
    (timer.enabled = true ∨ arming.enabling = true)
  fired : arming.cyclic = false → arming.limit ≤ ticks →
    timer.enabled = false ∧ arming.enabling = false

@[simp] theorem count_periodLimit (timer : VirtualTimer) :
    timer.count.periodLimit = timer.periodLimit := by
  unfold VirtualTimer.count
  split_ifs <;> rfl

@[simp] theorem count_periodic (timer : VirtualTimer) : timer.count.periodic = timer.periodic := by
  unfold VirtualTimer.count
  split_ifs <;> rfl

theorem count_flag (timer : VirtualTimer) : timer.count.flag = (timer.reaches || timer.flag) := by
  unfold VirtualTimer.count
  split_ifs with hreaches <;> simp [hreaches]

theorem count_enabled (timer : VirtualTimer) :
    timer.count.enabled = (timer.enabled && (!timer.reaches || timer.periodic)) := by
  unfold VirtualTimer.count
  split_ifs with hreaches hperiodic <;> simp_all

theorem count_counter (timer : VirtualTimer) : timer.count.counter =
    if timer.reaches && timer.periodic then 0 else (timer.counter + 1) % 2 ^ 32 := by
  unfold VirtualTimer.count
  split_ifs with hreaches hperiodic <;> simp_all

theorem flag_tick_eq (machine : Machine n) (id : Fin n) : machine.tick.flag id =
    ((machine.vtmr.timers id).reaches || machine.flag id) := by
  unfold Machine.flag Machine.tick cmnVirtualTimerCb VirtualTimer.resetIf
  dsimp only
  split_ifs <;> exact count_flag _

theorem flag_tick {machine : Machine n} {id : Fin n} (hset : machine.flag id = true) :
    machine.tick.flag id = true := by
  rw [flag_tick_eq, hset, Bool.or_true]

variable {timer : VirtualTimer} {arming : Arming} {ticks : ℕ}

/-- The counter of a cyclic timer is about to reach the limit at the end of a period. -/
theorem Counting.reaches_cyclic (hcounting : Counting timer arming ticks)
    (hcyclic : arming.cyclic = true) (hpositive : 0 < arming.limit)
    (hbounded : arming.limit < 2 ^ 32) :
    timer.reaches = true ↔ ticks % arming.limit + 1 = arming.limit := by
  have hmod := Nat.mod_lt ticks hpositive
  unfold VirtualTimer.reaches
  rw [decide_eq_true_eq, (hcounting.cyclic hcyclic).1, hcounting.periodLimit,
    Nat.mod_eq_of_lt (by omega)]
  omega

/-- The counter of a one-shot timer that has not fired is about to reach the limit at its tick. -/
theorem Counting.reaches_waiting (hcounting : Counting timer arming ticks)
    (honce : arming.cyclic = false) (hbefore : ticks < arming.limit)
    (hbounded : arming.limit < 2 ^ 32) :
    timer.reaches = true ↔ ticks + 1 = arming.limit := by
  unfold VirtualTimer.reaches
  rw [decide_eq_true_eq, (hcounting.waiting honce hbefore).1, hcounting.periodLimit,
    Nat.mod_eq_of_lt (by omega)]
  omega

/-- What a tick must find when the counter is about to reach the limit, after the reset. -/
structure ReachesWell (timer : VirtualTimer) (arming : Arming) (ticks : ℕ) : Prop where
  enabled : arming.enabling = true → arming.cyclic = true ∧ timer.enabled = true
  fired : arming.cyclic = false → arming.limit ≤ ticks → timer.flag = true

/-- A tick queues a match interrupt exactly if one is due. -/
theorem Counting.due_succ (hcounting : Counting timer arming ticks) (hpositive : 0 < arming.limit)
    (hbounded : arming.limit < 2 ^ 32)
    (hwell : timer.reaches = true → ReachesWell timer arming ticks) :
    arming.due (ticks + 1) =
      arming.due ticks ++ if timer.reaches && timer.enabled then [ticks + 1] else [] := by
  cases hcyclic : arming.cyclic with
  | true =>
    have hreaches := hcounting.reaches_cyclic hcyclic hpositive hbounded
    rw [Arming.due_succ_cyclic hcyclic hpositive]
    by_cases hnow : timer.reaches = true
    · have henabled : timer.enabled = true := by
        obtain henabled | ⟨henabling, -⟩ := (hcounting.cyclic hcyclic).2
        · exact henabled
        · exact ((hwell hnow).enabled henabling).2
      rw [if_pos (hreaches.mp hnow), if_pos (by rw [hnow, henabled]; rfl)]
    · rw [if_neg (mt hreaches.mpr hnow), if_neg (by simp [hnow])]
  | false =>
    rw [Arming.due_succ_oneshot hcyclic]
    by_cases hbefore : ticks < arming.limit
    · have hreaches := hcounting.reaches_waiting hcyclic hbefore hbounded
      by_cases hnow : timer.reaches = true
      · have henabled : timer.enabled = true := by
          obtain henabled | henabling := (hcounting.waiting hcyclic hbefore).2
          · exact henabled
          · exact ((hwell hnow).enabled henabling).2
        rw [if_pos (hreaches.mp hnow), if_pos (by rw [hnow, henabled]; rfl)]
      · rw [if_neg (mt hreaches.mpr hnow), if_neg (by simp [hnow])]
    · have hfired := (hcounting.fired hcyclic (Nat.le_of_not_lt hbefore)).1
      rw [if_neg (by omega), if_neg (by simp [hfired])]

/-- The flag becomes set only at a tick at which a match interrupt is due. -/
theorem Counting.mem_due (hcounting : Counting timer arming ticks) (hpositive : 0 < arming.limit)
    (hbounded : arming.limit < 2 ^ 32)
    (hwell : timer.reaches = true → ReachesWell timer arming ticks) (hnow : timer.reaches = true)
    (hclear : timer.flag = false) : ticks + 1 ∈ arming.due (ticks + 1) := by
  cases hcyclic : arming.cyclic with
  | true =>
    have hreaches := hcounting.reaches_cyclic hcyclic hpositive hbounded
    rw [Arming.due_succ_cyclic hcyclic hpositive, if_pos (hreaches.mp hnow)]
    exact List.mem_append_right _ (List.mem_singleton_self _)
  | false =>
    by_cases hbefore : ticks < arming.limit
    · have hreaches := hcounting.reaches_waiting hcyclic hbefore hbounded
      rw [Arming.due_succ_oneshot hcyclic, if_pos (hreaches.mp hnow)]
      exact List.mem_append_right _ (List.mem_singleton_self _)
    · have hset := (hwell hnow).fired hcyclic (Nat.le_of_not_lt hbefore)
      exact absurd (hset.symm.trans hclear) (by decide)

/-- A tick counts on. -/
theorem Counting.count (hcounting : Counting timer arming ticks) (hpositive : 0 < arming.limit)
    (hbounded : arming.limit < 2 ^ 32)
    (hwell : timer.reaches = true → ReachesWell timer arming ticks) :
    Counting timer.count arming (ticks + 1) where
  periodLimit := (count_periodLimit timer).trans hcounting.periodLimit
  periodic := (count_periodic timer).trans hcounting.periodic
  cyclic := by
    intro hcyclic
    have hreaches := hcounting.reaches_cyclic hcyclic hpositive hbounded
    obtain ⟨hcounter, henabled⟩ := hcounting.cyclic hcyclic
    have hdiv := Nat.div_add_mod ticks arming.limit
    have hmod := Nat.mod_lt ticks hpositive
    rw [count_counter, count_enabled, hcounting.periodic, hcyclic, Bool.or_true, Bool.and_true,
      Bool.and_true]
    by_cases hnow : timer.reaches = true
    · have hnext : ticks + 1 = arming.limit * (ticks / arming.limit + 1) := by
        have := hreaches.mp hnow
        rw [Nat.mul_succ]
        omega
      rw [if_pos hnow, hnext, Nat.mul_mod_right]
      refine ⟨rfl, .inl ?_⟩
      obtain henabled | ⟨henabling, -⟩ := henabled
      · exact henabled
      · exact ((hwell hnow).enabled henabling).2
    · have hnot := mt hreaches.mpr hnow
      have hnext : ticks + 1 = arming.limit * (ticks / arming.limit) + (ticks % arming.limit + 1) := by
        omega
      rw [if_neg hnow, hcounter, Nat.mod_eq_of_lt (by omega)]
      refine ⟨?_, henabled.imp_right fun ⟨henabling, hbefore⟩ ↦ ⟨henabling, ?_⟩⟩
      · have hrest : (ticks % arming.limit + 1) % arming.limit = ticks % arming.limit + 1 :=
          Nat.mod_eq_of_lt (by omega)
        rw [hnext, Nat.mul_add_mod, hrest]
      · rw [Nat.mod_eq_of_lt hbefore] at hnot
        omega
  waiting := by
    intro honce hbefore
    obtain ⟨hcounter, henabled⟩ := hcounting.waiting honce (by omega)
    have hnot : timer.reaches = false := by
      have hreaches := hcounting.reaches_waiting honce (by omega) hbounded
      exact Bool.eq_false_iff.mpr (mt hreaches.mp (by omega))
    rw [count_counter, count_enabled, hnot, hcounter, Bool.false_and, Bool.not_false, Bool.true_or,
      Bool.and_true]
    exact ⟨Nat.mod_eq_of_lt (by omega), henabled⟩
  fired := by
    intro honce hafter
    rw [count_enabled, hcounting.periodic, honce, Bool.or_false]
    by_cases hbefore : ticks < arming.limit
    · have hreaches := hcounting.reaches_waiting honce hbefore hbounded
      have hnow : timer.reaches = true := hreaches.mpr (by omega)
      refine ⟨by rw [hnow]; exact Bool.and_false _, Bool.eq_false_iff.mpr fun henabling ↦ ?_⟩
      exact absurd (((hwell hnow).enabled henabling).1.symm.trans honce) (by decide)
    · obtain ⟨henabled, henabling⟩ := hcounting.fired honce (Nat.le_of_not_lt hbefore)
      exact ⟨by rw [henabled]; exact Bool.false_and _, henabling⟩

end Elua.Timers
