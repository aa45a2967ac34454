import Elua.Timers.ElapsedTime
import Elua.Foundation.TransitionSystem
import Mathlib.Data.List.Basic

/-!
# The generic system timer and delays on it

`cmn_systimer_periodic` adds to a count of microseconds from an interrupt, and `cmn_systimer_get`
adds the raw counter of the hardware to it, reading again as long as an interrupt comes in between,
and takes the maximum off a count that has passed it. `systimerSystem` runs these, recording for
every reading the true time of the moment that it is a reading of.

As long as the timer is read with no interrupt pending and before the count passes twice its maximum,
every reading is `systimerReading` of its time (`readingsRight_of_readInTime`). `platformTimerDelay`
waits on such readings; `neverEarly_iff` says exactly when it waits long enough.
-/

set_option autoImplicit false
set_option relaxedAutoImplicit false

namespace Elua.Timers

open Foundation TransitionSystem

/-! ### Reading the timer -/

/-- `cmn_systimer_ticks_for_us` and `cmn_systimer_us_per_interrupt`. -/
structure SystimerConfig where
  ticksForUs : ℕ
  usPerInterrupt : ℕ
  usPerInterrupt_pos : 0 < usPerInterrupt

/-- A moment: the number of interrupts so far, the raw counter of the hardware, and whether it has
wrapped with the interrupt for that still pending. -/
structure Moment where
  interrupts : ℕ
  raw : ℕ
  pending : Bool
  deriving DecidableEq

/-- The true time of a moment, in microseconds. -/
def SystimerConfig.time (config : SystimerConfig) (moment : Moment) : ℕ :=
  (moment.interrupts + moment.pending.toNat) * config.usPerInterrupt +
    moment.raw / config.ticksForUs

/-- `cmn_systimer_periodic`, on `cmn_systimer_counter`, a count of 64 bits. -/
def cmnSystimerPeriodic (config : SystimerConfig) (counter : ℕ) : ℕ :=
  counter + config.usPerInterrupt

/-- One pass of the reading loop: the moment at which the raw counter is read, and that at which the
count is read again. -/
structure SystimerPass where
  rawRead : Moment
  counterRead : Moment
  deriving DecidableEq

/-- A call of `cmn_systimer_get`: the moment of its first read, its passes, and the moment at which
it disables the interrupt. -/
structure SystimerCall where
  first : Moment
  passes : List SystimerPass
  finish : Moment
  deriving DecidableEq

/-- The moments of the passes come one after the other, counted in interrupts. -/
def PassesOrdered : ℕ → List SystimerPass → ℕ → Prop
  | interrupts, [], finish => interrupts ≤ finish
  | interrupts, pass :: passes, finish =>
    interrupts ≤ pass.rawRead.interrupts ∧
      pass.rawRead.interrupts ≤ pass.counterRead.interrupts ∧
      PassesOrdered pass.counterRead.interrupts passes finish

/-- The moments of a call come one after the other, from a number of interrupts on. -/
def SystimerCall.Ordered (call : SystimerCall) (interrupts : ℕ) : Prop :=
  interrupts ≤ call.first.interrupts ∧
    PassesOrdered call.first.interrupts call.passes call.finish.interrupts

/-- The loop of `cmn_systimer_get`: reads until the count stays the same over a pass. The result is
the count, with the moment at which the raw counter was read. -/
def systimerSample (counterAt : ℕ → ℕ) (tempsys : ℕ) : List SystimerPass → Option (ℕ × Moment)
  | [] => none
  | pass :: passes =>
    let crtsys := counterAt pass.counterRead.interrupts
    if crtsys = tempsys then some (crtsys, pass.rawRead)
    else systimerSample counterAt crtsys passes

/-- The count `cmn_systimer_counter`, with the number of interrupts it has been brought up to. -/
structure Systimer where
  counter : ℕ
  interrupts : ℕ
  deriving DecidableEq

/-- The count after a number of interrupts. -/
def Systimer.counterAt (config : SystimerConfig) (state : Systimer) (interrupts : ℕ) : ℕ :=
  (cmnSystimerPeriodic config)^[interrupts - state.interrupts] state.counter

/-- What a call of `cmn_systimer_get` samples. -/
def Systimer.sample (config : SystimerConfig) (state : Systimer) (call : SystimerCall) :
    Option (ℕ × Moment) :=
  systimerSample (state.counterAt config) (state.counterAt config call.first.interrupts) call.passes

/-- `cmn_systimer_get`: the value, the moment it belongs to, and the timer. -/
def cmnSystimerGet (w : TimerWidth) (config : SystimerConfig) (state : Systimer)
    (call : SystimerCall) : Option (ℕ × Moment × Systimer) :=
  (state.sample config call).map fun (counted, moment) ↦
    let crtsys := counted + moment.raw / config.ticksForUs
    if platformTimerSysMax w < crtsys then
      let counter := state.counterAt config call.finish.interrupts
      let counter := if platformTimerSysMax w < counter then counter - platformTimerSysMax w
        else counter
      ((crtsys - platformTimerSysMax w) % 2 ^ w.bits, moment, ⟨counter, call.finish.interrupts⟩)
    else (crtsys % 2 ^ w.bits, moment, state)

/-! ### Runs -/

/-- The timer, with the true time and the value of every reading so far. -/
structure SystimerWorld where
  timer : Systimer
  log : List (ℕ × ℕ)

/-- The readings of the system timer, from its start. Time does not run backwards. -/
def systimerSystem (w : TimerWidth) (config : SystimerConfig) :
    TransitionSystem SystimerWorld SystimerCall where
  initial := fun world ↦ world = ⟨⟨0, 0⟩, []⟩
  step := fun world call after ↦ call.Ordered world.timer.interrupts ∧
    ∃ value moment timer, cmnSystimerGet w config world.timer call = some (value, moment, timer) ∧
      (∀ reading ∈ world.log, reading.1 ≤ config.time moment) ∧
      after = ⟨timer, world.log ++ [(config.time moment, value)]⟩

/-- No interrupt is pending when the timer is read, and the count has not passed twice its maximum.
-/
def ReadInTime (w : TimerWidth) (config : SystimerConfig) (world : SystimerWorld)
    (call : SystimerCall) : Prop :=
  ∀ counted moment, world.timer.sample config call = some (counted, moment) →
    moment.pending = false ∧
      counted + moment.raw / config.ticksForUs ≤ 2 * platformTimerSysMax w

/-! ### What a reading is -/

variable {w : TimerWidth} {config : SystimerConfig}

theorem iterate_cmnSystimerPeriodic (config : SystimerConfig) (count counter : ℕ) :
    (cmnSystimerPeriodic config)^[count] counter = counter + count * config.usPerInterrupt := by
  induction count generalizing counter with
  | zero => rw [Nat.zero_mul]; rfl
  | succ count ih => rw [Function.iterate_succ_apply, ih, cmnSystimerPeriodic, Nat.succ_mul]; ring

/-- The count is the true time without the maxima taken off. -/
def Systimer.Counts (w : TimerWidth) (config : SystimerConfig) (state : Systimer) (reduced : ℕ) :
    Prop :=
  state.counter + reduced * platformTimerSysMax w = state.interrupts * config.usPerInterrupt ∧
    (0 < reduced → 0 < state.counter)

theorem Systimer.Counts.counterAt {state : Systimer} {reduced interrupts : ℕ}
    (hcounts : state.Counts w config reduced) (hlater : state.interrupts ≤ interrupts) :
    state.counterAt config interrupts + reduced * platformTimerSysMax w =
      interrupts * config.usPerInterrupt ∧
        (0 < reduced → 0 < state.counterAt config interrupts) := by
  obtain ⟨later, rfl⟩ := Nat.exists_eq_add_of_le hlater
  unfold Systimer.counterAt
  rw [Nat.add_sub_cancel_left, iterate_cmnSystimerPeriodic, Nat.add_mul, ← hcounts.1]
  refine ⟨by ring, fun hreduced ↦ ?_⟩
  exact Nat.lt_of_lt_of_le (hcounts.2 hreduced) (Nat.le_add_right ..)

/-- The count at two moments is the same only if no interrupt comes in between. -/
theorem Systimer.eq_of_counterAt_eq {state : Systimer} {first second : ℕ}
    (hfirst : state.interrupts ≤ first) (hle : first ≤ second)
    (hsame : state.counterAt config second = state.counterAt config first) : second = first := by
  unfold Systimer.counterAt at hsame
  rw [iterate_cmnSystimerPeriodic, iterate_cmnSystimerPeriodic, Nat.add_left_cancel_iff] at hsame
  have hcancel := Nat.mul_right_cancel config.usPerInterrupt_pos hsame
  omega

theorem PassesOrdered.le {passes : List SystimerPass} {interrupts finish : ℕ}
    (hordered : PassesOrdered interrupts passes finish) : interrupts ≤ finish := by
  induction passes generalizing interrupts with
  | nil => exact hordered
  | cons pass passes ih =>
    exact Nat.le_trans hordered.1 (Nat.le_trans hordered.2.1 (ih hordered.2.2))

/-- The count sampled is the count at the moment at which the raw counter was read. -/
theorem counted_of_systimerSample {state : Systimer} {passes : List SystimerPass}
    {interrupts finish counted : ℕ} {moment : Moment} (hlater : state.interrupts ≤ interrupts)
    (hordered : PassesOrdered interrupts passes finish)
    (hsample : systimerSample (state.counterAt config) (state.counterAt config interrupts) passes =
      some (counted, moment)) :
    counted = state.counterAt config moment.interrupts ∧ state.interrupts ≤ moment.interrupts ∧
      state.interrupts ≤ finish := by
  induction passes generalizing interrupts with
  | nil => cases hsample
  | cons pass passes ih =>
    obtain ⟨hraw, hcounter, hrest⟩ := hordered
    unfold systimerSample at hsample
    dsimp only at hsample
    split_ifs at hsample with hsame
    · -- the count has not changed over the pass, so no interrupt came in it
      obtain ⟨rfl, rfl⟩ := Prod.mk.inj (Option.some.inj hsample)
      have hstill := state.eq_of_counterAt_eq hlater (Nat.le_trans hraw hcounter) hsame
      have hmoment : pass.rawRead.interrupts = pass.counterRead.interrupts := by omega
      have hfinish := hrest.le
      rw [hmoment]
      exact ⟨rfl, by omega, by omega⟩
    · exact ih (by omega) hrest hsample

/-- A count with a number of maxima taken off, as the reading of its time. -/
theorem systimerReading_add {count reduced : ℕ} (hcount : count ≤ platformTimerSysMax w)
    (hpositive : 0 < reduced → 0 < count) :
    systimerReading w (count + reduced * platformTimerSysMax w) = count := by
  cases count with
  | zero =>
    obtain rfl : reduced = 0 := by
      by_contra hne
      exact Nat.lt_irrefl 0 (hpositive (Nat.pos_of_ne_zero hne))
    rw [Nat.zero_mul]
    exact Nat.eq_zero_of_le_zero (Nat.sub_le ..)
  | succ count =>
    rw [Nat.add_right_comm, systimerReading_succ, Nat.add_mul_mod_self_right,
      Nat.mod_eq_of_lt hcount]

/-- Taking a maximum off the count at some later moment, if it has passed it, keeps the count. -/
theorem Systimer.Counts.reduce {state : Systimer} {reduced interrupts : ℕ}
    (hcounts : state.Counts w config reduced) (hlater : state.interrupts ≤ interrupts) :
    ∃ reduced, Systimer.Counts w config
      ⟨if platformTimerSysMax w < state.counterAt config interrupts then
          state.counterAt config interrupts - platformTimerSysMax w
        else state.counterAt config interrupts, interrupts⟩ reduced := by
  obtain ⟨hcount, hpositive⟩ := hcounts.counterAt hlater
  split_ifs with hreduce
  · refine ⟨reduced + 1, ?_, fun _ ↦ Nat.sub_pos_of_lt hreduce⟩
    dsimp only
    rw [Nat.succ_mul, ← hcount]
    omega
  · exact ⟨reduced, hcount, hpositive⟩

/-- A call in time returns the reading of its moment. -/
theorem Systimer.Counts.get {state timer : Systimer} {reduced value : ℕ} {call : SystimerCall}
    {moment : Moment} (hcounts : state.Counts w config reduced)
    (hordered : call.Ordered state.interrupts)
    (hget : cmnSystimerGet w config state call = some (value, moment, timer))
    (hintime : ∀ counted moment, state.sample config call = some (counted, moment) →
      moment.pending = false ∧
        counted + moment.raw / config.ticksForUs ≤ 2 * platformTimerSysMax w) :
    value = systimerReading w (config.time moment) ∧ ∃ reduced, timer.Counts w config reduced := by
  obtain ⟨-, -, hbits⟩ := platformTimerSysMax_bounds w
  obtain ⟨⟨counted, sampled⟩, hsample, heq⟩ := Option.map_eq_some_iff.mp hget
  obtain ⟨hcounted, hmoment, hfinish⟩ :=
    counted_of_systimerSample hordered.1 hordered.2 hsample
  obtain ⟨hsum, hpositive⟩ := hcounts.counterAt hmoment
  rw [← hcounted] at hsum hpositive
  obtain ⟨hpending, hbound⟩ := hintime counted sampled hsample
  have htime : config.time sampled = counted + sampled.raw / config.ticksForUs +
      reduced * platformTimerSysMax w := by
    unfold SystimerConfig.time
    rw [hpending, Bool.toNat_false, Nat.add_zero, ← hsum]
    ring
  dsimp only at heq
  by_cases hover : platformTimerSysMax w < counted + sampled.raw / config.ticksForUs
  · rw [if_pos hover] at heq
    obtain ⟨rfl, hrest⟩ := Prod.mk.inj heq
    obtain ⟨rfl, rfl⟩ := Prod.mk.inj hrest
    refine ⟨?_, hcounts.reduce hfinish⟩
    have hshift : config.time sampled =
        counted + sampled.raw / config.ticksForUs - platformTimerSysMax w +
          (reduced + 1) * platformTimerSysMax w := by
      rw [htime, Nat.succ_mul]
      omega
    rw [hshift, systimerReading_add (by omega) (fun _ ↦ by omega)]
    exact Nat.mod_eq_of_lt (by omega)
  · rw [if_neg hover] at heq
    obtain ⟨rfl, hrest⟩ := Prod.mk.inj heq
    obtain ⟨rfl, rfl⟩ := Prod.mk.inj hrest
    refine ⟨?_, reduced, hcounts⟩
    have hpassed : 0 < reduced → 0 < counted + sampled.raw / config.ticksForUs := fun hreduced ↦
      Nat.lt_of_lt_of_le (hpositive hreduced) (Nat.le_add_right ..)
    rw [htime, systimerReading_add (Nat.le_of_not_lt hover) hpassed]
    exact Nat.mod_eq_of_lt (by omega)

/-- Every reading is that of its time, and the times do not run backwards. -/
structure ReadingsRight (w : TimerWidth) (log : List (ℕ × ℕ)) : Prop where
  readings : ∀ reading ∈ log, reading.2 = systimerReading w reading.1
  times : log.Pairwise fun first second ↦ first.1 ≤ second.1

/-- In every run that reads the timer in time, the readings are those of their times. -/
theorem readingsRight_of_readInTime {world : SystimerWorld}
    (hreach : (systimerSystem w config).ReachableUnder (ReadInTime w config) world) :
    ReadingsRight w world.log := by
  have hinvariant : (∃ reduced, world.timer.Counts w config reduced) ∧
      ReadingsRight w world.log := by
    refine hreach.invariant (fun world ↦ (∃ reduced, world.timer.Counts w config reduced) ∧
      ReadingsRight w world.log) ?_ ?_
    · rintro _ rfl
      refine ⟨⟨0, ?_, fun hreduced ↦ absurd hreduced (Nat.lt_irrefl 0)⟩, ⟨?_, .nil⟩⟩
      · rw [Nat.zero_mul, Nat.zero_mul]
      · exact fun _ hmem ↦ absurd hmem List.not_mem_nil
    · rintro state call _ ⟨⟨reduced, hcounts⟩, hlog⟩ hintime
        ⟨hordered, value, moment, timer, hget, hlatest, rfl⟩
      obtain ⟨hvalue, hnext⟩ := hcounts.get hordered hget hintime
      refine ⟨hnext, ⟨?_, ?_⟩⟩
      · exact List.forall_mem_append.mpr ⟨hlog.readings, List.forall_mem_singleton.mpr hvalue⟩
      · refine List.pairwise_append.mpr ⟨hlog.times, List.pairwise_singleton _ _, ?_⟩
        intro reading hreading last hlast
        rw [List.mem_singleton.mp hlast]
        exact hlatest reading hreading
  exact hinvariant.2

/-! ### Delays -/

/-- Whether `platform_timer_delay` on the system timer returns at a reading. -/
def delayReturns (w : TimerWidth) (delayUs tstart reading : ℕ) : Bool :=
  let tend := if reading < tstart then reading + (platformTimerSysMax w + 1) else reading
  delayUs ≤ tend - tstart

/-- The loop of `platform_timer_delay`: the number of readings before the one it returns at. -/
def delayLoop (w : TimerWidth) (delayUs tstart : ℕ) : List ℕ → Option ℕ
  | [] => none
  | reading :: readings =>
    if delayReturns w delayUs tstart reading then some 0
    else (delayLoop w delayUs tstart readings).map (· + 1)

/-- `platform_timer_delay` on the system timer: the position in the list of readings of the one it
returns at. The first reading is the start. -/
def platformTimerDelay (w : TimerWidth) (delayUs : ℕ) (readings : List ℕ) : Option ℕ :=
  if delayUs = 0 then some 0
  else match readings with
    | [] => none
    | tstart :: readings => (delayLoop w delayUs tstart readings).map (· + 1)

/-- The delay does not return before its time has passed since its first reading. Readings are given
with their times. -/
def NeverEarly (w : TimerWidth) (delayUs : ℕ) (log : List (ℕ × ℕ)) : Prop :=
  ∀ position start last, platformTimerDelay w delayUs (log.map (·.2)) = some position →
    log.head? = some start → log[position]? = some last → delayUs ≤ last.1 - start.1

/-- The timer is not read one microsecond before the end of the delay with a wrap since the start.
-/
def NoReadingJustBefore (w : TimerWidth) (delayUs : ℕ) (log : List (ℕ × ℕ)) : Prop :=
  ∀ start last, log.head? = some start → last ∈ log →
    systimerWraps w last.1 ≠ systimerWraps w start.1 →
    last.1 - start.1 < platformTimerSysMax w → last.1 - start.1 + 1 ≠ delayUs

theorem delayLoop_eq_findIdx? (delayUs tstart : ℕ) (readings : List ℕ) :
    delayLoop w delayUs tstart readings = readings.findIdx? (delayReturns w delayUs tstart) := by
  induction readings with
  | nil => rfl
  | cons reading readings ih => rw [delayLoop, List.findIdx?_cons, ih]

/-- The delay returns early at a reading exactly one microsecond before its end, after a wrap. -/
theorem returns_early_iff {delayUs start last : ℕ} (hle : start ≤ last) :
    delayReturns w delayUs (systimerReading w start) (systimerReading w last) = true ∧
        last - start < delayUs ↔
      systimerWraps w last ≠ systimerWraps w start ∧ last - start < platformTimerSysMax w ∧
        last - start + 1 = delayUs := by
  have hstart := systimerReading_le w start
  have hlast := systimerReading_le w last
  unfold delayReturns
  dsimp only
  rw [decide_eq_true_eq]
  by_cases hwraps : systimerWraps w last = systimerWraps w start
  · obtain ⟨hreadings, hdiff⟩ := systimer_of_wraps_eq hle hwraps
    rw [if_neg (Nat.not_lt_of_le hreadings), hdiff]
    exact iff_of_false (fun hearly ↦ by omega) fun hjust ↦ hjust.1 hwraps
  · by_cases hlt : last - start < platformTimerSysMax w
    · obtain ⟨hreadings, hdiff⟩ := systimer_of_wraps_ne hle hlt hwraps
      rw [if_pos hreadings]
      constructor
      · exact fun hearly ↦ ⟨hwraps, hlt, by omega⟩
      · exact fun hjust ↦ by omega
    · refine iff_of_false (fun hearly ↦ ?_) fun hjust ↦ hlt hjust.2.1
      split_ifs at hearly <;> omega

/-- The delay is never early exactly when no reading that it would return at is early: the one it
does return at is the first. -/
theorem neverEarly_cons_iff {delayUs : ℕ} {start : ℕ × ℕ} {rest : List (ℕ × ℕ)}
    (htimes : (start :: rest).Pairwise fun first second ↦ first.1 ≤ second.1) :
    NeverEarly w delayUs (start :: rest) ↔
      ∀ last ∈ rest, delayReturns w delayUs start.2 last.2 = true → delayUs ≤ last.1 - start.1 := by
  by_cases hzero : delayUs = 0
  · subst hzero
    exact iff_of_true (fun _ _ _ _ _ _ ↦ Nat.zero_le _) fun _ _ _ ↦ Nat.zero_le _
  have hposition : ∀ position, platformTimerDelay w delayUs ((start :: rest).map (·.2)) =
      some position ↔ ∃ index, (rest.map (·.2)).findIdx? (delayReturns w delayUs start.2) =
        some index ∧ index + 1 = position := by
    intro position
    unfold platformTimerDelay
    rw [if_neg hzero, List.map_cons]
    dsimp only
    rw [delayLoop_eq_findIdx?, Option.map_eq_some_iff]
  constructor
  · intro hnever last hlast hreturns
    obtain ⟨index, hindex⟩ : ∃ index, (rest.map (·.2)).findIdx? (delayReturns w delayUs start.2) =
        some index := by
      rw [← Option.isSome_iff_exists, List.findIdx?_isSome, List.any_eq_true]
      exact ⟨last.2, List.mem_map_of_mem hlast, hreturns⟩
    obtain ⟨hlt, -, hfirst⟩ := List.findIdx?_eq_some_iff_getElem.mp hindex
    rw [List.length_map] at hlt
    have hreached := hnever (index + 1) start rest[index] ((hposition _).mpr ⟨index, hindex, rfl⟩)
      rfl (List.getElem?_eq_getElem hlt)
    obtain ⟨place, hplace, rfl⟩ := List.getElem_of_mem hlast
    have hle : index ≤ place := by
      by_contra hbefore
      have hnot := hfirst place (Nat.lt_of_not_le hbefore)
      rw [List.getElem_map] at hnot
      exact hnot hreturns
    have hsorted := (List.pairwise_cons.mp htimes).2
    have htime : rest[index].1 ≤ rest[place].1 := by
      obtain heq | hlt := Nat.eq_or_lt_of_le hle
      · subst heq
        exact Nat.le_refl _
      · exact List.pairwise_iff_getElem.mp hsorted index place _ hplace hlt
    omega
  · rintro hreached position _ last hdelay ⟨⟩ hlast
    obtain ⟨index, hindex, rfl⟩ := (hposition position).mp hdelay
    obtain ⟨hlt, hreturns, -⟩ := List.findIdx?_eq_some_iff_getElem.mp hindex
    rw [List.length_map] at hlt
    rw [List.getElem_map] at hreturns
    rw [List.getElem?_cons_succ, List.getElem?_eq_getElem hlt] at hlast
    obtain rfl := Option.some.inj hlast
    exact hreached _ (List.getElem_mem hlt) hreturns

/-- On readings that are right, the delay is never early exactly when no reading comes just before
its end after a wrap. -/
theorem neverEarly_iff {delayUs : ℕ} {log : List (ℕ × ℕ)} (hlog : ReadingsRight w log) :
    NeverEarly w delayUs log ↔ NoReadingJustBefore w delayUs log := by
  cases log with
  | nil => exact iff_of_true (fun _ _ _ _ hstart ↦ by cases hstart) fun _ _ hstart ↦ by cases hstart
  | cons start rest =>
    obtain ⟨hreadings, htimes⟩ := hlog
    have hstart := hreadings start List.mem_cons_self
    have hlater : ∀ last ∈ rest, start.1 ≤ last.1 := (List.pairwise_cons.mp htimes).1
    have hreturn : ∀ last ∈ rest, delayReturns w delayUs start.2 last.2 = true ∧
        last.1 - start.1 < delayUs ↔ systimerWraps w last.1 ≠ systimerWraps w start.1 ∧
          last.1 - start.1 < platformTimerSysMax w ∧ last.1 - start.1 + 1 = delayUs := by
      intro last hlast
      rw [hstart, hreadings last (List.mem_cons_of_mem _ hlast)]
      exact returns_early_iff (hlater last hlast)
    rw [neverEarly_cons_iff htimes]
    constructor
    · rintro hnever _ last ⟨⟩ hlast hwraps hlt hjust
      obtain rfl | hlast := List.mem_cons.mp hlast
      · exact hwraps rfl
      · obtain ⟨hreturns, hearly⟩ := (hreturn last hlast).mpr ⟨hwraps, hlt, hjust⟩
        exact absurd (hnever last hlast hreturns) (Nat.not_le_of_lt hearly)
    · intro hno last hlast hreturns
      by_contra hearly
      obtain ⟨hwraps, hlt, hjust⟩ := (hreturn last hlast).mp ⟨hreturns, Nat.lt_of_not_le hearly⟩
      exact hno start last rfl (List.mem_cons_of_mem _ hlast) hwraps hlt hjust

theorem ReadingsRight.sublist {log readings : List (ℕ × ℕ)} (hlog : ReadingsRight w log)
    (hsublist : readings.Sublist log) : ReadingsRight w readings where
  readings := fun reading hreading ↦ hlog.readings reading (hsublist.mem hreading)
  times := hlog.times.sublist hsublist

/-! ### Elapsed time and delays -/

/-- Elapsed times are right exactly without a harmful wrap. In every run that reads the system timer
in time the readings are those of their times, and a delay on some of them is never early exactly
when none of them comes just before its end after a wrap. -/
theorem elapsedRight_and_neverEarly (w : TimerWidth) :
    (∀ timer start later, WithinOneWrap w timer start later →
      (ElapsedRight w timer start later ↔ NoHarmfulWrap w timer start later)) ∧
    ∀ config world, (systimerSystem w config).ReachableUnder (ReadInTime w config) world →
      (∀ reading ∈ world.log, reading.2 = systimerReading w reading.1) ∧
        ∀ delayUs readings, readings.Sublist world.log →
          (NeverEarly w delayUs readings ↔ NoReadingJustBefore w delayUs readings) := by
  refine ⟨elapsedRight_iff_noHarmfulWrap w, fun config world hreach ↦ ?_⟩
  have hlog := readingsRight_of_readInTime hreach
  exact ⟨hlog.readings, fun _ _ hsublist ↦ neverEarly_iff (hlog.sublist hsublist)⟩

/-! ### One microsecond -/

/-- A virtual timer counting four times a second. -/
def quarterSecondTimer : Timer := .virtual ⟨4, by decide, by decide⟩

/-- A system timer with an interrupt every millisecond. -/
def millisecondInterrupts : SystimerConfig := ⟨1, 1000, by decide⟩

/-- A call of `cmn_systimer_get` without an interrupt. -/
def SystimerCall.undisturbed (moment : Moment) : SystimerCall :=
  ⟨moment, [⟨moment, moment⟩], moment⟩

theorem SystimerCall.undisturbed_ordered {moment : Moment} {interrupts : ℕ}
    (hlater : interrupts ≤ moment.interrupts) :
    (SystimerCall.undisturbed moment).Ordered interrupts :=
  ⟨hlater, Nat.le_refl _, Nat.le_refl _, Nat.le_refl _⟩

theorem sample_undisturbed (config : SystimerConfig) (state : Systimer) (moment : Moment) :
    state.sample config (.undisturbed moment) =
      some (state.counterAt config moment.interrupts, moment) :=
  if_pos rfl

theorem Systimer.counterAt_eq (config : SystimerConfig) (state : Systimer) (interrupts : ℕ) :
    state.counterAt config interrupts =
      state.counter + (interrupts - state.interrupts) * config.usPerInterrupt :=
  iterate_cmnSystimerPeriodic ..

/-- A call without an interrupt that finds no more than the maximum. -/
theorem get_undisturbed_of_le {state : Systimer} {moment : Moment} {value : ℕ}
    (hvalue : state.counterAt config moment.interrupts + moment.raw / config.ticksForUs = value)
    (hle : value ≤ platformTimerSysMax w) :
    cmnSystimerGet w config state (.undisturbed moment) = some (value, moment, state) := by
  obtain ⟨-, -, hbits⟩ := platformTimerSysMax_bounds w
  rw [cmnSystimerGet, sample_undisturbed, Option.map_some]
  dsimp only
  rw [hvalue, if_neg (Nat.not_lt_of_le hle), Nat.mod_eq_of_lt (by omega)]

/-- A call without an interrupt that finds more than the maximum in the raw counter only. -/
theorem get_undisturbed_of_gt {state : Systimer} {moment : Moment} {count value : ℕ}
    (hcount : state.counterAt config moment.interrupts = count)
    (hle : count ≤ platformTimerSysMax w)
    (hvalue : count + moment.raw / config.ticksForUs = value + platformTimerSysMax w)
    (hpositive : 0 < value) (hbelow : value ≤ platformTimerSysMax w) :
    cmnSystimerGet w config state (.undisturbed moment) =
      some (value, moment, ⟨count, moment.interrupts⟩) := by
  obtain ⟨-, -, hbits⟩ := platformTimerSysMax_bounds w
  have hfinish : state.counterAt config (SystimerCall.undisturbed moment).finish.interrupts =
      count := hcount
  rw [cmnSystimerGet, sample_undisturbed, hcount, Option.map_some]
  dsimp only
  rw [hvalue, if_pos (by omega), hfinish, if_neg (Nat.not_lt_of_le hle), Nat.add_sub_cancel,
    Nat.mod_eq_of_lt (by omega)]
  rfl

theorem time_millisecondInterrupts (interrupts raw : ℕ) :
    millisecondInterrupts.time ⟨interrupts, raw, false⟩ = interrupts * 1000 + raw := by
  rw [SystimerConfig.time]
  exact congrArg _ (Nat.div_one raw)

/-- The timer just before and just after it wraps for the first time. -/
def wrappedWorld : SystimerWorld :=
  ⟨⟨4294967000, 4294967⟩, [(4294967294, 4294967294), (4294967295, 1)]⟩

theorem reachable_wrappedWorld :
    (systimerSystem .w32 millisecondInterrupts).ReachableUnder
      (ReadInTime .w32 millisecondInterrupts) wrappedWorld := by
  have hmax : platformTimerSysMax .w32 = 4294967294 := rfl
  have hticks : millisecondInterrupts.ticksForUs = 1 := rfl
  have hcount : Systimer.counterAt millisecondInterrupts ⟨0, 0⟩ 4294967 = 4294967000 := by
    rw [Systimer.counterAt_eq]
    rfl
  have hfirst : cmnSystimerGet .w32 millisecondInterrupts ⟨0, 0⟩ (.undisturbed ⟨4294967, 294, false⟩) =
      some (4294967294, ⟨4294967, 294, false⟩, ⟨0, 0⟩) := by
    refine get_undisturbed_of_le ?_ (Nat.le_of_eq hmax.symm)
    simp only [hticks, hcount, Nat.div_one, Nat.reduceAdd]
  have hsecond : cmnSystimerGet .w32 millisecondInterrupts ⟨0, 0⟩ (.undisturbed ⟨4294967, 295, false⟩) =
      some (1, ⟨4294967, 295, false⟩, ⟨4294967000, 4294967⟩) := by
    refine get_undisturbed_of_gt hcount (by omega) ?_ Nat.one_pos (by omega)
    simp only [hticks, hmax, Nat.div_one, Nat.reduceAdd]
  have hintime : ∀ log raw, raw ≤ 1000 → ReadInTime .w32 millisecondInterrupts ⟨⟨0, 0⟩, log⟩
      (.undisturbed ⟨4294967, raw, false⟩) := by
    intro log raw hraw counted moment hsample
    rw [sample_undisturbed, hcount] at hsample
    obtain ⟨rfl, rfl⟩ := Prod.mk.inj (Option.some.inj hsample)
    rw [hmax, hticks, Nat.div_one]
    refine ⟨rfl, ?_⟩
    dsimp only
    omega
  have hstart : (systimerSystem .w32 millisecondInterrupts).ReachableUnder
      (ReadInTime .w32 millisecondInterrupts) ⟨⟨0, 0⟩, []⟩ := .start rfl
  have hbefore : (systimerSystem .w32 millisecondInterrupts).ReachableUnder
      (ReadInTime .w32 millisecondInterrupts) ⟨⟨0, 0⟩, [(4294967294, 4294967294)]⟩ := by
    refine hstart.andThen (.undisturbed ⟨4294967, 294, false⟩) (hintime _ 294 (by decide))
      ⟨SystimerCall.undisturbed_ordered (Nat.zero_le _), 4294967294, ⟨4294967, 294, false⟩, ⟨0, 0⟩,
        hfirst, fun _ hmem ↦ absurd hmem List.not_mem_nil, ?_⟩
    rw [time_millisecondInterrupts]
    rfl
  refine hbefore.andThen (.undisturbed ⟨4294967, 295, false⟩) (hintime _ 295 (by decide))
    ⟨SystimerCall.undisturbed_ordered (Nat.zero_le _), 1, ⟨4294967, 295, false⟩, ⟨4294967000, 4294967⟩,
      hsecond, ?_, ?_⟩
  · rw [time_millisecondInterrupts]
    exact List.forall_mem_singleton.mpr (by decide)
  · rw [time_millisecondInterrupts]
    rfl

/-- A wrap of a virtual timer is right in 64 bits, and a delay of three microseconds over a wrap of
the system timer is not early. -/
theorem elapsedRight_and_neverEarly_wrapped :
    ElapsedRight .w64 quarterSecondTimer (2 ^ 32 - 1) (2 ^ 32) ∧
      NeverEarly .w32 3 wrappedWorld.log := by
  refine ⟨((elapsedRight_and_neverEarly .w64).1 quarterSecondTimer _ _ ⟨by decide, by decide⟩).mpr
    (.inr (.inl ⟨by decide, by decide, .inl (by decide)⟩)), ?_⟩
  refine (((elapsedRight_and_neverEarly .w32).2 millisecondInterrupts wrappedWorld
    reachable_wrappedWorld).2 3 _ (.refl _)).mpr ?_
  rintro _ last ⟨⟩ hlast - - hjust
  revert last
  decide

/-- One tick over a wrap of a virtual timer comes out as the maximum in 32 bits. One microsecond
over a wrap of the system timer is enough for a delay of two. -/
theorem wraps_go_wrong :
    (¬ ∀ (w : TimerWidth) (timer : Timer) (start later : ℕ), WithinOneWrap w timer start later →
      ElapsedRight w timer start later) ∧
    ¬ ∀ (w : TimerWidth) (config : SystimerConfig) (world : SystimerWorld),
      (systimerSystem w config).Reachable world → ∀ delayUs readings,
        readings.Sublist world.log → NeverEarly w delayUs readings := by
  constructor
  · intro hall
    have hright := hall .w32 quarterSecondTimer (2 ^ 32 - 1) (2 ^ 32) ⟨by decide, by decide⟩
    exact absurd hright (by decide)
  · intro hall
    have hnever := hall .w32 millisecondInterrupts wrappedWorld reachable_wrappedWorld.reachable 2
      wrappedWorld.log (.refl _)
    exact absurd (hnever 1 (4294967294, 4294967294) (4294967295, 1) rfl rfl rfl) (by decide)

end Elua.Timers
