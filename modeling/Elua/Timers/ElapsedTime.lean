import Mathlib.Data.Nat.Notation
import Mathlib.Order.Lattice
import Mathlib.Tactic.NormNum
import Mathlib.Tactic.Ring

/-!
# Elapsed time between two readings of a timer

A timer of `common_tmr.c` is a hardware timer, a virtual timer or the system timer. Each counts
ticks from 0 to a maximum, and its readings wrap around. `platformTimerGetDiffUs` computes the
elapsed microseconds between two readings, correcting a wrap with the maximum count plus one, in the
type `timer_data_type` of 32 or 64 bits.

`elapsedRight_iff_noHarmfulWrap` says exactly when the result is the true elapsed time for readings
with at most one wrap between them: whenever the counter has not wrapped; and if it has, within a
period never for the system timer, whose readings repeat after the maximum, and for the others
unless the maximum plus one overflows the type; and after a period only where the period that is
lost makes no difference. -/

set_option autoImplicit false
set_option relaxedAutoImplicit false

namespace Elua.Timers

/-! ### Timers -/

/-- The two widths of `timer_data_type`. -/
inductive TimerWidth
  | w32 | w64
  deriving DecidableEq, Repr

/-- The number of bits of `timer_data_type`. -/
def TimerWidth.bits : TimerWidth → ℕ
  | .w32 => 32
  | .w64 => 64

/-- `PLATFORM_TIMER_SYS_MAX`. -/
def platformTimerSysMax : TimerWidth → ℕ
  | .w32 => 2 ^ 32 - 2
  | .w64 => 2 ^ 52 - 2

/-- `VTMR_MAX_PERIOD`. -/
def vtmrMaxPeriod : ℕ := 2 ^ 32 - 1

/-- `PLATFORM_TIMER_SYS_FREQ`. -/
def platformTimerSysFreq : ℕ := 1000000

/-- A clock frequency. -/
@[ext]
structure ClockHz where
  hz : ℕ
  hz_pos : 0 < hz
  hz_lt : hz < 2 ^ 32

instance : DecidableEq ClockHz :=
  fun first second ↦ decidable_of_iff (first.hz = second.hz) ClockHz.ext_iff.symm

/-- A timer: a hardware timer with the clock and the maximum count of its counter (16 or 32 bits on
every platform), a virtual timer counting at `VTMR_FREQ_HZ`, or the system timer. -/
inductive Timer
  | hardware (clock : ClockHz) (maxCnt : Fin (2 ^ 32))
  | virtual (clock : ClockHz)
  | system
  deriving DecidableEq

/-- `platform_timer_op` with `PLATFORM_TIMER_OP_GET_CLOCK`. -/
def Timer.getClock : Timer → ℕ
  | .hardware clock _ | .virtual clock => clock.hz
  | .system => platformTimerSysFreq

/-- `platform_timer_op` with `PLATFORM_TIMER_OP_GET_MAX_CNT`. -/
def Timer.getMaxCnt (w : TimerWidth) : Timer → ℕ
  | .hardware _ maxCnt => maxCnt
  | .virtual _ => vtmrMaxPeriod
  | .system => platformTimerSysMax w

/-- The scaling of a number of ticks to microseconds, in 64 bits. -/
def ticksToUs (freq elapsed : ℕ) : ℕ :=
  if freq = 1000000 then elapsed else elapsed * 1000000 % 2 ^ 64 / freq

/-- `platform_timer_get_diff_us`. The maximum plus one is computed in `timer_data_type`, the rest in
64 bits. -/
def platformTimerGetDiffUs (w : TimerWidth) (timer : Timer) (tstart tend : ℕ) : ℕ :=
  let freq := timer.getClock % 2 ^ 32
  let tend := if tend < tstart then
    (tend + (timer.getMaxCnt w + 1) % 2 ^ w.bits) % 2 ^ 64 else tend
  min (ticksToUs freq ((tend + (2 ^ 64 - tstart)) % 2 ^ 64)) (platformTimerSysMax w)

/-! ### Readings -/

/-- How often the system timer has wrapped after a number of microseconds. It goes from the maximum
back to 1. -/
def systimerWraps (w : TimerWidth) (time : ℕ) : ℕ := (time - 1) / platformTimerSysMax w

/-- What the system timer reads after a number of microseconds. -/
def systimerReading (w : TimerWidth) (time : ℕ) : ℕ :=
  time - systimerWraps w time * platformTimerSysMax w

/-- How often a timer has wrapped after a number of ticks. -/
def Timer.wraps (w : TimerWidth) (timer : Timer) (ticks : ℕ) : ℕ :=
  match timer with
  | .system => systimerWraps w ticks
  | _ => ticks / (timer.getMaxCnt w + 1)

/-- What a timer reads after a number of ticks. -/
def Timer.reading (w : TimerWidth) (timer : Timer) (ticks : ℕ) : ℕ :=
  match timer with
  | .system => systimerReading w ticks
  | _ => ticks % (timer.getMaxCnt w + 1)

/-- The number of ticks between two wraps. -/
def Timer.period (w : TimerWidth) (timer : Timer) : ℕ :=
  match timer with
  | .system => platformTimerSysMax w
  | _ => timer.getMaxCnt w + 1

/-- At most one wrap lies between the readings. -/
def WithinOneWrap (w : TimerWidth) (timer : Timer) (start later : ℕ) : Prop :=
  start ≤ later ∧ timer.wraps w later ≤ timer.wraps w start + 1

/-- The microseconds between two tick counts, rounded down. -/
def elapsedUs (timer : Timer) (start later : ℕ) : ℕ := (later - start) * 1000000 / timer.getClock

/-- The computed difference is the true elapsed time, capped. -/
def ElapsedRight (w : TimerWidth) (timer : Timer) (start later : ℕ) : Prop :=
  platformTimerGetDiffUs w timer (timer.reading w start) (timer.reading w later) =
    min (elapsedUs timer start later) (platformTimerSysMax w)

instance (w : TimerWidth) (timer : Timer) (start later : ℕ) :
    Decidable (ElapsedRight w timer start later) :=
  inferInstanceAs (Decidable (_ = _))

/-- The counter has not wrapped in between, or within a period it is not the system timer and the
maximum plus one fits the type, or the elapsed time reaches the cap, or after a period the time does
so without the period or is the same without it. -/
def NoHarmfulWrap (w : TimerWidth) (timer : Timer) (start later : ℕ) : Prop :=
  timer.wraps w later = timer.wraps w start ∨
    later - start < timer.period w ∧ timer ≠ .system ∧ (timer.getMaxCnt w + 1 < 2 ^ w.bits ∨
      platformTimerSysMax w ≤ elapsedUs timer start later) ∨
    timer.period w ≤ later - start ∧
      (platformTimerSysMax w ≤ elapsedUs timer (start + timer.period w) later ∨
        elapsedUs timer (start + timer.period w) later = elapsedUs timer start later)

/-! ### The computation -/

/-- Scaling is exact while the product fits 64 bits. -/
theorem ticksToUs_eq {freq elapsed : ℕ} (hfits : elapsed * 1000000 < 2 ^ 64) :
    ticksToUs freq elapsed = elapsed * 1000000 / freq := by
  unfold ticksToUs
  split_ifs with hfreq
  · rw [hfreq, Nat.mul_div_cancel _ (by norm_num)]
  · rw [Nat.mod_eq_of_lt hfits]

theorem Timer.getClock_pos (timer : Timer) : 0 < timer.getClock := by
  cases timer with
  | hardware clock maxCnt => exact clock.hz_pos
  | virtual clock => exact clock.hz_pos
  | system => exact Nat.succ_pos _

theorem Timer.getClock_lt (timer : Timer) : timer.getClock < 2 ^ 32 := by
  cases timer with
  | hardware clock maxCnt => exact clock.hz_lt
  | virtual clock => exact clock.hz_lt
  | system => exact (by norm_num : 1000000 < 2 ^ 32)

/-- The counters of hardware and virtual timers have at most 32 bits. -/
theorem Timer.getMaxCnt_lt {timer : Timer} (hcounter : timer ≠ .system) (w : TimerWidth) :
    timer.getMaxCnt w < 2 ^ 32 := by
  cases timer with
  | hardware clock maxCnt => exact maxCnt.isLt
  | virtual clock => exact (by norm_num [vtmrMaxPeriod] : vtmrMaxPeriod < 2 ^ 32)
  | system => exact absurd rfl hcounter

variable {w : TimerWidth} {timer : Timer} {start later : ℕ}

/-- Without a wrap the difference of the readings is scaled. -/
theorem platformTimerGetDiffUs_of_le {tstart tend : ℕ} (hle : tstart ≤ tend)
    (htend : tend < 2 ^ 64) :
    platformTimerGetDiffUs w timer tstart tend =
      min (ticksToUs timer.getClock (tend - tstart)) (platformTimerSysMax w) := by
  have hdiff : (tend + (2 ^ 64 - tstart)) % 2 ^ 64 = tend - tstart := by omega
  unfold platformTimerGetDiffUs
  dsimp only
  rw [if_neg (Nat.not_lt_of_le hle), hdiff, Nat.mod_eq_of_lt timer.getClock_lt]

/-- After a wrap one period is added, if the maximum plus one fits the type. -/
theorem platformTimerGetDiffUs_of_gt {tstart tend : ℕ} (hgt : tend < tstart)
    (hperiod : timer.getMaxCnt w + 1 < 2 ^ w.bits) (hstart : tstart ≤ timer.getMaxCnt w)
    (hmax : timer.getMaxCnt w < 2 ^ 52) :
    platformTimerGetDiffUs w timer tstart tend =
      min (ticksToUs timer.getClock (tend + (timer.getMaxCnt w + 1) - tstart))
        (platformTimerSysMax w) := by
  have hsum : (tend + (timer.getMaxCnt w + 1)) % 2 ^ 64 = tend + (timer.getMaxCnt w + 1) :=
    Nat.mod_eq_of_lt (by omega)
  have hdiff : (tend + (timer.getMaxCnt w + 1) + (2 ^ 64 - tstart)) % 2 ^ 64 =
      tend + (timer.getMaxCnt w + 1) - tstart := by omega
  unfold platformTimerGetDiffUs
  dsimp only
  rw [if_pos hgt, Nat.mod_eq_of_lt hperiod, hsum, hdiff, Nat.mod_eq_of_lt timer.getClock_lt]

/-- A multiple of a number just below a modulus is just below the modulus again. -/
theorem sub_mul_mod {modulus back factor : ℕ} (hback : 0 < back) (hfactor : 0 < factor)
    (hle : back * factor ≤ modulus) :
    (modulus - back) * factor % modulus = modulus - back * factor := by
  have hpositive : 0 < back * factor := Nat.mul_pos hback hfactor
  obtain ⟨factor, rfl⟩ := Nat.exists_eq_succ_of_ne_zero (Nat.ne_of_gt hfactor)
  rw [Nat.sub_mul, Nat.mul_succ modulus, Nat.add_sub_assoc hle, Nat.mul_add_mod]
  exact Nat.mod_eq_of_lt (Nat.sub_lt (Nat.lt_of_lt_of_le hpositive hle) hpositive)

/-- If the maximum plus one overflows the type, the difference after a wrap is far too large. -/
theorem elapsed_lt_ticksToUs {freq back : ℕ} (hfreq : 0 < freq) (hlt : freq < 2 ^ 32)
    (hback : 0 < back) (hsmall : back < 2 ^ 32) :
    (2 ^ 32 - back) * 1000000 / freq < ticksToUs freq (2 ^ 64 - back) := by
  unfold ticksToUs
  split_ifs with hmicro
  · rw [hmicro, Nat.mul_div_cancel _ (by norm_num)]
    omega
  · have htrue := Nat.div_mul_le_self ((2 ^ 32 - back) * 1000000) freq
    rw [sub_mul_mod hback (by norm_num) (by omega), ← Nat.succ_le_iff, Nat.le_div_iff_mul_le hfreq,
      Nat.succ_mul]
    omega

/-- A result that is too large is right exactly where the elapsed time reaches the cap. -/
theorem min_eq_min_iff_of_lt {computed elapsed cap : ℕ} (hlt : elapsed < computed) :
    min computed cap = min elapsed cap ↔ cap ≤ elapsed := by
  constructor
  · intro heq
    by_contra hbelow
    rw [Nat.min_eq_left (Nat.le_of_not_le hbelow)] at heq
    have hmore : elapsed < min computed cap := Nat.lt_min.mpr ⟨hlt, Nat.lt_of_not_le hbelow⟩
    exact absurd heq (Nat.ne_of_gt hmore)
  · intro hcap
    rw [Nat.min_eq_right hcap, Nat.min_eq_right (Nat.le_trans hcap (Nat.le_of_lt hlt))]

/-- A result that is too small is right exactly where it reaches the cap, or is the time itself. -/
theorem min_eq_min_iff_of_le {computed elapsed cap : ℕ} (hle : computed ≤ elapsed) :
    min computed cap = min elapsed cap ↔ cap ≤ computed ∨ computed = elapsed := by
  rcases Nat.eq_or_lt_of_le hle with rfl | hlt
  · exact iff_of_true rfl (.inr rfl)
  · rw [or_iff_left (Nat.ne_of_lt hlt), eq_comm]
    exact min_eq_min_iff_of_lt hlt

/-! ### Hardware and virtual timers -/

/-- The readings of a counter less than one period apart, without a wrap. -/
theorem counter_of_wraps_eq {period : ℕ} (hle : start ≤ later)
    (hwraps : later / period = start / period) :
    start % period ≤ later % period ∧ later % period - start % period = later - start := by
  have hstart := Nat.div_add_mod start period
  have hlater := Nat.div_add_mod later period
  rw [hwraps] at hlater
  omega

/-- The readings of a counter less than one period apart, with a wrap. -/
theorem counter_of_wraps_ne {period : ℕ} (hperiod : 0 < period) (hle : start ≤ later)
    (hlt : later - start < period) (hwraps : later / period ≠ start / period) :
    later % period < start % period ∧
      later % period + period - start % period = later - start := by
  have hstart := Nat.div_add_mod start period
  have hlater := Nat.div_add_mod later period
  have hmod := Nat.mod_lt start hperiod
  have hmod' := Nat.mod_lt later hperiod
  have hnext : later / period = start / period + 1 := by
    have hge : start / period < later / period :=
      Nat.lt_of_le_of_ne (Nat.div_le_div_right hle) (Ne.symm hwraps)
    refine Nat.le_antisymm ?_ hge
    rw [← Nat.add_div_right start hperiod]
    exact Nat.div_le_div_right (by omega)
  rw [hnext, Nat.mul_succ] at hlater
  omega

/-- The readings of a counter a period or more apart, with one wrap. -/
theorem counter_of_period_le {period : ℕ} (hperiod : 0 < period) (hlong : start + period ≤ later)
    (hone : later / period ≤ start / period + 1) :
    start % period ≤ later % period ∧
      later % period - start % period = later - (start + period) := by
  have hstart := Nat.div_add_mod start period
  have hlater := Nat.div_add_mod later period
  have hnext : later / period = start / period + 1 := by
    refine Nat.le_antisymm hone ?_
    rw [← Nat.add_div_right start hperiod]
    exact Nat.div_le_div_right hlong
  rw [hnext, Nat.mul_succ] at hlater
  omega

/-- Hardware and virtual timers, a period or more apart: the period is lost. -/
theorem counter_elapsedRight_iff_of_period_le (hcounter : timer ≠ .system) {period : ℕ}
    (hperiod : period = timer.getMaxCnt w + 1) (hlong : start + period ≤ later)
    (hone : later / period ≤ start / period + 1) :
    platformTimerGetDiffUs w timer (start % period) (later % period) =
        min (elapsedUs timer start later) (platformTimerSysMax w) ↔
      platformTimerSysMax w ≤ elapsedUs timer (start + period) later ∨
        elapsedUs timer (start + period) later = elapsedUs timer start later := by
  have hmax := timer.getMaxCnt_lt hcounter w
  have hpositive : 0 < period := by omega
  have hlater := Nat.mod_lt later hpositive
  obtain ⟨hreadings, hdiff⟩ := counter_of_period_le hpositive hlong hone
  rw [platformTimerGetDiffUs_of_le hreadings (by omega), hdiff, ticksToUs_eq (by omega)]
  refine min_eq_min_iff_of_le (Nat.div_le_div_right (Nat.mul_le_mul_right _ ?_))
  exact Nat.sub_le_sub_left (Nat.le_add_right ..) _

/-- Hardware and virtual timers: the difference is right unless the counter wraps, the maximum plus
one overflows the type, and the elapsed time is below the cap. -/
theorem counter_elapsedRight_iff (hcounter : timer ≠ .system) {period : ℕ}
    (hperiod : period = timer.getMaxCnt w + 1) (hle : start ≤ later)
    (hlt : later - start < period) :
    platformTimerGetDiffUs w timer (start % period) (later % period) =
        min (elapsedUs timer start later) (platformTimerSysMax w) ↔
      later / period = start / period ∨ timer.getMaxCnt w + 1 < 2 ^ w.bits ∨
        platformTimerSysMax w ≤ elapsedUs timer start later := by
  have hmax := timer.getMaxCnt_lt hcounter w
  have hpositive : 0 < period := by omega
  have hstart := Nat.mod_lt start hpositive
  have hlater := Nat.mod_lt later hpositive
  unfold elapsedUs
  by_cases hwraps : later / period = start / period
  · obtain ⟨hreadings, hdiff⟩ := counter_of_wraps_eq hle hwraps
    rw [platformTimerGetDiffUs_of_le hreadings (by omega), hdiff, ticksToUs_eq (by omega)]
    exact iff_of_true rfl (.inl hwraps)
  · obtain ⟨hreadings, hdiff⟩ := counter_of_wraps_ne hpositive hle hlt hwraps
    by_cases hfits : timer.getMaxCnt w + 1 < 2 ^ w.bits
    · rw [platformTimerGetDiffUs_of_gt hreadings hfits (by omega) (by omega), ← hperiod, hdiff,
        ticksToUs_eq (by omega)]
      exact iff_of_true rfl (.inr (.inl (hperiod ▸ hfits)))
    · -- the type has 32 bits, and the maximum plus one is zero in it
      have hfull : timer.getMaxCnt w + 1 = 2 ^ 32 ∧ 2 ^ w.bits = 2 ^ 32 := by
        cases w with
        | w32 =>
          change ¬ timer.getMaxCnt .w32 + 1 < 2 ^ 32 at hfits
          exact ⟨by omega, rfl⟩
        | w64 =>
          change ¬ timer.getMaxCnt .w64 + 1 < 2 ^ 64 at hfits
          omega
      rw [hfull.1] at hperiod
      subst hperiod
      have hcomputed : platformTimerGetDiffUs w timer (start % 2 ^ 32) (later % 2 ^ 32) =
          min (ticksToUs timer.getClock (2 ^ 64 - (start % 2 ^ 32 - later % 2 ^ 32)))
            (platformTimerSysMax w) := by
        have hsame : (later % 2 ^ 32 + (timer.getMaxCnt w + 1) % 2 ^ w.bits) % 2 ^ 64 =
            later % 2 ^ 32 := by
          rw [hfull.1, hfull.2]
          omega
        unfold platformTimerGetDiffUs
        dsimp only
        rw [if_pos hreadings, hsame, Nat.mod_eq_of_lt timer.getClock_lt]
        congr 2
        omega
      have hback : 2 ^ 32 - (start % 2 ^ 32 - later % 2 ^ 32) = later - start := by omega
      have htoo := elapsed_lt_ticksToUs timer.getClock_pos timer.getClock_lt
        (Nat.sub_pos_of_lt hreadings) (by omega)
      rw [hback] at htoo
      rw [hcomputed, min_eq_min_iff_of_lt htoo]
      exact ⟨fun hcap ↦ .inr (.inr hcap), fun hcases ↦
        (hcases.resolve_left hwraps).resolve_left hfits⟩

/-! ### The system timer -/

theorem platformTimerSysMax_bounds (w : TimerWidth) :
    2 ^ 32 - 2 ≤ platformTimerSysMax w ∧ platformTimerSysMax w ≤ 2 ^ 52 - 2 ∧
      platformTimerSysMax w + 1 < 2 ^ w.bits := by
  cases w with
  | w32 => exact ⟨by decide, by decide, by decide⟩
  | w64 => exact ⟨by decide, by decide, by decide⟩

/-- The readings are those of a counter with the period `PLATFORM_TIMER_SYS_MAX`, one ahead of it.
-/
theorem systimerReading_succ (w : TimerWidth) (time : ℕ) :
    systimerReading w (time + 1) = time % platformTimerSysMax w + 1 := by
  have hdiv := Nat.div_add_mod time (platformTimerSysMax w)
  unfold systimerReading systimerWraps
  rw [Nat.add_sub_cancel, Nat.mul_comm]
  omega

theorem systimerReading_le (w : TimerWidth) (time : ℕ) :
    systimerReading w time ≤ platformTimerSysMax w := by
  obtain ⟨hmin, -, -⟩ := platformTimerSysMax_bounds w
  cases time with
  | zero => exact Nat.le_trans (Nat.sub_le ..) (Nat.zero_le _)
  | succ time =>
    rw [systimerReading_succ]
    exact Nat.mod_lt time (by omega)

/-- The readings of the system timer without a wrap. -/
theorem systimer_of_wraps_eq (hle : start ≤ later)
    (hwraps : systimerWraps w later = systimerWraps w start) :
    systimerReading w start ≤ systimerReading w later ∧
      systimerReading w later - systimerReading w start = later - start := by
  have hstart := Nat.div_mul_le_self (start - 1) (platformTimerSysMax w)
  have hlater := Nat.div_mul_le_self (later - 1) (platformTimerSysMax w)
  unfold systimerReading
  rw [hwraps]
  unfold systimerWraps at *
  rw [hwraps] at hlater
  omega

/-- The readings of the system timer with a wrap, less than a period apart. -/
theorem systimer_of_wraps_ne (hle : start ≤ later)
    (hlt : later - start < platformTimerSysMax w)
    (hwraps : systimerWraps w later ≠ systimerWraps w start) :
    systimerReading w later < systimerReading w start ∧
      systimerReading w later + platformTimerSysMax w - systimerReading w start =
        later - start := by
  cases start with
  | zero =>
    have hzero : systimerWraps w later = 0 := Nat.div_eq_of_lt (by omega)
    exact absurd (hzero.trans (Nat.zero_div _).symm) hwraps
  | succ start =>
    cases later with
    | zero => omega
    | succ later =>
      have hcounter := counter_of_wraps_ne (by omega) (by omega : start ≤ later) (by omega)
        (show later / platformTimerSysMax w ≠ start / platformTimerSysMax w from hwraps)
      rw [systimerReading_succ, systimerReading_succ]
      omega

/-- The readings of the system timer a period or more apart, with one wrap. -/
theorem systimer_of_period_le (hlong : start + platformTimerSysMax w ≤ later)
    (hone : systimerWraps w later ≤ systimerWraps w start + 1)
    (hwraps : systimerWraps w later ≠ systimerWraps w start) :
    systimerReading w start ≤ systimerReading w later ∧ systimerReading w later -
      systimerReading w start = later - (start + platformTimerSysMax w) := by
  obtain ⟨hmin, -, -⟩ := platformTimerSysMax_bounds w
  cases start with
  | zero =>
    have hzero : systimerWraps w 0 = 0 := Nat.zero_div _
    have hnext : systimerWraps w later = 1 := by omega
    have hreading : systimerReading w 0 = 0 := Nat.zero_sub _
    rw [hreading, systimerReading, hnext, Nat.one_mul]
    omega
  | succ start =>
    cases later with
    | zero => omega
    | succ later =>
      have hcounter := counter_of_period_le (by omega) (by omega)
        (show later / platformTimerSysMax w ≤ start / platformTimerSysMax w + 1 from hone)
      rw [systimerReading_succ, systimerReading_succ]
      omega

/-- The system timer: within a period the difference is right exactly without a wrap, and otherwise
where it reaches the cap without the period. -/
theorem system_elapsedRight_iff (hle : start ≤ later)
    (hone : systimerWraps w later ≤ systimerWraps w start + 1) :
    platformTimerGetDiffUs w .system (systimerReading w start) (systimerReading w later) =
        min (later - start) (platformTimerSysMax w) ↔
      systimerWraps w later = systimerWraps w start ∨
        2 * platformTimerSysMax w ≤ later - start := by
  obtain ⟨hmin, hmax, hbits⟩ := platformTimerSysMax_bounds w
  have hstart := systimerReading_le w start
  have hlater := systimerReading_le w later
  have hmicro : ∀ ticks, ticksToUs Timer.system.getClock ticks = ticks := fun _ ↦ rfl
  by_cases hwraps : systimerWraps w later = systimerWraps w start
  · obtain ⟨hreadings, hdiff⟩ := systimer_of_wraps_eq hle hwraps
    rw [platformTimerGetDiffUs_of_le hreadings (by omega), hmicro, hdiff]
    exact iff_of_true rfl (.inl hwraps)
  rw [or_iff_right hwraps]
  by_cases hlong : start + platformTimerSysMax w ≤ later
  · obtain ⟨hreadings, hdiff⟩ := systimer_of_period_le hlong hone hwraps
    rw [platformTimerGetDiffUs_of_le hreadings (by omega), hmicro, hdiff]
    omega
  · obtain ⟨hreadings, hdiff⟩ := systimer_of_wraps_ne hle (by omega) hwraps
    have hperiod : Timer.system.getMaxCnt w + 1 < 2 ^ w.bits := hbits
    have hsmall : Timer.system.getMaxCnt w < 2 ^ 52 := by
      change platformTimerSysMax w < 2 ^ 52
      omega
    have hreached : Timer.system.getMaxCnt w = platformTimerSysMax w := rfl
    rw [platformTimerGetDiffUs_of_gt hreadings hperiod hstart hsmall, hmicro, hreached]
    omega

/-! ### Every kind of timer -/

/-- A hardware or virtual timer, with at most one wrap. -/
theorem counter_elapsedRight_iff_noHarmfulWrap (hcounter : timer ≠ .system) {period : ℕ}
    (hperiod : period = timer.getMaxCnt w + 1) (hle : start ≤ later)
    (hone : later / period ≤ start / period + 1) :
    platformTimerGetDiffUs w timer (start % period) (later % period) =
        min (elapsedUs timer start later) (platformTimerSysMax w) ↔
      later / period = start / period ∨
        later - start < period ∧ timer ≠ .system ∧ (timer.getMaxCnt w + 1 < 2 ^ w.bits ∨
          platformTimerSysMax w ≤ elapsedUs timer start later) ∨
        period ≤ later - start ∧ (platformTimerSysMax w ≤ elapsedUs timer (start + period) later ∨
          elapsedUs timer (start + period) later = elapsedUs timer start later) := by
  rcases Nat.lt_or_ge (later - start) period with hshort | hlong
  · rw [counter_elapsedRight_iff hcounter hperiod hle hshort]
    simp [hcounter, hshort, Nat.not_le_of_lt hshort]
  · have hwraps : later / period ≠ start / period := by
      have hnext := Nat.add_div_right start (show 0 < period by omega)
      have hmono := Nat.div_le_div_right (c := period) (show start + period ≤ later by omega)
      omega
    rw [counter_elapsedRight_iff_of_period_le hcounter hperiod (by omega) hone]
    simp [hwraps, hlong, Nat.not_lt_of_le hlong]

/-- For readings with at most one wrap between them, the computed difference is the true elapsed
time, rounded down and capped, exactly when no wrap does harm. -/
theorem elapsedRight_iff_noHarmfulWrap (w : TimerWidth) (timer : Timer) (start later : ℕ)
    (hone : WithinOneWrap w timer start later) :
    ElapsedRight w timer start later ↔ NoHarmfulWrap w timer start later := by
  cases timer with
  | hardware clock maxCnt =>
    exact counter_elapsedRight_iff_noHarmfulWrap (by simp) rfl hone.1 hone.2
  | virtual clock => exact counter_elapsedRight_iff_noHarmfulWrap (by simp) rfl hone.1 hone.2
  | system =>
    have hus : ∀ first, elapsedUs .system first later = later - first :=
      fun first ↦ Nat.mul_div_cancel _ (Timer.getClock_pos .system)
    obtain ⟨hmin, -, -⟩ := platformTimerSysMax_bounds w
    have hle := hone.1
    unfold ElapsedRight NoHarmfulWrap
    rw [hus, hus]
    refine (system_elapsedRight_iff hle hone.2).trans (or_congr Iff.rfl ?_)
    simp only [ne_eq, not_true_eq_false, false_and, and_false, false_or, Timer.period]
    omega

end Elua.Timers
