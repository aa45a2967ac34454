import Elua.Timers.MatchRuns
import Mathlib.Logic.Relation

/-!
# The conversion of periods to ticks

`vtmr_set_match_int` and `vtmr_delay` both convert a period in microseconds to ticks of
`VTMR_FREQ_HZ`. `ConvertsExactly` says that the conversion loses nothing: the limit that is stored
is the number of ticks, the two errors are returned exactly for a number of ticks that the counter
cannot reach and for zero ticks, and a delay takes as many ticks.

The match interrupt multiplies in `timer_data_type`, and the delay compares microseconds with the
largest number of ticks. `convertsExactly_iff` gives the periods that this does no harm to. -/

set_option autoImplicit false
set_option relaxedAutoImplicit false

namespace Elua.Timers

open Relation

/-! ### What a conversion must give -/

/-- The whole ticks of a period. -/
def periodTicks (freqHz periodUs : ℕ) : ℕ := periodUs * freqHz / 1000000

section Runs

variable {n : ℕ}

/-- The foreground makes an access, or a tick comes. -/
def Machine.Moves (machine after : Machine n) : Prop :=
  machine.run = some after ∨ after = machine.tick

/-- From the first access of a program on, while the accesses are made and ticks come, the period
limit of a timer is a number of ticks. -/
def StoresLimit (id : Fin n) (program : List (Statement n)) (ticks : ℕ) : Prop :=
  ∀ machine first after : Machine n, machine.program = program → machine.run = some first →
    ReflTransGen Machine.Moves first after → (after.vtmr.timers id).periodLimit = ticks

/-- A program resets a timer that is not periodic, and takes a number of ticks from there on: it
requests the reset, gets it with the next tick, and is over after some more ticks if they are as
many. -/
def TakesTicks (id : Fin n) (program : List (Statement n)) (ticks : ℕ) : Prop :=
  ∀ machine : Machine n, machine.program = program →
    (machine.vtmr.timers id).periodic = false → ∀ count < 2 ^ 32,
      ((machine.run.bind fun requested ↦ requested.tick.run.bind fun reset ↦
        (Machine.tick^[count] reset).run).map (·.program) = some [] ↔ ticks ≤ count)

end Runs

/-- The conversion of a period loses nothing. -/
structure ConvertsExactly (w : TimerWidth) (freqHz periodUs : ℕ) : Prop where
  too_long : ∀ {n : ℕ} (id : Fin n) type,
    (vtmrSetMatchInt w freqHz id periodUs type).1 = .tooLong ↔
      vtmrMaxPeriod < periodTicks freqHz periodUs
  too_short : ∀ {n : ℕ} (id : Fin n) type,
    (vtmrSetMatchInt w freqHz id periodUs type).1 = .tooShort ↔ periodTicks freqHz periodUs = 0
  refused : ∀ {n : ℕ} (id : Fin n) type, (vtmrSetMatchInt w freqHz id periodUs type).1 ≠ .ok →
    (vtmrSetMatchInt w freqHz id periodUs type).2 = []
  stored : ∀ {n : ℕ} (id : Fin n) type, (vtmrSetMatchInt w freqHz id periodUs type).1 = .ok →
    StoresLimit id (vtmrSetMatchInt w freqHz id periodUs type).2 (periodTicks freqHz periodUs)
  delay : ∀ {n : ℕ} (id : Fin n), periodTicks freqHz periodUs ≤ vtmrMaxPeriod →
    TakesTicks id (vtmrDelay w freqHz id periodUs) (periodTicks freqHz periodUs)

/-- The product of a period with the frequency does not overflow `timer_data_type`, or is too long
in any case, and a delay of so many microseconds is not refused. -/
def Convertible (freqHz periodUs : ℕ) : TimerWidth → Prop
  | .w32 => periodUs * freqHz < 2 ^ 32
  | .w64 => (periodUs * freqHz < 2 ^ 64 ∨ 2 ^ 32 * 1000000 ≤ periodUs * freqHz % 2 ^ 64) ∧
      (vtmrMaxPeriod < periodTicks freqHz periodUs ∨ periodUs ≤ vtmrMaxPeriod)

/-! ### Runs of the two calls -/

section Calls

variable {n : ℕ} {id : Fin n}

/-- A tick changes no period limit and makes no timer periodic. -/
theorem tick_limit (machine : Machine n) (id : Fin n) :
    (machine.tick.vtmr.timers id).periodLimit = (machine.vtmr.timers id).periodLimit ∧
      (machine.tick.vtmr.timers id).periodic = (machine.vtmr.timers id).periodic := by
  change ((VirtualTimer.count _).resetIf _).periodLimit = _ ∧
    ((VirtualTimer.count _).resetIf _).periodic = _
  unfold VirtualTimer.resetIf
  split_ifs <;> exact ⟨count_periodLimit _, count_periodic _⟩

/-- An access that stores no limit keeps the limits. -/
theorem periodLimit_execute {machine after : Machine n} {statement : Statement n}
    (hstatement : ∀ other final, statement ≠ .setPeriodLimit other final)
    (hexecute : statement.execute machine = some after) (id : Fin n) :
    (after.vtmr.timers id).periodLimit = (machine.vtmr.timers id).periodLimit := by
  cases statement with
  | setPeriodLimit other final => exact absurd rfl (hstatement other final)
  | setPeriodic other value =>
    obtain rfl := Option.some.inj hexecute
    change (Function.update machine.vtmr.timers other _ id).periodLimit = _
    by_cases hother : id = other
    · subst hother
      rw [Function.update_self]
    · rw [Function.update_of_ne hother]
  | awaitReset | awaitCounter other final =>
    obtain ⟨-, hsame⟩ := Option.ite_none_right_eq_some.mp hexecute
    obtain rfl := Option.some.inj hsame
    rfl
  | loadEnabled | storeEnabled other value | loadFlag | storeFlag other value | testEnabled other
  | testFlag other | requestReset other =>
    obtain rfl := Option.some.inj hexecute
    rfl

/-- A program that begins with storing a limit and stores no other stores it. -/
theorem storesLimit_of_cons {final : ℕ} {rest : List (Statement n)}
    (hrest : ∀ other value, .setPeriodLimit other value ∉ rest) :
    StoresLimit id (.setPeriodLimit id final :: rest) final := by
  intro machine first after hprogram hfirst hmoves
  -- what holds from the first access on
  suffices hkept : (after.vtmr.timers id).periodLimit = final ∧
      ∀ other value, .setPeriodLimit other value ∉ after.program from hkept.1
  induction hmoves with
  | refl =>
    rw [run_of_program hprogram] at hfirst
    obtain rfl := Option.some.inj hfirst
    refine ⟨?_, hrest⟩
    change (Function.update machine.vtmr.timers id _ id).periodLimit = final
    rw [Function.update_self]
  | @tail middle after _ hmove ih =>
    obtain ⟨hlimit, hothers⟩ := ih
    rcases hmove with hrun | rfl
    · cases hcons : middle.program with
      | nil =>
        rw [Machine.run, hcons] at hrun
        cases hrun
      | cons statement program =>
        rw [run_of_program hcons] at hrun
        rw [hcons] at hothers
        have hstatement : ∀ other value, statement ≠ .setPeriodLimit other value :=
          fun other value heq ↦ hothers other value (heq ▸ List.mem_cons_self)
        refine ⟨(periodLimit_execute hstatement hrun id).trans hlimit, ?_⟩
        rw [(execute_frame hrun).1]
        exact fun other value hmem ↦ hothers other value (List.mem_cons_of_mem _ hmem)
    · exact ⟨(tick_limit middle id).1.trans hlimit, hothers⟩

/-- The counter of a timer that is not periodic counts the ticks after its reset. -/
theorem counter_ticks {machine : Machine n} (hperiodic : (machine.vtmr.timers id).periodic = false)
    (hreset : machine.vtmr.resetIdx = none) (hcounter : (machine.vtmr.timers id).counter = 0)
    {count : ℕ} (hcount : count < 2 ^ 32) :
    ((Machine.tick^[count] machine).vtmr.timers id).counter = count ∧
      ((Machine.tick^[count] machine).vtmr.timers id).periodic = false ∧
      (Machine.tick^[count] machine).vtmr.resetIdx = none ∧
      (Machine.tick^[count] machine).program = machine.program := by
  induction count with
  | zero => exact ⟨hcounter, hperiodic, hreset, rfl⟩
  | succ count ih =>
    obtain ⟨hbefore, honce, hnone, hprogram⟩ := ih (Nat.lt_of_succ_lt hcount)
    rw [Function.iterate_succ_apply']
    refine ⟨?_, (tick_limit _ id).2.trans honce, rfl, hprogram⟩
    generalize Machine.tick^[count] machine = middle at hbefore honce hnone
    change (((middle.vtmr.timers id).count).resetIf (middle.vtmr.resetIdx == some id)).counter = _
    have hwrap : (count + 1) % 2 ^ 32 = count + 1 := Nat.mod_eq_of_lt hcount
    rw [hnone]
    unfold VirtualTimer.resetIf VirtualTimer.count
    simp only [honce, hbefore, hwrap, Bool.false_eq_true, if_false]
    split_ifs <;> first | rfl | contradiction

/-- A program that resets a timer and awaits its counter takes as many ticks. -/
theorem takesTicks_of_await {final : ℕ} :
    TakesTicks id (vtmrResetTimer id ++ [.awaitCounter id final]) final := by
  intro machine hprogram hperiodic count hcount
  let requested : Machine n := { machine with
    program := [.awaitReset, .awaitCounter id final], vtmr.resetIdx := some id }
  let reset : Machine n := { requested.tick with program := [.awaitCounter id final] }
  have hrequested : machine.run = some requested := run_of_program hprogram
  have hawaits : requested.tick.program = .awaitReset :: [.awaitCounter id final] := rfl
  have hnone : requested.tick.vtmr.resetIdx = none := rfl
  have hreset : requested.tick.run = some reset := by
    rw [run_of_program hawaits, Statement.execute]
    exact if_pos hnone
  have hcounter : (reset.vtmr.timers id).counter = 0 := by
    change ((VirtualTimer.count _).resetIf (some id == some id)).counter = 0
    rw [beq_self_eq_true]
    rfl
  have honce : (reset.vtmr.timers id).periodic = false :=
    (tick_limit requested id).2.trans hperiodic
  obtain ⟨hticks, -, -, hrest⟩ := counter_ticks honce rfl hcounter hcount
  rw [hrequested, Option.bind_some, hreset, Option.bind_some, run_of_program hrest,
    Statement.execute]
  simp only [hticks]
  split_ifs with hreached
  · exact iff_of_true rfl hreached
  · exact iff_of_false (fun hnone ↦ by cases hnone) hreached

/-- A program that does nothing takes no number of ticks. -/
theorem not_takesTicks_nil {ticks : ℕ} (hticks : ticks < 2 ^ 32) : ¬TakesTicks id [] ticks := by
  intro htakes
  have hover := (htakes (VtmrWorld.initial n).machine rfl rfl ticks hticks).mpr (Nat.le_refl _)
  cases hover

end Calls

/-! ### When the conversion is exact -/

section Conversion

variable {w : TimerWidth} {freqHz periodUs : ℕ}

/-- What `vtmr_set_match_int` does with a period that is not zero. -/
theorem vtmrSetMatchInt_eq {n : ℕ} (hperiod : 0 < periodUs) (id : Fin n) (type : MatchType) :
    vtmrSetMatchInt w freqHz id periodUs type =
      if vtmrMaxPeriod < periodUs * freqHz % 2 ^ w.bits / 1000000 then (.tooLong, [])
      else if periodUs * freqHz % 2 ^ w.bits / 1000000 = 0 then (.tooShort, [])
      else (.ok, .setPeriodLimit id (periodUs * freqHz % 2 ^ w.bits / 1000000) ::
        armTimer id type) :=
  if_neg hperiod.ne'

/-- A match interrupt that stores another number of ticks than those of its period. -/
theorem periodTicks_eq_of_stores {n : ℕ} {id : Fin n} {type : MatchType} {final ticks : ℕ}
    (hstores : StoresLimit id (.setPeriodLimit id final :: armTimer id type) ticks) :
    final = ticks := by
  let machine : Machine n :=
    { (VtmrWorld.initial n).machine with program := .setPeriodLimit id final :: armTimer id type }
  have hfirst := run_of_program (show machine.program = .setPeriodLimit id final :: _ from rfl)
  rw [← hstores machine _ _ rfl hfirst .refl]
  change final = (Function.update machine.vtmr.timers id _ id).periodLimit
  rw [Function.update_self]

/-- The product of a period with the frequency, in `timer_data_type`, gives the right number of
ticks, or is as much too long as it. -/
def TicksAgree (w : TimerWidth) (freqHz periodUs : ℕ) : Prop :=
  (vtmrMaxPeriod < periodUs * freqHz % 2 ^ w.bits / 1000000 ∧
      vtmrMaxPeriod < periodTicks freqHz periodUs) ∨
    periodUs * freqHz % 2 ^ w.bits / 1000000 = periodTicks freqHz periodUs

/-- The numbers of ticks agree where the result and the limit of a match interrupt are right. -/
theorem ConvertsExactly.ticksAgree (hconverts : ConvertsExactly w freqHz periodUs)
    (hperiod : 0 < periodUs) : TicksAgree w freqHz periodUs := by
  have hcall := @vtmrSetMatchInt_eq w freqHz periodUs 1 hperiod 0 .oneshot
  by_cases hlong : vtmrMaxPeriod < periodUs * freqHz % 2 ^ w.bits / 1000000
  · refine .inl ⟨hlong, (hconverts.too_long (0 : Fin 1) .oneshot).mp ?_⟩
    rw [hcall, if_pos hlong]
  · rw [if_neg hlong] at hcall
    refine .inr ?_
    by_cases hshort : periodUs * freqHz % 2 ^ w.bits / 1000000 = 0
    · rw [if_pos hshort] at hcall
      rw [hshort, (hconverts.too_short (0 : Fin 1) .oneshot).mp (by rw [hcall])]
    · rw [if_neg hshort] at hcall
      have hstores := hconverts.stored (0 : Fin 1) .oneshot (by rw [hcall])
      rw [hcall] at hstores
      exact periodTicks_eq_of_stores hstores

/-- The numbers of ticks agree if and only if the product does not overflow, or is too long in any
case. -/
theorem ticksAgree_iff :
    TicksAgree w freqHz periodUs ↔ periodUs * freqHz < 2 ^ w.bits ∨
      2 ^ 32 * 1000000 ≤ periodUs * freqHz % 2 ^ w.bits := by
  unfold TicksAgree periodTicks vtmrMaxPeriod
  generalize periodUs * freqHz = product
  cases w <;> simp only [TimerWidth.bits] <;> omega

/-- A delay of a period that the counter can reach takes its ticks. -/
theorem takesTicks_vtmrDelay {n : ℕ} (id : Fin n) (hperiod : periodUs ≤ vtmrMaxPeriod)
    (hticks : periodTicks freqHz periodUs ≤ vtmrMaxPeriod) :
    TakesTicks id (vtmrDelay w freqHz id periodUs) (periodTicks freqHz periodUs) := by
  have hproduct : periodUs * freqHz % 2 ^ 64 = periodUs * freqHz := by
    unfold periodTicks vtmrMaxPeriod at hticks
    exact Nat.mod_eq_of_lt (by omega)
  have hfinal : periodUs * freqHz % 2 ^ 64 / 1000000 % 2 ^ w.bits =
      periodTicks freqHz periodUs := by
    rw [hproduct]
    unfold vtmrMaxPeriod at hticks
    change periodTicks freqHz periodUs % 2 ^ w.bits = _
    exact Nat.mod_eq_of_lt (by cases w <;> simp only [TimerWidth.bits] <;> omega)
  rw [vtmrDelay, if_neg (Nat.not_lt.mpr hperiod), hfinal]
  exact takesTicks_of_await

/-- The ways in which a period is converted exactly, by the number of bits. -/
theorem convertible_iff (hwidth : periodUs < 2 ^ w.bits) :
    Convertible freqHz periodUs w ↔ TicksAgree w freqHz periodUs ∧
      (vtmrMaxPeriod < periodTicks freqHz periodUs ∨ periodUs ≤ vtmrMaxPeriod) := by
  rw [ticksAgree_iff]
  cases w with
  | w32 =>
    have hremainder := Nat.mod_lt (periodUs * freqHz) (Nat.two_pow_pos 32)
    simp only [TimerWidth.bits] at hwidth ⊢
    unfold Convertible vtmrMaxPeriod
    omega
  | w64 => rfl

/-- A period is converted exactly if and only if its product with the frequency does not overflow
`timer_data_type`, or is too long in any case, and a delay of so many microseconds is not refused.
-/
theorem convertsExactly_iff (w : TimerWidth) (freqHz periodUs : ℕ) (hperiod : 0 < periodUs)
    (hwidth : periodUs < 2 ^ w.bits) :
    ConvertsExactly w freqHz periodUs ↔ Convertible freqHz periodUs w := by
  rw [convertible_iff hwidth]
  constructor
  · intro hconverts
    refine ⟨hconverts.ticksAgree hperiod, ?_⟩
    by_contra hdelay
    obtain ⟨hticks, hlong⟩ := not_or.mp hdelay
    have htakes := hconverts.delay (0 : Fin 1) (Nat.le_of_not_lt hticks)
    rw [vtmrDelay, if_pos (Nat.lt_of_not_le hlong)] at htakes
    exact not_takesTicks_nil (Nat.lt_succ_of_le (Nat.le_of_not_lt hticks)) htakes
  · rintro ⟨hagree, hdelay⟩
    have hlong : vtmrMaxPeriod < periodUs * freqHz % 2 ^ w.bits / 1000000 ↔
        vtmrMaxPeriod < periodTicks freqHz periodUs := by
      rcases hagree with ⟨hproduct, hticks⟩ | heq
      · exact iff_of_true hproduct hticks
      · rw [heq]
    have hsame : ¬vtmrMaxPeriod < periodTicks freqHz periodUs →
        periodUs * freqHz % 2 ^ w.bits / 1000000 = periodTicks freqHz periodUs := fun hticks ↦
      hagree.resolve_left fun hboth ↦ hticks hboth.2
    refine ⟨fun id type ↦ ?_, fun id type ↦ ?_, fun id type ↦ ?_, fun id type ↦ ?_,
      fun id hticks ↦ takesTicks_vtmrDelay id (hdelay.resolve_left (Nat.not_lt.mpr hticks))
        hticks⟩
    all_goals
      rw [vtmrSetMatchInt_eq hperiod]
      by_cases hticks : vtmrMaxPeriod < periodTicks freqHz periodUs
    · rw [if_pos (hlong.mpr hticks)]
      exact iff_of_true rfl hticks
    · rw [if_neg (mt hlong.mp hticks)]
      refine iff_of_false (fun hresult ↦ ?_) hticks
      split_ifs at hresult
    · rw [if_pos (hlong.mpr hticks)]
      exact iff_of_false (fun hresult ↦ by cases hresult) (Nat.ne_of_gt (Nat.zero_lt_of_lt hticks))
    · rw [if_neg (mt hlong.mp hticks), hsame hticks]
      split_ifs with hzero
      · exact iff_of_true rfl hzero
      · exact iff_of_false (fun hresult ↦ by cases hresult) hzero
    · rw [if_pos (hlong.mpr hticks)]
      exact fun _ ↦ rfl
    · rw [if_neg (mt hlong.mp hticks)]
      split_ifs
      · exact fun _ ↦ rfl
      · exact fun hresult ↦ absurd rfl hresult
    · rw [if_pos (hlong.mpr hticks)]
      exact fun hresult ↦ by cases hresult
    · rw [if_neg (mt hlong.mp hticks), hsame hticks]
      split_ifs
      · exact fun hresult ↦ by cases hresult
      · exact fun _ ↦ storesLimit_of_cons fun other value ↦ not_mem_armTimer id other type value

/-- A second at a frequency of 4 Hz is converted exactly. -/
theorem convertsExactly_second : ConvertsExactly .w32 4 1000000 :=
  (convertsExactly_iff .w32 4 1000000 (by decide) (by decide)).mpr
    (show 1000000 * 4 < 2 ^ 32 by decide)

/-- With 32 bits, 2000 seconds at 4 Hz are 3705 ticks instead of 8000. With 64 bits, a delay of
4295 seconds returns at once. -/
theorem not_convertsExactly :
    ¬ConvertsExactly .w32 4 2000000000 ∧ ¬ConvertsExactly .w64 4 4294967296 := by
  constructor
  · intro hconverts
    have hagree := ticksAgree_iff.mp (hconverts.ticksAgree (by decide))
    simp [TimerWidth.bits] at hagree
  · intro hconverts
    have htakes := hconverts.delay (0 : Fin 1) (by decide)
    rw [vtmrDelay, if_pos (by decide)] at htakes
    exact not_takesTicks_nil (by decide) htakes

end Conversion

end Elua.Timers
