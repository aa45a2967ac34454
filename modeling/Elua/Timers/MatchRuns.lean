import Elua.Timers.MatchInterrupts

/-!
# Match interrupts over whole runs

`firesOnTime_of_timely`: every arming in force fires on time, in every run whose ticks come at good
moments and in which the interrupt of a one-shot timer is not enabled after it has fired. The
invariant has two parts. `MachineOk` says what the accesses of the foreground look like: a reset is
pending only while a call waits for it, and bits are written back right after they are loaded.
`Armed` says of every arming that its call is still setting the timer up, or that the timer counts
as it should and the foreground leaves it alone. -/

set_option autoImplicit false
set_option relaxedAutoImplicit false

namespace Elua.Timers

open Foundation TransitionSystem

variable {n : ℕ} {timer : VirtualTimer} {arming : Arming} {ticks : ℕ}

/-! ### The foreground -/

/-- What follows an access in every call: a reset is awaited right after it is requested, and a bit
is written back right after its byte is loaded. Bits of flags are cleared only. -/
def Follows (statement : Statement n) (rest : List (Statement n)) : Prop :=
  (∀ id, statement = .requestReset id → rest.head? = some .awaitReset) ∧
    (∀ id value, rest.head? = some (.storeFlag id value) → statement = .loadFlag ∧ value = false) ∧
      ∀ id value, rest.head? = some (.storeEnabled id value) → statement = .loadEnabled

/-- The accesses of a program follow each other as in a call. -/
def Ordered : List (Statement n) → Prop
  | [] => True
  | statement :: rest => Follows statement rest ∧ Ordered rest

/-- A call does not begin with writing a bit back. -/
def StartsClean (program : List (Statement n)) : Prop :=
  ∀ id value, program.head? ≠ some (.storeFlag id value) ∧
    program.head? ≠ some (.storeEnabled id value)

theorem ordered_armTimer (id : Fin n) (type : MatchType) : Ordered (armTimer id type) := by
  simp [armTimer, vtmrResetTimer, Ordered, Follows]

theorem not_mem_armTimer (id other : Fin n) (type : MatchType) (final : ℕ) :
    .setPeriodLimit other final ∉ armTimer id type := by
  simp [armTimer, vtmrResetTimer]

/-- A period limit is stored only at the start of a call that goes on to arm the timer, and it is in
the range of the counters. -/
def LimitsStored (program : List (Statement n)) : Prop :=
  ∀ id final, .setPeriodLimit id final ∈ program → 0 < final ∧ final < 2 ^ 32 ∧
    ∃ type, program = .setPeriodLimit id final :: armTimer id type

theorem limitsStored_of_not_mem {program : List (Statement n)}
    (hnot : ∀ id final, .setPeriodLimit id final ∉ program) : LimitsStored program :=
  fun id final hmem ↦ absurd hmem (hnot id final)

/-- Every call makes its accesses in such an order. -/
theorem statements_ok (w : TimerWidth) (freqHz : ℕ) (call : VtmrCall n) :
    Ordered (call.statements w freqHz) ∧ StartsClean (call.statements w freqHz) ∧
      LimitsStored (call.statements w freqHz) := by
  cases call with
  | setMatchInt id periodUs type =>
    unfold VtmrCall.statements vtmrSetMatchInt
    dsimp only
    split_ifs with hzero hlong hshort
    · refine ⟨?_, ?_, limitsStored_of_not_mem ?_⟩ <;>
        simp [Ordered, Follows, StartsClean]
    · refine ⟨trivial, ?_, limitsStored_of_not_mem ?_⟩ <;> simp [StartsClean]
    · refine ⟨trivial, ?_, limitsStored_of_not_mem ?_⟩ <;> simp [StartsClean]
    · refine ⟨⟨?_, ordered_armTimer id type⟩, ?_, fun other final hmem ↦ ?_⟩
      · simp [Follows, armTimer]
      · simp [StartsClean]
      · obtain hhead | htail := List.mem_cons.mp hmem
        · obtain ⟨rfl, rfl⟩ := Statement.setPeriodLimit.inj hhead
          unfold vtmrMaxPeriod at hlong
          exact ⟨Nat.pos_of_ne_zero hshort, by omega, type, rfl⟩
        · exact absurd htail (not_mem_armTimer id other type _)
  | start id =>
    refine ⟨?_, ?_, limitsStored_of_not_mem ?_⟩ <;>
      simp [VtmrCall.statements, vtmrResetTimer, Ordered, Follows, StartsClean]
  | delay id delayUs =>
    by_cases hlong : vtmrMaxPeriod < delayUs <;>
      refine ⟨?_, ?_, limitsStored_of_not_mem ?_⟩ <;>
        simp [VtmrCall.statements, vtmrDelay, hlong, vtmrResetTimer, Ordered, Follows, StartsClean]
  | getFlag id clear =>
    refine ⟨?_, ?_, limitsStored_of_not_mem ?_⟩ <;> cases clear <;>
      simp [VtmrCall.statements, vtmrIntGetFlag, Ordered, Follows, StartsClean]
  | setStatus id status =>
    refine ⟨?_, ?_, limitsStored_of_not_mem ?_⟩ <;>
      simp [VtmrCall.statements, vtmrIntSetStatus, Ordered, Follows, StartsClean]

/-- What holds of the machine at all times: a reset is pending only while it is awaited, and the
bits loaded to clear a flag are still set. -/
structure MachineOk (machine : Machine n) : Prop where
  ordered : Ordered machine.program
  limits : LimitsStored machine.program
  resets : machine.vtmr.resetIdx ≠ none → machine.program.head? = some .awaitReset
  flags : ∀ id value, machine.program.head? = some (.storeFlag id value) → value = false ∧
    ∀ other, SameByte other id → machine.loaded other = true → machine.flag other = true

theorem machineOk_call {machine : Machine n} (hok : MachineOk machine)
    (hidle : machine.program = []) (w : TimerWidth) (freqHz : ℕ) (call : VtmrCall n) :
    MachineOk { machine with program := call.statements w freqHz } := by
  obtain ⟨hordered, hclean, hlimits⟩ := statements_ok w freqHz call
  refine ⟨hordered, hlimits, fun hreset ↦ ?_, fun id value hhead ↦ absurd hhead (hclean id value).1⟩
  have hawaited := hok.resets hreset
  rw [hidle] at hawaited
  cases hawaited

theorem machineOk_tick {machine : Machine n} (hok : MachineOk machine) :
    MachineOk machine.tick where
  ordered := hok.ordered
  limits := hok.limits
  resets := fun hreset ↦ absurd rfl hreset
  flags := by
    intro id value hhead
    obtain ⟨hvalue, hloaded⟩ := hok.flags id value hhead
    exact ⟨hvalue, fun other hbyte hset ↦ flag_tick (hloaded other hbyte hset)⟩

theorem run_of_program {machine : Machine n} {statement : Statement n} {rest : List (Statement n)}
    (hprogram : machine.program = statement :: rest) :
    machine.run = statement.execute { machine with program := rest } := by
  unfold Machine.run
  rw [hprogram]

/-- An access leaves the rest of the program. It requests a reset only where the call asks for one,
and waits for a pending one. -/
theorem execute_frame {statement : Statement n} {machine after : Machine n}
    (hexecute : statement.execute machine = some after) :
    after.program = machine.program ∧
      ((∃ id, statement = .requestReset id) ∨ after.vtmr.resetIdx = machine.vtmr.resetIdx) ∧
        (statement = .awaitReset → machine.vtmr.resetIdx = none) := by
  cases statement with
  | requestReset id =>
    obtain rfl := Option.some.inj hexecute
    exact ⟨rfl, .inl ⟨id, rfl⟩, fun hawaits ↦ by cases hawaits⟩
  | awaitReset =>
    obtain ⟨hnone, hsame⟩ := Option.ite_none_right_eq_some.mp hexecute
    obtain rfl := Option.some.inj hsame
    exact ⟨rfl, .inr rfl, fun _ ↦ hnone⟩
  | awaitCounter id final =>
    obtain ⟨-, hsame⟩ := Option.ite_none_right_eq_some.mp hexecute
    obtain rfl := Option.some.inj hsame
    exact ⟨rfl, .inr rfl, fun hawaits ↦ by cases hawaits⟩
  | setPeriodLimit id final | setPeriodic id value | loadEnabled | storeEnabled id value | loadFlag
  | storeFlag id value | testEnabled id | testFlag id =>
    obtain rfl := Option.some.inj hexecute
    exact ⟨rfl, .inr rfl, fun hawaits ↦ by cases hawaits⟩

/-- An access does not set a flag. -/
theorem flag_access {machine after : Machine n} (hok : MachineOk machine)
    {statement : Statement n} {rest : List (Statement n)}
    (hprogram : machine.program = statement :: rest)
    (hexecute : statement.execute { machine with program := rest } = some after) {id : Fin n}
    (hset : after.flag id = true) : machine.flag id = true := by
  cases statement with
  | setPeriodLimit other final | setPeriodic other value =>
    obtain rfl := Option.some.inj hexecute
    unfold Machine.flag Vtmr.modify at hset
    dsimp only at hset
    by_cases hsame : id = other
    · subst hsame
      rwa [Function.update_self] at hset
    · rwa [Function.update_of_ne hsame] at hset
  | loadEnabled | storeEnabled other value | loadFlag | testEnabled other | testFlag other
  | requestReset other =>
    obtain rfl := Option.some.inj hexecute
    exact hset
  | storeFlag other value =>
    obtain rfl := Option.some.inj hexecute
    obtain ⟨rfl, hloaded⟩ := hok.flags other value (by rw [hprogram]; rfl)
    unfold Machine.flag writeBack at hset
    dsimp only at hset
    split_ifs at hset with hsame hbyte
    · exact hloaded id hbyte hset
    · exact hset
  | awaitReset | awaitCounter other final =>
    obtain ⟨-, hsame⟩ := Option.ite_none_right_eq_some.mp hexecute
    obtain rfl := Option.some.inj hsame
    exact hset

theorem machineOk_access {machine after : Machine n} (hok : MachineOk machine)
    {statement : Statement n} {rest : List (Statement n)}
    (hprogram : machine.program = statement :: rest)
    (hexecute : statement.execute { machine with program := rest } = some after) :
    MachineOk after := by
  obtain ⟨hrest, hreset, hawaits⟩ := execute_frame hexecute
  have hordered := hok.ordered
  have hlimits := hok.limits
  rw [hprogram] at hordered hlimits
  obtain ⟨hfollows, hordered⟩ := hordered
  dsimp only at hrest
  refine ⟨by rwa [hrest], ?_, fun hpending ↦ ?_, fun id value hhead ↦ ?_⟩
  · rw [hrest]
    refine limitsStored_of_not_mem fun id final hmem ↦ ?_
    obtain ⟨-, -, type, hwhole⟩ := hlimits id final (List.mem_cons_of_mem _ hmem)
    rw [(List.cons.inj hwhole).2] at hmem
    exact not_mem_armTimer id id type final hmem
  · rw [hrest]
    obtain ⟨id, rfl⟩ | hsame := hreset
    · exact hfollows.1 id rfl
    · rw [hsame] at hpending
      have hawaited := hok.resets hpending
      rw [hprogram] at hawaited
      exact absurd (hawaits (Option.some.inj hawaited)) hpending
  · rw [hrest] at hhead
    obtain ⟨rfl, rfl⟩ := hfollows.2.1 id value hhead
    obtain rfl := Option.some.inj hexecute
    exact ⟨rfl, fun other _ hset ↦ hset⟩

/-! ### Armed timers -/

/-- The call that arms a timer, up to the reset of the counter: it has made some of its accesses,
and the last of them is to request the reset. -/
def SettingUp (machine : Machine n) (id : Fin n) (arming : Arming) : Prop :=
  arming.enabling = true ∧ (machine.vtmr.timers id).periodLimit = arming.limit ∧
    ∃ type stage, stage ≤ 4 ∧ machine.program = (armTimer id type).drop stage ∧
      (0 < stage → (machine.vtmr.timers id).periodic = arming.cyclic) ∧
        machine.vtmr.resetIdx = if stage = 4 then some id else none

/-- The foreground will not touch a timer other than by enabling its interrupt, and a byte it is
about to write back has the enable bit of the timer as it is. -/
structure Undisturbed (machine : Machine n) (id : Fin n) : Prop where
  program : ∀ statement ∈ machine.program, statement.ends id = false
  reset : machine.vtmr.resetIdx ≠ some id
  loaded : ∀ other value, machine.program.head? = some (.storeEnabled other value) →
    SameByte id other → id ≠ other → machine.loaded id = (machine.vtmr.timers id).enabled

/-- What holds of an arming in force. -/
structure Armed (machine : Machine n) (id : Fin n) (arming : Arming) : Prop where
  positive : 0 < arming.limit
  bounded : arming.limit < 2 ^ 32
  onTime : arming.OnTime
  setup : arming.ticks = none → SettingUp machine id arming
  counting : ∀ ticks, arming.ticks = some ticks →
    Counting (machine.vtmr.timers id) arming ticks ∧ Undisturbed machine id

theorem contains_queue (vtmr : Vtmr n) (id : Fin n) : (cmnVirtualTimerCb vtmr).1.contains id =
    ((vtmr.timers id).reaches && (vtmr.timers id).enabled) := by
  rw [Bool.eq_iff_iff, List.contains_iff_mem, cmnVirtualTimerCb, List.mem_filter]
  exact and_iff_right (List.mem_finRange id)

theorem resetIf_false (timer : VirtualTimer) : timer.resetIf false = timer := if_neg (by decide)

theorem tick_ticks (arming : Arming) (machine : Machine n) (id : Fin n) :
    (arming.tick machine id).ticks = match arming.ticks with
      | none => if machine.vtmr.resetIdx == some id then some 0 else none
      | some ticks => some (ticks + 1) := rfl

theorem tick_queued (arming : Arming) (machine : Machine n) (id : Fin n) :
    (arming.tick machine id).queued = arming.queued ++
      if (machine.vtmr.timers id).reaches && (machine.vtmr.timers id).enabled then
        [arming.nextTick] else [] := by
  rw [← contains_queue]
  rfl

theorem tick_raised (arming : Arming) (machine : Machine n) (id : Fin n) :
    (arming.tick machine id).raised = arming.raised ++
      if !(machine.flag id) && (machine.vtmr.timers id).reaches then [arming.nextTick] else [] := by
  unfold Arming.tick Arming.advance Arming.record
  dsimp only
  rw [flag_tick_eq]
  cases machine.flag id <;> simp

/-- Up to the reset of the counter nothing is recorded. -/
theorem tick_quiet {machine : Machine n} {id : Fin n} {arming : Arming}
    (honTime : arming.OnTime) (hticks : arming.ticks = none)
    (htimely : (machine.vtmr.timers id).reaches = true → TickTimely machine id arming) :
    (arming.tick machine id).queued = [] ∧ (arming.tick machine id).raised = [] := by
  unfold Arming.OnTime at honTime
  rw [hticks] at honTime
  rw [tick_queued, tick_raised, honTime.1, honTime.2, if_neg, if_neg]
  · exact ⟨rfl, rfl⟩
  · intro hraises
    obtain ⟨hclear, hnow⟩ := Bool.and_eq_true_iff.mp hraises
    have hset : machine.flag id = true := ((htimely hnow).reset hticks).1
    rw [hset] at hclear
    cases hclear
  · intro hqueues
    obtain ⟨hnow, henabled⟩ := Bool.and_eq_true_iff.mp hqueues
    exact ((htimely hnow).reset hticks).2 henabled

theorem tick_timer (machine : Machine n) (id : Fin n) : machine.tick.vtmr.timers id =
    (machine.vtmr.timers id).count.resetIf (machine.vtmr.resetIdx == some id) := rfl

@[simp] theorem resetIf_periodLimit (timer : VirtualTimer) (reset : Bool) :
    (timer.resetIf reset).periodLimit = timer.periodLimit := by
  cases reset <;> rfl

@[simp] theorem resetIf_periodic (timer : VirtualTimer) (reset : Bool) :
    (timer.resetIf reset).periodic = timer.periodic := by
  cases reset <;> rfl

/-- The tick of the reset starts to count. -/
theorem armed_tick_reset {machine : Machine n} {id : Fin n} {arming : Arming}
    (harmed : Armed machine id arming) (hticks : arming.ticks = none)
    (hreset : machine.vtmr.resetIdx = some id)
    (htimely : (machine.vtmr.timers id).reaches = true → TickTimely machine id arming) :
    Armed machine.tick id (arming.tick machine id) := by
  obtain ⟨henabling, hlimit, type, stage, -, hprogram, hperiodic, hlast⟩ := harmed.setup hticks
  obtain ⟨hqueued, hraised⟩ := tick_quiet harmed.onTime hticks htimely
  obtain rfl : stage = 4 := by
    by_contra hnot
    rw [if_neg hnot, hreset] at hlast
    cases hlast
  have hnow : (arming.tick machine id).ticks = some 0 := by
    rw [tick_ticks, hticks, hreset, beq_self_eq_true]
    rfl
  have hdue : (arming.tick machine id).due 0 = [] := Arming.due_zero harmed.positive
  have hcounter : (machine.tick.vtmr.timers id).counter = 0 := by
    rw [tick_timer, hreset, beq_self_eq_true]
    rfl
  have hcounting : Counting (machine.tick.vtmr.timers id) (arming.tick machine id) 0 := by
    refine ⟨?_, ?_, fun _ ↦ ⟨hcounter.trans (Nat.zero_mod _).symm, .inr ⟨henabling,
      harmed.positive⟩⟩, fun _ _ ↦ ⟨hcounter, .inr henabling⟩,
      fun _ hfired ↦ absurd harmed.positive (Nat.not_lt_of_le hfired)⟩
    · rw [tick_timer, resetIf_periodLimit, count_periodLimit]
      exact hlimit
    · rw [tick_timer, resetIf_periodic, count_periodic]
      exact hperiodic (by decide)
  refine ⟨harmed.positive, harmed.bounded, ?_, fun hnone ↦ ?_, fun ticks hsome ↦ ?_⟩
  · unfold Arming.OnTime
    rw [hnow]
    dsimp only
    rw [hqueued, hraised, hdue]
    exact ⟨rfl, fun _ hmem ↦ absurd hmem List.not_mem_nil⟩
  · rw [hnow] at hnone
    cases hnone
  · obtain rfl := Option.some.inj (hnow.symm.trans hsome)
    refine ⟨hcounting, ⟨fun statement hmem ↦ ?_, fun hpending ↦ (by cases hpending),
      fun other value hhead ↦ ?_⟩⟩
    · have hmem : statement ∈ (armTimer id type).drop 4 := hprogram ▸ hmem
      simp only [armTimer, vtmrResetTimer, List.cons_append, List.nil_append, List.drop_succ_cons,
        List.drop_zero, List.mem_cons, List.not_mem_nil, or_false] at hmem
      obtain rfl | rfl | rfl := hmem <;> rfl
    · have hhead : ((armTimer id type).drop 4).head? = some (.storeEnabled other value) :=
        hprogram ▸ hhead
      cases hhead

/-- A tick before the reset leaves an arming that has not begun to count. -/
theorem armed_tick_before {machine : Machine n} {id : Fin n} {arming : Arming}
    (harmed : Armed machine id arming) (hticks : arming.ticks = none)
    (hreset : machine.vtmr.resetIdx ≠ some id)
    (htimely : (machine.vtmr.timers id).reaches = true → TickTimely machine id arming) :
    Armed machine.tick id (arming.tick machine id) := by
  obtain ⟨henabling, hlimit, type, stage, hstage, hprogram, hperiodic, hlast⟩ := harmed.setup hticks
  obtain ⟨hqueued, hraised⟩ := tick_quiet harmed.onTime hticks htimely
  have hnot : stage ≠ 4 := fun hsame ↦ hreset (by rw [hlast, if_pos hsame])
  have hnow : (arming.tick machine id).ticks = none := by
    rw [tick_ticks, hticks, beq_eq_false_iff_ne.mpr hreset]
    rfl
  refine ⟨harmed.positive, harmed.bounded, ?_, fun _ ↦ ⟨henabling, ?_, type, stage, hstage,
    hprogram, fun hpositive ↦ ?_, (if_neg hnot).symm⟩, fun ticks hsome ↦ ?_⟩
  · unfold Arming.OnTime
    rw [hnow]
    exact ⟨hqueued, hraised⟩
  · rw [tick_timer, resetIf_periodLimit, count_periodLimit]
    exact hlimit
  · rw [tick_timer, resetIf_periodic, count_periodic]
    exact hperiodic hpositive
  · rw [hnow] at hsome
    cases hsome

/-- A tick after the reset is counted, and what it does is due. -/
theorem armed_tick_counting {machine : Machine n} {id : Fin n} {arming : Arming} {ticks : ℕ}
    (harmed : Armed machine id arming) (hticks : arming.ticks = some ticks)
    (htimely : (machine.vtmr.timers id).reaches = true → TickTimely machine id arming) :
    Armed machine.tick id (arming.tick machine id) := by
  obtain ⟨hcounting, hundisturbed⟩ := harmed.counting ticks hticks
  have hwell : (machine.vtmr.timers id).reaches = true →
      ReachesWell (machine.vtmr.timers id) arming ticks := by
    intro hnow
    have hfound := htimely hnow
    exact ⟨hfound.enabled (by rw [hticks]; simp), fun honce hafter ↦
      hfound.fired ticks hticks (by rw [honce]; decide) hafter⟩
  have hnow : (arming.tick machine id).ticks = some (ticks + 1) := by rw [tick_ticks, hticks]
  have hlabel : arming.nextTick = some (ticks + 1) := by
    unfold Arming.nextTick
    rw [hticks]
    rfl
  have htimer : machine.tick.vtmr.timers id = (machine.vtmr.timers id).count := by
    rw [tick_timer, beq_eq_false_iff_ne.mpr hundisturbed.reset, resetIf_false]
  have hdue : (arming.tick machine id).due (ticks + 1) = arming.due ticks ++
      if (machine.vtmr.timers id).reaches && (machine.vtmr.timers id).enabled then [ticks + 1]
      else [] :=
    hcounting.due_succ harmed.positive harmed.bounded hwell
  have honTime := harmed.onTime
  unfold Arming.OnTime at honTime
  rw [hticks] at honTime
  obtain ⟨hqueued, hraised⟩ := honTime
  refine ⟨harmed.positive, harmed.bounded, ?_, fun hnone ↦ ?_, fun later hsome ↦ ?_⟩
  · unfold Arming.OnTime
    rw [hnow]
    dsimp only
    refine ⟨?_, fun tick hmem ↦ ?_⟩
    · rw [tick_queued, hqueued, hdue, List.map_append, hlabel]
      split_ifs <;> rfl
    · rw [tick_raised, List.mem_append] at hmem
      obtain hearlier | hmem := hmem
      · rw [hdue, List.map_append]
        exact List.mem_append_left _ (hraised tick hearlier)
      · obtain ⟨hraises, hlast⟩ := List.mem_ite_nil_right.mp hmem
        obtain ⟨hclear, hreaches⟩ := Bool.and_eq_true_iff.mp hraises
        rw [hlabel] at hlast
        obtain rfl := List.mem_singleton.mp hlast
        refine List.mem_map_of_mem (hcounting.mem_due harmed.positive harmed.bounded hwell hreaches ?_)
        exact Bool.not_eq_true' _ ▸ hclear
  · rw [hnow] at hnone
    cases hnone
  · obtain rfl := Option.some.inj (hnow.symm.trans hsome)
    refine ⟨?_, ⟨hundisturbed.program, fun hpending ↦ (by cases hpending),
      fun other value hhead hbyte hne ↦ ?_⟩⟩
    · obtain ⟨hlimit, hperiodic, hcyclic, hwaiting, hfired⟩ :=
        hcounting.count harmed.positive harmed.bounded hwell
      rw [htimer]
      exact ⟨hlimit, hperiodic, hcyclic, hwaiting, hfired⟩
    · have hsame : machine.loaded id = (machine.vtmr.timers id).enabled :=
        hundisturbed.loaded other value hhead hbyte hne
      have hkept : (machine.vtmr.timers id).count.enabled = (machine.vtmr.timers id).enabled := by
        rw [count_enabled]
        cases hreaches : (machine.vtmr.timers id).reaches with
        | false => simp
        | true =>
          have hleft := (htimely hreaches).writes other value hhead hbyte
          rw [← hcounting.periodic] at hleft
          cases henabled : (machine.vtmr.timers id).enabled <;> simp_all
      rw [htimer, hkept]
      exact hsame

/-- A tick at a good moment keeps what holds of an arming. -/
theorem armed_tick {machine : Machine n} {id : Fin n} {arming : Arming}
    (harmed : Armed machine id arming)
    (htimely : (machine.vtmr.timers id).reaches = true → TickTimely machine id arming) :
    Armed machine.tick id (arming.tick machine id) := by
  cases hticks : arming.ticks with
  | none =>
    by_cases hreset : machine.vtmr.resetIdx = some id
    · exact armed_tick_reset harmed hticks hreset htimely
    · exact armed_tick_before harmed hticks hreset htimely
  | some ticks => exact armed_tick_counting harmed hticks htimely

/-- Recording an access in which the flag does not become set changes nothing. -/
theorem record_of_not_raised {arming : Arming} {label : Option ℕ} {before after : Bool}
    (hset : after = true → before = true) : arming.record label false before after = arming := by
  unfold Arming.record
  have hraises : (!before && after) = false := by
    cases after with
    | false => exact Bool.and_false _
    | true => rw [hset rfl]; rfl
  rw [hraises]
  simp

/-- An arming that has not begun to count holds of any later machine of its call. -/
theorem Armed.of_settingUp {machine after : Machine n} {id : Fin n} {arming : Arming}
    (harmed : Armed machine id arming) (hticks : arming.ticks = none)
    (hsetup : SettingUp after id arming) : Armed after id arming := by
  refine ⟨harmed.positive, harmed.bounded, harmed.onTime, fun _ ↦ hsetup, fun ticks hsome ↦ ?_⟩
  rw [hticks] at hsome
  cases hsome

/-- An access of the call that arms a timer, before the reset of the counter. -/
theorem armed_access_setup {machine after : Machine n} {id : Fin n} {arming : Arming}
    (harmed : Armed machine id arming) (hticks : arming.ticks = none) {statement : Statement n}
    {rest : List (Statement n)} (hprogram : machine.program = statement :: rest)
    (hexecute : statement.execute { machine with program := rest } = some after) :
    ∃ next, statement.arm id (some arming) = some next ∧ Armed after id next := by
  obtain ⟨henabling, hlimit, type, stage, hstage, hwhole, hperiodic, hreset⟩ := harmed.setup hticks
  rw [hprogram] at hwhole
  obtain rfl | rfl | rfl | rfl | rfl :
      stage = 0 ∨ stage = 1 ∨ stage = 2 ∨ stage = 3 ∨ stage = 4 := by
    omega
  · -- the type is set
    obtain ⟨rfl, rfl⟩ := List.cons.inj hwhole
    obtain rfl := Option.some.inj hexecute
    have honTime := harmed.onTime
    refine ⟨{ arming with cyclic := type == .cyclic }, if_pos rfl, harmed.positive, harmed.bounded,
      ?_, fun _ ↦ ⟨henabling, ?_, type, 1, by decide, rfl, fun _ ↦ ?_, hreset⟩, fun ticks hsome ↦ ?_⟩
    · unfold Arming.OnTime at honTime ⊢
      dsimp only
      rw [hticks] at honTime ⊢
      exact honTime
    · unfold Vtmr.modify
      dsimp only
      rw [Function.update_self]
      exact hlimit
    · unfold Vtmr.modify
      dsimp only
      rw [Function.update_self]
    · rw [hticks] at hsome
      cases hsome
  · -- the byte of the flag is loaded
    obtain ⟨rfl, rfl⟩ := List.cons.inj hwhole
    obtain rfl := Option.some.inj hexecute
    exact ⟨arming, rfl, harmed.of_settingUp hticks ⟨henabling, hlimit, type, 2, by decide, rfl,
      fun _ ↦ hperiodic (by decide), hreset⟩⟩
  · -- the flag is cleared
    obtain ⟨rfl, rfl⟩ := List.cons.inj hwhole
    obtain rfl := Option.some.inj hexecute
    exact ⟨arming, rfl, harmed.of_settingUp hticks ⟨henabling, hlimit, type, 3, by decide, rfl,
      fun _ ↦ hperiodic (by decide), hreset⟩⟩
  · -- the reset is requested
    obtain ⟨rfl, rfl⟩ := List.cons.inj hwhole
    obtain rfl := Option.some.inj hexecute
    exact ⟨arming, rfl, harmed.of_settingUp hticks ⟨henabling, hlimit, type, 4, by decide, rfl,
      fun _ ↦ hperiodic (by decide), rfl⟩⟩
  · -- the reset is awaited, so there is no such access
    obtain ⟨rfl, rfl⟩ := List.cons.inj hwhole
    have hnone := (execute_frame hexecute).2.2 rfl
    dsimp only at hnone
    rw [hnone] at hreset
    cases hreset

/-- What an access of the foreground leaves of a timer that it does not end the arming of. -/
theorem execute_timer {statement : Statement n} {machine after : Machine n} {id : Fin n}
    (hexecute : statement.execute machine = some after) (hends : statement.ends id = false) :
    (after.vtmr.timers id).counter = (machine.vtmr.timers id).counter ∧
      (after.vtmr.timers id).periodLimit = (machine.vtmr.timers id).periodLimit ∧
      (after.vtmr.timers id).periodic = (machine.vtmr.timers id).periodic ∧
      ((∀ other value, statement ≠ .storeEnabled other value) →
        (after.vtmr.timers id).enabled = (machine.vtmr.timers id).enabled) := by
  cases statement with
  | setPeriodLimit other final | setPeriodic other value =>
    obtain rfl := Option.some.inj hexecute
    have hne : id ≠ other := Ne.symm (beq_eq_false_iff_ne.mp hends)
    unfold Vtmr.modify
    dsimp only
    rw [Function.update_of_ne hne]
    exact ⟨rfl, rfl, rfl, fun _ ↦ rfl⟩
  | loadEnabled | loadFlag | storeFlag other value | testEnabled other | testFlag other
  | requestReset other =>
    obtain rfl := Option.some.inj hexecute
    exact ⟨rfl, rfl, rfl, fun _ ↦ rfl⟩
  | storeEnabled other value =>
    obtain rfl := Option.some.inj hexecute
    exact ⟨rfl, rfl, rfl, fun hnot ↦ absurd rfl (hnot other value)⟩
  | awaitReset | awaitCounter other final =>
    obtain ⟨-, hsame⟩ := Option.ite_none_right_eq_some.mp hexecute
    obtain rfl := Option.some.inj hsame
    exact ⟨rfl, rfl, rfl, fun _ ↦ rfl⟩

/-- The foreground goes on without touching a timer. -/
theorem Undisturbed.access {machine after : Machine n} (hok : MachineOk machine) {id : Fin n}
    (hundisturbed : Undisturbed machine id) {statement : Statement n} {rest : List (Statement n)}
    (hprogram : machine.program = statement :: rest)
    (hexecute : statement.execute { machine with program := rest } = some after) :
    Undisturbed after id := by
  obtain ⟨hrest, hreset, -⟩ := execute_frame hexecute
  have hordered := hok.ordered
  have huntouched := hundisturbed.program
  rw [hprogram] at hordered huntouched
  refine ⟨fun other hmem ↦ ?_, fun hpending ↦ ?_, fun other value hhead hbyte hne ↦ ?_⟩
  · rw [hrest] at hmem
    exact huntouched other (List.mem_cons_of_mem _ hmem)
  · obtain ⟨other, rfl⟩ | hsame := hreset
    · obtain rfl := Option.some.inj hexecute
      obtain rfl := Option.some.inj hpending
      have hends := huntouched _ List.mem_cons_self
      exact absurd (beq_self_eq_true other) (Bool.eq_false_iff.mp hends)
    · exact hundisturbed.reset (hsame.symm.trans hpending)
  · rw [hrest] at hhead
    obtain rfl := hordered.1.2.2 other value hhead
    obtain rfl := Option.some.inj hexecute
    rfl

theorem Counting.congr {other : VirtualTimer} (hcounting : Counting timer arming ticks)
    (hcounter : other.counter = timer.counter) (hlimit : other.periodLimit = timer.periodLimit)
    (hperiodic : other.periodic = timer.periodic) (henabled : other.enabled = timer.enabled) :
    Counting other arming ticks where
  periodLimit := hlimit.trans hcounting.periodLimit
  periodic := hperiodic.trans hcounting.periodic
  cyclic := by
    rw [hcounter, henabled]
    exact hcounting.cyclic
  waiting := by
    rw [hcounter, henabled]
    exact hcounting.waiting
  fired := by
    rw [henabled]
    exact hcounting.fired

theorem arm_of_not_ends {statement : Statement n} {id : Fin n} (hends : statement.ends id = false)
    (henables : statement ≠ .storeEnabled id true) (arming : Option Arming) :
    statement.arm id arming = arming := by
  cases statement with
  | setPeriodLimit other final | setPeriodic other value =>
    exact if_neg (beq_eq_false_iff_ne.mp hends)
  | storeEnabled other value =>
    refine if_neg fun hboth ↦ henables ?_
    rw [hboth.1, hboth.2]
  | loadEnabled | loadFlag | storeFlag other value | testEnabled other | testFlag other
  | requestReset other | awaitReset | awaitCounter other final => rfl

/-- The call that arms a timer, or another one, enables its interrupt. -/
theorem Counting.enable (hcounting : Counting timer arming ticks)
    (htimely : arming.cyclic = false → ticks < arming.limit) :
    Counting { timer with enabled := true } { arming with enabling := false } ticks where
  periodLimit := hcounting.periodLimit
  periodic := hcounting.periodic
  cyclic := fun hcyclic ↦ ⟨(hcounting.cyclic hcyclic).1, .inl rfl⟩
  waiting := fun honce hbefore ↦ ⟨(hcounting.waiting honce hbefore).1, .inl rfl⟩
  fired := fun honce hafter ↦ absurd (htimely honce) (Nat.not_lt_of_le hafter)

/-- An access of the foreground after the reset of the counter. -/
theorem armed_access_counting {machine after : Machine n} (hok : MachineOk machine) {id : Fin n}
    {arming : Arming} {ticks : ℕ} (harmed : Armed machine id arming)
    (hticks : arming.ticks = some ticks) {statement : Statement n} {rest : List (Statement n)}
    (hprogram : machine.program = statement :: rest)
    (hexecute : statement.execute { machine with program := rest } = some after)
    (htimely : statement = .storeEnabled id true → arming.cyclic = false → ticks < arming.limit) :
    ∃ next, statement.arm id (some arming) = some next ∧ Armed after id next := by
  obtain ⟨hcounting, hundisturbed⟩ := harmed.counting ticks hticks
  have hends : statement.ends id = false :=
    hundisturbed.program statement (hprogram ▸ List.mem_cons_self)
  have hafter := hundisturbed.access hok hprogram hexecute
  have honTime := harmed.onTime
  by_cases henables : statement = .storeEnabled id true
  · subst henables
    refine ⟨{ arming with enabling := false }, if_pos ⟨rfl, rfl⟩, harmed.positive, harmed.bounded, ?_,
      fun hnone ↦ ?_, fun later hsome ↦ ?_⟩
    · exact honTime
    · rw [hticks] at hnone
      cases hnone
    · obtain rfl := Option.some.inj (hticks.symm.trans hsome)
      refine ⟨?_, hafter⟩
      obtain rfl := Option.some.inj hexecute
      have hwritten : writeBack id true machine.loaded
          (fun other ↦ (machine.vtmr.timers other).enabled) id = true := if_pos rfl
      dsimp only
      rw [hwritten]
      exact hcounting.enable (htimely rfl)
  · obtain ⟨hcounter, hlimit, hperiodic, hsame⟩ := execute_timer hexecute hends
    have henabled : (after.vtmr.timers id).enabled = (machine.vtmr.timers id).enabled := by
      by_cases hstores : ∃ other value, statement = .storeEnabled other value
      · obtain ⟨other, value, rfl⟩ := hstores
        have hne : id ≠ other := by
          rintro rfl
          cases value with
          | true => exact henables rfl
          | false => exact absurd (beq_self_eq_true id) (Bool.eq_false_iff.mp hends)
        have hloaded := hundisturbed.loaded other value (by rw [hprogram]; rfl)
        obtain rfl := Option.some.inj hexecute
        dsimp only [writeBack]
        rw [if_neg hne]
        split_ifs with hbyte
        · exact hloaded hbyte hne
        · rfl
      · exact hsame fun other value heq ↦ hstores ⟨other, value, heq⟩
    refine ⟨arming, arm_of_not_ends hends henables _, harmed.positive, harmed.bounded, honTime,
      fun hnone ↦ ?_, fun later hsome ↦ ?_⟩
    · rw [hticks] at hnone
      cases hnone
    · obtain rfl := Option.some.inj (hticks.symm.trans hsome)
      exact ⟨hcounting.congr hcounter hlimit hperiodic henabled, hafter⟩

/-- An arming begins when its limit is stored. -/
theorem armed_begin {machine after : Machine n} (hok : MachineOk machine) {id : Fin n} {final : ℕ}
    {rest : List (Statement n)} (hprogram : machine.program = .setPeriodLimit id final :: rest)
    (hexecute : Statement.execute { machine with program := rest } (.setPeriodLimit id final) =
      some after) : Armed after id ⟨final, false, true, none, [], []⟩ := by
  obtain ⟨hpositive, hbounded, type, hwhole⟩ :=
    hok.limits id final (hprogram ▸ List.mem_cons_self)
  have hnone : machine.vtmr.resetIdx = none := by
    by_contra hpending
    have hawaited := hok.resets hpending
    rw [hprogram] at hawaited
    cases hawaited
  obtain rfl := (List.cons.inj (hprogram.symm.trans hwhole)).2
  obtain rfl := Option.some.inj hexecute
  refine ⟨hpositive, hbounded, ⟨rfl, rfl⟩, fun _ ↦ ⟨rfl, ?_, type, 0, by decide, rfl,
    fun hstage ↦ absurd hstage (by decide), hnone⟩, fun ticks hsome ↦ by cases hsome⟩
  unfold Vtmr.modify
  dsimp only
  rw [Function.update_self]

/-! ### Runs that fire on time -/

/-- What holds of the machine and the armings in force. -/
def WorldOk (world : VtmrWorld n) : Prop :=
  MachineOk world.machine ∧ ∀ id arming, world.armed id = some arming →
    Armed world.machine id arming

theorem worldOk_initial : WorldOk (.initial n) :=
  ⟨⟨trivial, fun _ _ hmem ↦ absurd hmem List.not_mem_nil, fun hpending ↦ absurd rfl hpending,
    fun _ _ hhead ↦ by cases hhead⟩, fun _ _ harmed ↦ by cases harmed⟩

variable {w : TimerWidth} {freqHz : ℕ}

theorem worldOk_call {world : VtmrWorld n} (hworld : WorldOk world)
    (hidle : world.machine.program = []) (call : VtmrCall n) :
    WorldOk ⟨{ world.machine with program := call.statements w freqHz }, fun id ↦
      if (call.statements w freqHz).any (·.ends id) then none else world.armed id⟩ := by
  obtain ⟨hok, harmings⟩ := hworld
  refine ⟨machineOk_call hok hidle w freqHz call, fun id arming hsome ↦ ?_⟩
  obtain ⟨huntouched, hsome⟩ := Option.ite_none_left_eq_some.mp hsome
  obtain ⟨hpositive, hbounded, honTime, hsetup, hcounting⟩ := harmings id arming hsome
  refine ⟨hpositive, hbounded, honTime, fun hnone ↦ ?_, fun ticks hticks ↦ ?_⟩
  · -- the call that sets a timer up is not over
    obtain ⟨-, -, type, stage, hstage, hprogram, -⟩ := hsetup hnone
    have hlength := congrArg List.length (hidle.symm.trans hprogram)
    rw [List.length_drop] at hlength
    have hwhole : (armTimer id type).length = 7 := rfl
    rw [hwhole, List.length_nil] at hlength
    omega
  · obtain ⟨hcounts, -, hreset, -⟩ := hcounting ticks hticks
    refine ⟨hcounts, fun statement hmem ↦ ?_, hreset, fun other value hhead ↦ ?_⟩
    · rw [List.any_eq_true] at huntouched
      exact Bool.eq_false_iff.mpr fun hends ↦ huntouched ⟨statement, hmem, hends⟩
    · exact absurd hhead ((statements_ok w freqHz call).2.1 other value).2

/-- An access on a timer without an arming in force begins one if it stores a limit. -/
theorem arm_none {statement : Statement n} {id : Fin n} {next : Arming}
    (hnext : statement.arm id none = some next) :
    ∃ final, statement = .setPeriodLimit id final ∧ next = ⟨final, false, true, none, [], []⟩ := by
  cases statement with
  | setPeriodLimit other final =>
    obtain ⟨rfl, hsame⟩ := Option.ite_none_right_eq_some.mp hnext
    exact ⟨final, rfl, (Option.some.inj hsame).symm⟩
  | setPeriodic other value | storeEnabled other value =>
    exact absurd hnext (by simp [Statement.arm])
  | loadEnabled | loadFlag | storeFlag other value | testEnabled other | testFlag other
  | requestReset other | awaitReset | awaitCounter other final => cases hnext

theorem worldOk_access {world : VtmrWorld n} (hworld : WorldOk world) {statement : Statement n}
    {rest : List (Statement n)} (hprogram : world.machine.program = statement :: rest)
    {machine : Machine n}
    (hexecute : statement.execute { world.machine with program := rest } = some machine)
    (htimely : StatementTimely world.armed statement) :
    WorldOk ⟨machine, fun id ↦ statement.arm id ((world.armed id).map
      (·.record none false (world.machine.flag id) (machine.flag id)))⟩ := by
  obtain ⟨hok, harmings⟩ := hworld
  refine ⟨machineOk_access hok hprogram hexecute, fun id next hnext ↦ ?_⟩
  have hquiet : (world.armed id).map
      (·.record none false (world.machine.flag id) (machine.flag id)) = world.armed id := by
    have hsame : (fun arming : Arming ↦ arming.record none false (world.machine.flag id)
        (machine.flag id)) = fun arming ↦ arming := by
      funext arming
      exact record_of_not_raised fun hset ↦ flag_access hok hprogram hexecute hset
    rw [hsame]
    exact Option.map_id'
  dsimp only at hnext ⊢
  rw [hquiet] at hnext
  cases harmed : world.armed id with
  | none =>
    rw [harmed] at hnext
    obtain ⟨final, rfl, rfl⟩ := arm_none hnext
    exact armed_begin hok hprogram hexecute
  | some arming =>
    rw [harmed] at hnext
    have hheld := harmings id arming harmed
    obtain ⟨other, hother, hafter⟩ : ∃ other, statement.arm id (some arming) = some other ∧
        Armed machine id other := by
      cases hticks : arming.ticks with
      | none => exact armed_access_setup hheld hticks hprogram hexecute
      | some ticks =>
        refine armed_access_counting hok hheld hticks hprogram hexecute fun henables honce ↦ ?_
        exact htimely id arming henables harmed ticks hticks (by rw [honce]; decide)
    rwa [Option.some.inj (hnext.symm.trans hother)]

theorem worldOk_step {world after : VtmrWorld n} {event : VtmrEvent n} (hworld : WorldOk world)
    (htimely : Timely world event) (hstep : vtmrStep w freqHz world event = some after) :
    WorldOk after := by
  cases event with
  | call call =>
    obtain ⟨hidle, hsame⟩ := Option.ite_none_right_eq_some.mp hstep
    obtain rfl := Option.some.inj hsame
    exact worldOk_call hworld hidle call
  | tick =>
    obtain rfl := Option.some.inj hstep
    refine ⟨machineOk_tick hworld.1, fun id next hsome ↦ ?_⟩
    obtain ⟨arming, harmed, rfl⟩ := Option.map_eq_some_iff.mp hsome
    exact armed_tick (hworld.2 id arming harmed) (htimely id arming harmed)
  | access =>
    obtain ⟨statement, hhead, hrest⟩ := Option.bind_eq_some_iff.mp hstep
    obtain ⟨machine, hrun, hsame⟩ := Option.bind_eq_some_iff.mp hrest
    obtain ⟨rest, hprogram⟩ := List.head?_eq_some_iff.mp hhead
    obtain rfl := Option.some.inj hsame
    rw [run_of_program hprogram] at hrun
    exact worldOk_access hworld hprogram hrun (htimely statement hhead)

/-- In every run whose ticks come at good moments, and in which no one-shot timer is enabled again
after it has fired, every arming fires on time. -/
theorem firesOnTime_of_timely {world : VtmrWorld n}
    (hreach : (vtmrSystem n w freqHz).ReachableUnder Timely world) : FiresOnTime world := by
  have hworld : WorldOk world := by
    refine hreach.invariant WorldOk ?_ fun state event after hstate htimely hstep ↦ ?_
    · rintro _ rfl
      exact worldOk_initial
    · exact worldOk_step hstate htimely hstep
  exact fun id arming harmed ↦ (hworld.2 id arming harmed).onTime

/-! ### One timer -/

/-- Arms the timer at ten ticks a second, with the reset right after it is requested. -/
def armOnce (periodUs : ℕ) (type : MatchType) : List (VtmrEvent 1) :=
  [.call (.setMatchInt 0 periodUs type), .access, .access, .access, .access, .access, .tick]

/-- A cyclic timer of two ticks is armed, enabled and counted over its first period. -/
theorem firesOnTime_first_period :
    ∃ world, runEvents (vtmrStep .w32 10) (.initial 1)
        (armOnce 200000 .cyclic ++ [.access, .access, .access, .tick, .tick]) = some world ∧
      world.armed 0 = some ⟨2, true, false, some 2, [some 2], [some 2]⟩ ∧ FiresOnTime world := by
  obtain ⟨world, hrun⟩ := Option.isSome_iff_exists.mp (show (runEvents (vtmrStep .w32 10)
    (.initial 1) (armOnce 200000 .cyclic ++ [.access, .access, .access, .tick, .tick])).isSome
    by decide)
  have harmed : ((runEvents (vtmrStep .w32 10) (.initial 1) (armOnce 200000 .cyclic ++
      [.access, .access, .access, .tick, .tick])).bind fun world ↦ world.armed 0) =
      some ⟨2, true, false, some 2, [some 2], [some 2]⟩ := by decide
  rw [hrun] at harmed
  have hreach : (vtmrSystem 1 .w32 10).ReachableUnder Timely world :=
    reachableUnder_of_permitsEvents _ (.start rfl) (by decide) hrun
  exact ⟨world, hrun, harmed, firesOnTime_of_timely hreach⟩

/-- A one-shot timer of one tick: the tick of the reset already sets its flag. -/
theorem flag_set_by_reset :
    ¬ ∀ (n : ℕ) (w : TimerWidth) (freqHz : ℕ) (world : VtmrWorld n),
      (vtmrSystem n w freqHz).Reachable world → FiresOnTime world := by
  intro hall
  obtain ⟨world, hrun⟩ := Option.isSome_iff_exists.mp (show (runEvents (vtmrStep .w32 10)
    (.initial 1) (armOnce 100000 .oneshot)).isSome by decide)
  have harmed : ((runEvents (vtmrStep .w32 10) (.initial 1) (armOnce 100000 .oneshot)).bind
      fun world ↦ world.armed 0) = some ⟨1, false, true, some 0, [], [none]⟩ := by decide
  rw [hrun] at harmed
  have hreach : (vtmrSystem 1 .w32 10).Reachable world :=
    reachableUnder_of_runEvents (fun _ _ _ ↦ id) _ (.start rfl) (fun _ _ _ ↦ trivial) hrun
  obtain ⟨-, hraised⟩ := hall 1 .w32 10 world hreach 0 _ harmed
  exact absurd (hraised none List.mem_cons_self) (by decide)

end Elua.Timers
