import Elua.Foundation.TransitionSystem
import Elua.Lua.Collector

/-!
# The memory limit of the emergency collector

The allocator `l_alloc` with its modes, and `luaM_realloc_`, which calls it and keeps `totalbytes`.
With a limit set, a request for more bytes first runs the collector, for a cycle at most, as long as
the count and the bytes asked for reach the limit (`lCheckMemlimit`).

`memlimit_enforced`: whatever the collector finds to free, as long as it always comes to its pause,
the loop of the check ends; a request that is granted more bytes leaves the count at or below the
limit; a refused one only leaves what was collected; and the count is the number of live bytes in
every state that is reached. -/

set_option autoImplicit false
set_option relaxedAutoImplicit false

namespace Elua.Lua

open Foundation TransitionSystem

/-! ### The allocator -/

/-- `memlimit`, the modes of `egcmode` that are on, and `gcstepmul`. -/
structure MemoryConfig where
  memlimit : ℕ
  memlimit_lt : memlimit < 2 ^ 32
  onAllocFailure : Bool
  onMemLimit : Bool
  always : Bool
  gcstepmul : ℤ

/-- A call of `luaM_realloc_`: the block, which is live or new, its new size, and whether `realloc`
is able to give it this size at once, and after an emergency collection. -/
structure Request where
  block : ℕ
  nsize : ℕ
  nsize_lt : nsize < 2 ^ 32
  first : Bool
  second : Bool

/-- One turn of the loop of `l_check_memlimit`, with `cycle_count`. -/
def checkBody (choice : ℕ → StepChoice) (gcstepmul : ℤ) (limit fuel : ℕ) :
    ℕ × GlobalState → Option (ℕ × GlobalState ⊕ GlobalState)
  | (cycleCount, g) =>
    if limit ≤ g.totalbytes then
      let cycleCount := if g.gcstate = .pause then cycleCount + 1 else cycleCount
      if g.gcstate = .pause ∧ 1 < cycleCount then some (.inr g)
      else (luaCStep choice gcstepmul fuel g).map fun g ↦ .inl (cycleCount, g)
    else some (.inr g)

/-- The collections of `l_check_memlimit`. -/
def checkCollect (choice : ℕ → StepChoice) (gcstepmul : ℤ) (limit : ℕ) (g : GlobalState)
    (fuel : ℕ) : Option GlobalState :=
  if g.blockGc then some g else runLoop (checkBody choice gcstepmul limit fuel) fuel (0, g)

/-- `l_check_memlimit`: whether it refuses the bytes needed. -/
def lCheckMemlimit (choice : ℕ → StepChoice) (config : MemoryConfig) (g : GlobalState)
    (needbytes fuel : ℕ) : Option (Bool × GlobalState) :=
  let limit := (config.memlimit + (2 ^ 32 - needbytes)) % 2 ^ 32
  if config.memlimit < needbytes then some (true, g)
  else (checkCollect choice config.gcstepmul limit g fuel).map fun g ↦
    (decide (limit ≤ g.totalbytes), g)

/-- `realloc` is able to give a block its size. All live blocks have to fit the address space. -/
def reallocable (g : GlobalState) (block nsize : ℕ) (able : Bool) : Bool :=
  able && decide (g.blocks.liveBytes - g.blocks.size block + nsize < 2 ^ 32)

/-- The call of `realloc` in `l_alloc`, with the emergency collection after a failure. -/
def lAllocTry (choice : ℕ → StepChoice) (config : MemoryConfig) (request : Request)
    (g : GlobalState) (fuel : ℕ) : Option (Bool × GlobalState) :=
  if reallocable g request.block request.nsize request.first then some (true, g)
  else if config.onAllocFailure then
    (luaCFullgc choice fuel g).map fun g ↦
      (reallocable g request.block request.nsize request.second, g)
  else some (false, g)

/-- The full cycle of `l_alloc` in the mode `EGC_ALWAYS`. -/
def lAllocAlways (choice : ℕ → StepChoice) (config : MemoryConfig) (g : GlobalState) (fuel : ℕ) :
    Option GlobalState :=
  if config.always then luaCFullgc choice fuel g else some g

/-- The check of the limit in `l_alloc`, for a request for more bytes. -/
def lAllocLimit (choice : ℕ → StepChoice) (config : MemoryConfig) (request : Request) (osize : ℕ)
    (g : GlobalState) (fuel : ℕ) : Option (Bool × GlobalState) :=
  if osize < request.nsize ∧ 0 < config.memlimit ∧ config.onMemLimit then
    lCheckMemlimit choice config g (request.nsize - osize) fuel
  else some (false, g)

/-- What `l_alloc` does after the check. -/
def lAllocChecked (choice : ℕ → StepChoice) (config : MemoryConfig) (request : Request)
    (checked : Bool × GlobalState) (fuel : ℕ) : Option (Bool × GlobalState) :=
  if checked.1 then some (false, checked.2) else lAllocTry choice config request checked.2 fuel

/-- `l_alloc`: whether it returns a block. -/
def lAlloc (choice : ℕ → StepChoice) (config : MemoryConfig) (request : Request)
    (g : GlobalState) (fuel : ℕ) : Option (Bool × GlobalState) :=
  let osize := g.blocks.size request.block
  if request.nsize = 0 then some (false, g)
  else ((lAllocAlways choice config g fuel).bind
    (lAllocLimit choice config request osize · fuel)).bind
      (lAllocChecked choice config request · fuel)

/-- The end of `luaM_realloc_`: whether it throws `LUA_ERRMEM`. -/
def finishRealloc (request : Request) (result : Bool × GlobalState) : Bool × GlobalState :=
  if result.1 = false ∧ 0 < request.nsize then (true, { result.2 with inFlight := none })
  else (false, { result.2.account request.block request.nsize with inFlight := none })

/-- `luaM_realloc_`, with the true old size. The collector leaves the block in hand alone. -/
def luaMRealloc (choice : ℕ → StepChoice) (config : MemoryConfig) (request : Request)
    (g : GlobalState) (fuel : ℕ) : Option (Bool × GlobalState) :=
  (lAlloc choice config request { g with inFlight := some request.block } fuel).map
    (finishRealloc request)

/-! ### Runs -/

/-- What happens to the memory: a request, a step of the collector or a full cycle, a single step,
which `luaC_sweepstrgc` makes, and that the collector is blocked or let go on. -/
inductive MemoryEvent
  | realloc (request : Request)
  | step
  | fullgc
  | singlestep
  | block (blocked : Bool)

/-- Runs from any state in which the bytes are accounted for. -/
def memorySystem (choice : ℕ → StepChoice) (config : MemoryConfig) :
    TransitionSystem GlobalState MemoryEvent where
  initial := fun g ↦ Accounted g ∧ g.inFlight = none
  step := fun g event after ↦ match event with
    | .realloc request => ∃ fuel thrown,
        luaMRealloc choice config request g fuel = some (thrown, after)
    | .step => ∃ fuel, luaCStep choice config.gcstepmul fuel g = some after
    | .fullgc => ∃ fuel, luaCFullgc choice fuel g = some after
    | .singlestep => after = afterStep choice g
    | .block blocked => after = { g with blockGc := blocked }

variable {choice : ℕ → StepChoice} {config : MemoryConfig}

/-! ### The check of the limit -/

theorem fuelMono_checkBody (gcstepmul : ℤ) (limit : ℕ) (state : ℕ × GlobalState) :
    FuelMono (checkBody choice gcstepmul limit · state) := by
  unfold checkBody
  exact .ite _ (.ite _ (fuelMono_const _) ((fuelMono_luaCStep gcstepmul state.2).map _))
    (fuelMono_const _)

theorem fuelMono_checkCollect (gcstepmul : ℤ) (limit : ℕ) (g : GlobalState) :
    FuelMono (checkCollect choice gcstepmul limit g) :=
  .ite _ (fuelMono_const _) (.loop (fuelMono_checkBody gcstepmul limit) _)

/-- The loop of the check ends. -/
def CheckEnds (choice : ℕ → StepChoice) (gcstepmul : ℤ) (limit cycleCount : ℕ) (g : GlobalState) :
    Prop :=
  ∃ after fuel, runLoop (checkBody choice gcstepmul limit fuel) fuel (cycleCount, g) = some after

variable {gcstepmul : ℤ} {limit cycleCount : ℕ} {g : GlobalState}

theorem checkEnds_of_lt (hbelow : ¬ limit ≤ g.totalbytes) :
    CheckEnds choice gcstepmul limit cycleCount g :=
  ⟨g, exists_loop_of_leaves (fuelMono_checkBody gcstepmul limit) ⟨0, if_neg hbelow⟩⟩

theorem checkEnds_of_leaves (hpaused : g.gcstate = .pause) (hcount : 1 ≤ cycleCount) :
    CheckEnds choice gcstepmul limit cycleCount g := by
  by_cases hfull : limit ≤ g.totalbytes
  · refine ⟨g, exists_loop_of_leaves (fuelMono_checkBody gcstepmul limit) ⟨0, ?_⟩⟩
    unfold checkBody
    dsimp only
    rw [if_pos hfull, if_pos hpaused, if_pos ⟨hpaused, by omega⟩]
  · exact checkEnds_of_lt hfull

/-- The loop goes on with a step of the collector, and counts the pause it starts from. -/
theorem checkEnds_of_step {after : GlobalState} {next : ℕ}
    (hnext : next = if g.gcstate = .pause then cycleCount + 1 else cycleCount)
    (hgoes : ¬ (g.gcstate = .pause ∧ 1 < next))
    (hstep : ∃ fuel, luaCStep choice gcstepmul fuel g = some after)
    (hrest : CheckEnds choice gcstepmul limit next after) :
    CheckEnds choice gcstepmul limit cycleCount g := by
  by_cases hfull : limit ≤ g.totalbytes
  · obtain ⟨last, hlast⟩ := hrest
    obtain ⟨fuel, hstep⟩ := hstep
    refine ⟨last, exists_loop_of_continues (fuelMono_checkBody gcstepmul limit) ⟨fuel, ?_⟩ hlast⟩
    unfold checkBody
    dsimp only
    rw [← hnext, if_pos hfull, if_neg hgoes, hstep]
    rfl
  · exact checkEnds_of_lt hfull

/-- Once a pause is counted, the loop ends at the next one. -/
theorem checkEnds_second {count : ℕ} (hfree : g.blockGc = false) (hcount : 1 ≤ cycleCount)
    (hpauses : PausesAfter choice (count + 1) g) :
    CheckEnds choice gcstepmul limit cycleCount g := by
  induction count using Nat.strong_induction_on generalizing g with
  | _ count ih =>
    by_cases hpaused : g.gcstate = .pause
    · exact checkEnds_of_leaves hpaused hcount
    · obtain ⟨after, hstep, hafter, hnearer⟩ := exists_luaCStep hfree hpauses gcstepmul
      refine checkEnds_of_step (if_neg hpaused).symm (fun hboth ↦ hpaused hboth.1) hstep ?_
      obtain hpause | ⟨fewer, hfewer, hnext⟩ := hnearer
      · exact checkEnds_of_leaves hpause hcount
      · exact ih fewer hfewer hafter hnext

theorem ReachesPause.exists_pausesAfter (hreaches : ReachesPause choice) (g : GlobalState) :
    ∃ count, PausesAfter choice (count + 1) g := by
  obtain ⟨count, hcount⟩ := hreaches (afterStep choice g)
  exact ⟨count, pausesAfter_succ.mpr hcount⟩

/-- From a pause, the first one is counted. -/
theorem checkEnds_paused (hreaches : ReachesPause choice) (hfree : g.blockGc = false)
    (hpaused : g.gcstate = .pause) : CheckEnds choice gcstepmul limit 0 g := by
  obtain ⟨count, hpauses⟩ := hreaches.exists_pausesAfter g
  obtain ⟨after, hstep, hafter, -⟩ := exists_luaCStep hfree hpauses gcstepmul
  obtain ⟨more, hmore⟩ := hreaches.exists_pausesAfter after
  exact checkEnds_of_step (if_pos hpaused).symm (fun hboth ↦ absurd hboth.2 (by decide)) hstep
    (checkEnds_second hafter (Nat.le_refl _) hmore)

theorem checkEnds_first {count : ℕ} (hreaches : ReachesPause choice) (hfree : g.blockGc = false)
    (hpauses : PausesAfter choice (count + 1) g) : CheckEnds choice gcstepmul limit 0 g := by
  induction count using Nat.strong_induction_on generalizing g with
  | _ count ih =>
    by_cases hpaused : g.gcstate = .pause
    · exact checkEnds_paused hreaches hfree hpaused
    · obtain ⟨after, hstep, hafter, hnearer⟩ := exists_luaCStep hfree hpauses gcstepmul
      refine checkEnds_of_step (if_neg hpaused).symm (fun hboth ↦ hpaused hboth.1) hstep ?_
      obtain hpause | ⟨fewer, hfewer, hnext⟩ := hnearer
      · exact checkEnds_paused hreaches hafter hpause
      · exact ih fewer hfewer hafter hnext

theorem exists_checkCollect (hreaches : ReachesPause choice) (gcstepmul : ℤ) (limit : ℕ)
    (g : GlobalState) : ∃ after fuel, checkCollect choice gcstepmul limit g fuel = some after := by
  unfold checkCollect
  by_cases hblocked : g.blockGc = true
  · exact ⟨g, 0, if_pos hblocked⟩
  · obtain ⟨count, hpauses⟩ := hreaches.exists_pausesAfter g
    have hends : CheckEnds choice gcstepmul limit 0 g :=
      checkEnds_first hreaches (Bool.eq_false_iff.mpr hblocked) hpauses
    obtain ⟨after, fuel, hrun⟩ := hends
    exact ⟨after, fuel, (if_neg hblocked).trans hrun⟩

/-- The check of the limit ends, from every state. -/
theorem exists_lCheckMemlimit (hreaches : ReachesPause choice) (config : MemoryConfig)
    (g : GlobalState) (needbytes : ℕ) :
    ∃ result fuel, lCheckMemlimit choice config g needbytes fuel = some result := by
  unfold lCheckMemlimit
  by_cases hmore : config.memlimit < needbytes
  · exact ⟨(true, g), 0, if_pos hmore⟩
  · obtain ⟨after, fuel, hcollect⟩ := exists_checkCollect hreaches config.gcstepmul
      ((config.memlimit + (2 ^ 32 - needbytes)) % 2 ^ 32) g
    exact ⟨_, fuel, (if_neg hmore).trans (Option.map_eq_some_iff.mpr ⟨after, hcollect, rfl⟩)⟩

theorem fuelMono_lCheckMemlimit (config : MemoryConfig) (g : GlobalState) (needbytes : ℕ) :
    FuelMono (lCheckMemlimit choice config g needbytes) :=
  .ite _ (fuelMono_const _) ((fuelMono_checkCollect ..).map _)

/-! ### Requests end -/

theorem fuelMono_lAllocAlways (g : GlobalState) : FuelMono (lAllocAlways choice config g) :=
  .ite _ (fuelMono_luaCFullgc g) (fuelMono_const _)

theorem fuelMono_lAllocLimit (request : Request) (osize : ℕ) (g : GlobalState) :
    FuelMono (lAllocLimit choice config request osize g) :=
  .ite _ (fuelMono_lCheckMemlimit ..) (fuelMono_const _)

theorem fuelMono_lAllocTry (request : Request) (g : GlobalState) :
    FuelMono (lAllocTry choice config request g) :=
  .ite _ (fuelMono_const _) (.ite _ ((fuelMono_luaCFullgc g).map _) (fuelMono_const _))

theorem fuelMono_lAllocChecked (request : Request) (checked : Bool × GlobalState) :
    FuelMono (lAllocChecked choice config request checked) :=
  .ite _ (fuelMono_const _) (fuelMono_lAllocTry ..)

theorem exists_lAllocAlways (hreaches : ReachesPause choice) (config : MemoryConfig)
    (g : GlobalState) : ∃ after fuel, lAllocAlways choice config g fuel = some after := by
  unfold lAllocAlways
  split_ifs
  · exact exists_luaCFullgc hreaches g
  · exact ⟨g, 0, rfl⟩

theorem exists_lAllocLimit (hreaches : ReachesPause choice) (config : MemoryConfig)
    (request : Request) (osize : ℕ) (g : GlobalState) :
    ∃ result fuel, lAllocLimit choice config request osize g fuel = some result := by
  unfold lAllocLimit
  split_ifs
  · exact exists_lCheckMemlimit hreaches config g _
  · exact ⟨_, 0, rfl⟩

theorem exists_lAllocTry (hreaches : ReachesPause choice) (config : MemoryConfig)
    (request : Request) (g : GlobalState) :
    ∃ result fuel, lAllocTry choice config request g fuel = some result := by
  unfold lAllocTry
  split_ifs
  · exact ⟨_, 0, rfl⟩
  · obtain ⟨after, fuel, hfull⟩ := exists_luaCFullgc hreaches g
    exact ⟨_, fuel, Option.map_eq_some_iff.mpr ⟨after, hfull, rfl⟩⟩
  · exact ⟨_, 0, rfl⟩

theorem exists_lAllocChecked (hreaches : ReachesPause choice) (config : MemoryConfig)
    (request : Request) (checked : Bool × GlobalState) :
    ∃ result fuel, lAllocChecked choice config request checked fuel = some result := by
  unfold lAllocChecked
  split_ifs
  · exact ⟨_, 0, rfl⟩
  · exact exists_lAllocTry hreaches config request checked.2

theorem exists_lAlloc (hreaches : ReachesPause choice) (config : MemoryConfig) (request : Request)
    (g : GlobalState) : ∃ result fuel, lAlloc choice config request g fuel = some result := by
  by_cases hfrees : request.nsize = 0
  · exact ⟨_, 0, if_pos hfrees⟩
  · obtain ⟨first, hfirst⟩ := exists_lAllocAlways hreaches config g
    obtain ⟨checked, hchecked⟩ :=
      exists_lAllocLimit hreaches config request (g.blocks.size request.block) first
    obtain ⟨result, hresult⟩ := exists_lAllocChecked hreaches config request checked
    have hlimits : ∃ fuel, (lAllocAlways choice config g fuel).bind
        (lAllocLimit choice config request (g.blocks.size request.block) · fuel) = some checked :=
      (fuelMono_lAllocAlways g).exists_bind (fuelMono_lAllocLimit ..) hfirst hchecked
    obtain ⟨fuel, hrun⟩ := ((fuelMono_lAllocAlways g).bind
      (fuelMono_lAllocLimit request (g.blocks.size request.block))).exists_bind
        (fuelMono_lAllocChecked request checked) hlimits hresult
    exact ⟨result, fuel, (if_neg hfrees).trans hrun⟩

/-- Every request ends. -/
theorem exists_luaMRealloc (hreaches : ReachesPause choice) (config : MemoryConfig)
    (request : Request) (g : GlobalState) :
    ∃ fuel result, luaMRealloc choice config request g fuel = some result := by
  obtain ⟨result, fuel, halloc⟩ :=
    exists_lAlloc hreaches config request { g with inFlight := some request.block }
  exact ⟨fuel, _, Option.map_eq_some_iff.mpr ⟨result, halloc, rfl⟩⟩

/-! ### What a request leaves -/

/-- A pass of the loop leaves it as it is, or makes a step of the collector. -/
theorem checkBody_cases {fuel : ℕ} {state : ℕ × GlobalState}
    {result : ℕ × GlobalState ⊕ GlobalState}
    (hpass : checkBody choice gcstepmul limit fuel state = some result) :
    result = .inr state.2 ∨
      ∃ next after, result = .inl (next, after) ∧
        luaCStep choice gcstepmul fuel state.2 = some after := by
  have hgoes : ∀ next, (luaCStep choice gcstepmul fuel state.2).map
      (fun g ↦ (.inl (next, g) : ℕ × GlobalState ⊕ GlobalState)) = some result →
      ∃ next after, result = .inl (next, after) ∧
        luaCStep choice gcstepmul fuel state.2 = some after := by
    intro next hmap
    obtain ⟨after, hstep, heq⟩ := Option.map_eq_some_iff.mp hmap
    exact ⟨next, after, heq.symm, hstep⟩
  unfold checkBody at hpass
  dsimp only at hpass
  by_cases hfull : limit ≤ state.2.totalbytes
  · rw [if_pos hfull] at hpass
    split_ifs at hpass
    all_goals first | exact .inl (Option.some.inj hpass).symm | exact .inr (hgoes _ hpass)
  · rw [if_neg hfull] at hpass
    exact .inl (Option.some.inj hpass).symm

theorem collects_checkCollect {fuel : ℕ} {after : GlobalState}
    (hcollect : checkCollect choice gcstepmul limit g fuel = some after) : Collects g after := by
  unfold checkCollect at hcollect
  split_ifs at hcollect with hblocked
  · obtain rfl := Option.some.inj hcollect
    exact .refl g
  · obtain ⟨last, hvisits, hleaves⟩ := exists_leaves_of_runLoop hcollect
    have hlast : Collects g last.2 := by
      refine hvisits.rule (fun state ↦ Collects g state.2) (.refl g) ?_
      intro first second hfirst hpass
      obtain hleave | ⟨next, stepped, hgo, hstep⟩ := checkBody_cases hpass
      · cases hleave
      · obtain rfl := Sum.inl.inj hgo
        exact hfirst.trans (collects_luaCStep hstep)
    obtain hleave | ⟨next, stepped, hgo, -⟩ := checkBody_cases hleaves
    · obtain rfl := Sum.inr.inj hleave
      exact hlast
    · cases hgo

/-- The check only collects, and if it does not refuse, the count stays below the limit with the
bytes needed. -/
theorem lCheckMemlimit_spec {needbytes fuel : ℕ} {refuses : Bool} {after : GlobalState}
    (hcheck : lCheckMemlimit choice config g needbytes fuel = some (refuses, after)) :
    Collects g after ∧ (refuses = false → after.totalbytes + needbytes < config.memlimit) := by
  have hlimit := config.memlimit_lt
  unfold lCheckMemlimit at hcheck
  dsimp only at hcheck
  split_ifs at hcheck with hmore
  · obtain ⟨rfl, rfl⟩ := Prod.mk.inj (Option.some.inj hcheck)
    exact ⟨.refl g, fun hfalse ↦ by cases hfalse⟩
  · obtain ⟨collected, hcollect, heq⟩ := Option.map_eq_some_iff.mp hcheck
    obtain ⟨rfl, rfl⟩ := Prod.mk.inj heq
    refine ⟨collects_checkCollect hcollect, fun hgrants ↦ ?_⟩
    have hbelow := of_decide_eq_false hgrants
    omega

/-- What `l_alloc` leaves: it has only collected; if it returns a block, this fits the address
space, and more bytes than before are within the limit. -/
structure AllocLeaves (config : MemoryConfig) (request : Request) (osize : ℕ)
    (before after : GlobalState) (granted : Bool) : Prop where
  collects : Collects before after
  fits : granted = true →
    after.blocks.liveBytes - after.blocks.size request.block + request.nsize < 2 ^ 32
  limit : granted = true → Accounted before → osize < request.nsize →
    after.totalbytes + (request.nsize - osize) < config.memlimit

theorem Collects.totalbytes_le {before after : GlobalState} (hcollects : Collects before after)
    (haccounted : Accounted before) : after.totalbytes ≤ before.totalbytes := by
  have hbytes := hcollects.bytes haccounted
  have hmore := hcollects.collected
  omega

theorem lAllocTry_spec {request : Request} {fuel : ℕ} {granted : Bool} {after : GlobalState}
    (htry : lAllocTry choice config request g fuel = some (granted, after)) :
    Collects g after ∧ (granted = true →
      after.blocks.liveBytes - after.blocks.size request.block + request.nsize < 2 ^ 32) := by
  have hable : ∀ (state : GlobalState) able,
      reallocable state request.block request.nsize able = true →
        state.blocks.liveBytes - state.blocks.size request.block + request.nsize < 2 ^ 32 :=
    fun _ _ hable ↦ of_decide_eq_true (Bool.and_eq_true_iff.mp hable).2
  unfold lAllocTry at htry
  split_ifs at htry with hfirst hfailure
  · obtain ⟨rfl, rfl⟩ := Prod.mk.inj (Option.some.inj htry)
    exact ⟨.refl g, fun _ ↦ hable _ _ hfirst⟩
  · obtain ⟨collected, hfull, heq⟩ := Option.map_eq_some_iff.mp htry
    obtain ⟨rfl, rfl⟩ := Prod.mk.inj heq
    exact ⟨collects_luaCFullgc hfull, hable _ _⟩
  · obtain ⟨rfl, rfl⟩ := Prod.mk.inj (Option.some.inj htry)
    exact ⟨.refl g, fun hfalse ↦ by cases hfalse⟩

theorem lAlloc_spec (hlimit : 0 < config.memlimit) (hactive : config.onMemLimit = true)
    {request : Request} (hsize : 0 < request.nsize) {fuel : ℕ} {granted : Bool}
    {after : GlobalState}
    (halloc : lAlloc choice config request g fuel = some (granted, after)) :
    AllocLeaves config request (g.blocks.size request.block) g after granted := by
  unfold lAlloc at halloc
  dsimp only at halloc
  rw [if_neg (Nat.ne_of_gt hsize)] at halloc
  obtain ⟨checked, hchecked, hrest⟩ := Option.bind_eq_some_iff.mp halloc
  obtain ⟨first, hfirst, hlimits⟩ := Option.bind_eq_some_iff.mp hchecked
  have hcycle : Collects g first := by
    unfold lAllocAlways at hfirst
    split_ifs at hfirst
    · exact collects_luaCFullgc hfirst
    · obtain rfl := Option.some.inj hfirst
      exact .refl g
  have hcheck : Collects first checked.2 ∧ (checked.1 = false →
      g.blocks.size request.block < request.nsize →
        checked.2.totalbytes + (request.nsize - g.blocks.size request.block) <
          config.memlimit) := by
    unfold lAllocLimit at hlimits
    by_cases hgrows : g.blocks.size request.block < request.nsize
    · rw [if_pos ⟨hgrows, hlimit, hactive⟩] at hlimits
      obtain ⟨hcollects, hbelow⟩ := lCheckMemlimit_spec hlimits
      exact ⟨hcollects, fun hgranted _ ↦ hbelow hgranted⟩
    · rw [if_neg fun hall ↦ hgrows hall.1] at hlimits
      obtain rfl := Option.some.inj hlimits
      exact ⟨.refl first, fun _ hmore ↦ absurd hmore hgrows⟩
  obtain ⟨hcollects, hbelow⟩ := hcheck
  have htogether := hcycle.trans hcollects
  unfold lAllocChecked at hrest
  split_ifs at hrest with hrefused
  · obtain ⟨rfl, rfl⟩ := Prod.mk.inj (Option.some.inj hrest)
    exact ⟨htogether, fun hfalse ↦ (by cases hfalse), fun hfalse ↦ (by cases hfalse)⟩
  · obtain ⟨htried, hfits⟩ := lAllocTry_spec hrest
    refine ⟨htogether.trans htried, hfits, fun hgranted haccounted hgrows ↦ ?_⟩
    have hroom := hbelow (Bool.eq_false_iff.mpr hrefused) hgrows
    have hless := htried.totalbytes_le (htogether.accounted haccounted)
    omega

/-- What `luaM_realloc_` leaves. -/
theorem luaMRealloc_spec (hlimit : 0 < config.memlimit) (hactive : config.onMemLimit = true)
    (haccounted : Accounted g) {request : Request} {fuel : ℕ} {thrown : Bool} {after : GlobalState}
    (hrealloc : luaMRealloc choice config request g fuel = some (thrown, after)) :
    Accounted after ∧ after.inFlight = none ∧
      (thrown = false → g.blocks.size request.block < request.nsize →
        after.totalbytes ≤ config.memlimit) ∧
      (thrown = true → after.totalbytes + (after.collected - g.collected) = g.totalbytes) := by
  obtain ⟨⟨granted, middle⟩, halloc, heq⟩ := Option.map_eq_some_iff.mp hrealloc
  have hheld : Accounted { g with inFlight := some request.block } :=
    ⟨haccounted.totalbytes, haccounted.fits⟩
  have hclear : ∀ {state : GlobalState},
      Accounted state → Accounted { state with inFlight := none } :=
    fun hstate ↦ ⟨hstate.totalbytes, hstate.fits⟩
  unfold finishRealloc at heq
  dsimp only at heq
  by_cases hsize : 0 < request.nsize
  · obtain ⟨hcollects, hfits, hbelow⟩ := lAlloc_spec hlimit hactive hsize halloc
    have hmiddle := hcollects.accounted hheld
    cases granted with
    | false =>
      rw [if_pos ⟨rfl, hsize⟩] at heq
      obtain ⟨rfl, rfl⟩ := Prod.mk.inj heq
      refine ⟨hclear hmiddle, rfl, fun hfalse ↦ (by cases hfalse), fun _ ↦ ?_⟩
      have hbytes := hcollects.bytes hheld
      have hmore := hcollects.collected
      dsimp only at hbytes hmore ⊢
      omega
    | true =>
      rw [if_neg fun hboth ↦ by cases hboth.1] at heq
      obtain ⟨rfl, rfl⟩ := Prod.mk.inj heq
      obtain ⟨htotal, hafter⟩ := hmiddle.account request.block request.nsize (hfits rfl)
      refine ⟨hclear hafter, rfl, fun _ hgrows ↦ ?_, fun hfalse ↦ (by cases hfalse)⟩
      have hkept : middle.blocks.size request.block = g.blocks.size request.block :=
        hcollects.size request.block rfl
      have hroom := hbelow rfl hheld hgrows
      have hpart := middle.blocks.size_le_liveBytes request.block
      have hcount := hmiddle.totalbytes
      dsimp only at hroom ⊢
      omega
  · obtain hfrees : request.nsize = 0 := by omega
    obtain ⟨rfl, rfl⟩ : false = granted ∧ { g with inFlight := some request.block } = middle := by
      unfold lAlloc at halloc
      dsimp only at halloc
      rw [if_pos hfrees] at halloc
      exact Prod.mk.inj (Option.some.inj halloc)
    rw [if_neg fun hboth ↦ hsize hboth.2] at heq
    obtain ⟨rfl, rfl⟩ := Prod.mk.inj heq
    have hfree := haccounted.fits
    obtain ⟨-, hafter⟩ := hheld.account request.block request.nsize (by dsimp only; omega)
    exact ⟨hclear hafter, rfl, fun _ hgrows ↦ by omega, fun hfalse ↦ by cases hfalse⟩

/-! ### The limit is enforced -/

/-- The bytes are accounted for in every state reached. -/
theorem accounted_of_reachable (hlimit : 0 < config.memlimit) (hactive : config.onMemLimit = true)
    (hreach : (memorySystem choice config).Reachable g) : Accounted g ∧ g.inFlight = none := by
  refine hreach.invariant (fun g ↦ Accounted g ∧ g.inFlight = none) (fun _ hstart ↦ hstart) ?_
  rintro g event after ⟨haccounted, hidle⟩ - hstep
  have hkeeps : ∀ {after : GlobalState},
      Collects g after → Accounted after ∧ after.inFlight = none :=
    fun hcollects ↦ ⟨hcollects.accounted haccounted, hcollects.inFlight.trans hidle⟩
  cases event with
  | realloc request =>
    obtain ⟨fuel, thrown, hrealloc⟩ := hstep
    obtain ⟨hafter, hnone, -⟩ := luaMRealloc_spec hlimit hactive haccounted hrealloc
    exact ⟨hafter, hnone⟩
  | step =>
    obtain ⟨fuel, hsteps⟩ := hstep
    exact hkeeps (collects_luaCStep hsteps)
  | fullgc =>
    obtain ⟨fuel, hfull⟩ := hstep
    exact hkeeps (collects_luaCFullgc hfull)
  | singlestep =>
    obtain rfl := hstep
    exact hkeeps (collects_afterStep g)
  | block blocked =>
    obtain rfl := hstep
    exact hkeeps (.of_same rfl rfl rfl rfl)

/-- With a limit set and its mode active, and a collector that only frees and always comes to its
pause: the count is the number of live bytes in every state reached. The loop of the check ends in
any state. Every request ends; if it is granted more bytes, the count is within the limit, and if it
throws, the count is the one before less what was collected. -/
theorem memlimit_enforced (choice : ℕ → StepChoice) (config : MemoryConfig)
    (hlimit : 0 < config.memlimit) (hactive : config.onMemLimit = true)
    (hpauses : ReachesPause choice) :
    (∀ g needbytes, ∃ result fuel, lCheckMemlimit choice config g needbytes fuel = some result) ∧
    ∀ g, (memorySystem choice config).Reachable g →
      g.totalbytes = g.blocks.liveBytes ∧
      ∀ request,
        (∃ fuel result, luaMRealloc choice config request g fuel = some result) ∧
        ∀ fuel thrown after, luaMRealloc choice config request g fuel = some (thrown, after) →
          (thrown = false → g.blocks.size request.block < request.nsize →
            after.totalbytes ≤ config.memlimit) ∧
          (thrown = true → after.totalbytes + (after.collected - g.collected) = g.totalbytes) := by
  refine ⟨exists_lCheckMemlimit hpauses config, fun g hreach ↦ ?_⟩
  obtain ⟨haccounted, -⟩ := accounted_of_reachable hlimit hactive hreach
  refine ⟨haccounted.totalbytes, fun request ↦ ⟨exists_luaMRealloc hpauses config request g,
    fun fuel thrown after hrealloc ↦ ?_⟩⟩
  exact (luaMRealloc_spec hlimit hactive haccounted hrealloc).2.2

/-- A collector that never has more to do in a phase. -/
def idleCollector : ℕ → StepChoice := fun _ ↦ ⟨false, 0, []⟩

theorem reachesPause_idleCollector : ReachesPause idleCollector := by
  rintro ⟨gcstate, blocks, totalbytes, blockGc, position, inFlight, collected⟩
  cases gcstate with
  | pause => exact ⟨0, rfl⟩
  | propagate => exact ⟨4, rfl⟩
  | sweepstring => exact ⟨3, rfl⟩
  | sweep => exact ⟨2, rfl⟩
  | finalize => exact ⟨1, rfl⟩

/-- A limit of 1024 bytes. -/
def kilobyteLimit : MemoryConfig where
  memlimit := 1024
  memlimit_lt := by decide
  onAllocFailure := true
  onMemLimit := true
  always := false
  gcstepmul := 200

/-- No block is live. -/
def emptyMemory : GlobalState where
  gcstate := .pause
  blocks := ⟨fun _ ↦ 0, 0, fun _ _ ↦ rfl⟩
  totalbytes := 0
  blockGc := false
  position := 0
  inFlight := none
  collected := 0

theorem accounted_emptyMemory : Accounted emptyMemory := ⟨rfl, by decide⟩

/-- A new block of 100 bytes. -/
def hundredBytes : Request := ⟨0, 100, by decide, true, true⟩

theorem memlimit_enforced_kilobyte :
    ∃ after, luaMRealloc idleCollector kilobyteLimit hundredBytes emptyMemory 1 =
        some (false, after) ∧ after.totalbytes ≤ 1024 :=
  ⟨_, rfl, (((memlimit_enforced idleCollector kilobyteLimit (by decide) rfl
    reachesPause_idleCollector).2 emptyMemory (.start ⟨accounted_emptyMemory, rfl⟩)).2
      hundredBytes).2 1 false _ rfl |>.1 rfl (by decide)⟩

end Elua.Lua
