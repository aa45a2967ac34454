import Elua.Foundation.Loop
import Mathlib.Algebra.BigOperators.Group.Finset.Basic
import Mathlib.Algebra.BigOperators.Group.Finset.Piecewise
import Mathlib.Data.Finset.Range
import Mathlib.Logic.Function.Iterate

/-!
# The collector and the bytes it frees

The live blocks of the Lua allocator with their sizes (`Blocks`), the count `totalbytes` that the
state keeps of them, and the collector of `lgc.c` as far as it matters to these: the phases of a
cycle (`singlestep`), a step of the cycle (`luaCStep`) and a full cycle (`luaCFullgc`). What the
collector finds to do is not modelled. It is given by a stream of choices: whether there is more to
do in the phase, what it costs, and which blocks are freed or made smaller.

`Collects` says what any of these leaves: the count has gone down by what was collected, it still is
the number of live bytes, and the block that a caller has in hand is as it was. -/

set_option autoImplicit false
set_option relaxedAutoImplicit false

namespace Elua.Lua

open Foundation

/-! ### Blocks -/

/-- The sizes of the blocks. A block that is not live has size zero, and only finitely many are. -/
structure Blocks where
  size : ℕ → ℕ
  bound : ℕ
  size_eq_zero : ∀ block, bound ≤ block → size block = 0

/-- The sum of the sizes of the live blocks. -/
def Blocks.liveBytes (blocks : Blocks) : ℕ := ∑ block ∈ Finset.range blocks.bound, blocks.size block

/-- Allocates, reallocates or frees a block. -/
def Blocks.resize (blocks : Blocks) (block nsize : ℕ) : Blocks where
  size := Function.update blocks.size block nsize
  bound := max blocks.bound (block + 1)
  size_eq_zero := fun other hother ↦ by
    have hne : other ≠ block := by omega
    rw [Function.update_of_ne hne]
    exact blocks.size_eq_zero other (by omega)

theorem Blocks.sum_range_of_le (blocks : Blocks) {bound : ℕ} (hle : blocks.bound ≤ bound) :
    ∑ block ∈ Finset.range bound, blocks.size block = blocks.liveBytes := by
  refine (Finset.sum_subset (Finset.range_subset_range.mpr hle) fun block _ hnot ↦ ?_).symm
  rw [Finset.mem_range] at hnot
  exact blocks.size_eq_zero block (Nat.le_of_not_lt hnot)

/-- The sum changes by what the size of the block changes. -/
theorem Blocks.liveBytes_resize (blocks : Blocks) (block nsize : ℕ) :
    (blocks.resize block nsize).liveBytes + blocks.size block = blocks.liveBytes + nsize := by
  have hmem : block ∈ Finset.range (max blocks.bound (block + 1)) :=
    Finset.mem_range.mpr (by omega)
  have hbefore := blocks.sum_range_of_le (Nat.le_max_left blocks.bound (block + 1))
  rw [← Finset.sum_erase_add _ _ hmem] at hbefore
  have hafter : (blocks.resize block nsize).liveBytes =
      nsize + ∑ other ∈ Finset.range (max blocks.bound (block + 1)) \ {block}, blocks.size other :=
    Finset.sum_update_of_mem hmem _ _
  rw [Finset.sdiff_singleton_eq_erase] at hafter
  omega

theorem Blocks.size_le_liveBytes (blocks : Blocks) (block : ℕ) :
    blocks.size block ≤ blocks.liveBytes := by
  have hsum := blocks.liveBytes_resize block 0
  omega

/-! ### The state -/

/-- The phases of a collection: `GCSpause` to `GCSfinalize`. -/
inductive GcState
  | pause | propagate | sweepstring | sweep | finalize
  deriving DecidableEq, Repr

/-- What the collector finds in a single step: whether there is more to do in its phase, what the
step costs if it marks, and the blocks that it frees or makes smaller, with their new sizes. -/
structure StepChoice where
  more : Bool
  cost : ℕ
  releases : List (ℕ × ℕ)

/-- The part of `global_State` that the accounting needs. The estimate and the thresholds only
decide when a step is made, so they are left out. `position` counts the single steps, `inFlight` is
the block that a call of the allocator has in hand, and `collected` counts the bytes collected. -/
structure GlobalState where
  gcstate : GcState
  blocks : Blocks
  totalbytes : ℕ
  blockGc : Bool
  position : ℕ
  inFlight : Option ℕ
  collected : ℕ

/-- `g->totalbytes = (g->totalbytes - osize) + nsize`, in 32 bits, for a block that changes its
size. -/
def GlobalState.account (g : GlobalState) (block nsize : ℕ) : GlobalState :=
  { g with
    blocks := g.blocks.resize block nsize
    totalbytes := (g.totalbytes + (2 ^ 32 - g.blocks.size block) + nsize) % 2 ^ 32 }

/-! ### The collector -/

/-- `GCSTEPSIZE`. -/
def gcStepSize : ℕ := 1024

/-- `GCSWEEPMAX`. -/
def gcSweepMax : ℕ := 40

/-- `GCSWEEPCOST`. -/
def gcSweepCost : ℕ := 10

/-- `GCFINALIZECOST`. -/
def gcFinalizeCost : ℕ := 100

/-- A block is freed or made smaller. The collector does not touch the block in hand. -/
def GlobalState.release (g : GlobalState) (block nsize : ℕ) : GlobalState :=
  if g.inFlight = some block ∨ g.blocks.size block ≤ nsize then g
  else { g.account block nsize with collected := g.collected + (g.blocks.size block - nsize) }

/-- All releases of a step. -/
def GlobalState.releaseAll (g : GlobalState) (releases : List (ℕ × ℕ)) : GlobalState :=
  releases.foldl (fun g release ↦ g.release release.1 release.2) g

/-- `singlestep`: the cost, and the state. Marking makes stacks smaller (`checkstacksizes`). -/
def singlestep (choice : ℕ → StepChoice) (g : GlobalState) : ℕ × GlobalState :=
  let found := choice g.position
  let next := { g with position := g.position + 1 }
  match g.gcstate with
  | .pause => (0, { next with gcstate := .propagate })
  | .propagate =>
    let next := next.releaseAll found.releases
    if found.more then (found.cost, next) else (0, { next with gcstate := .sweepstring })
  | .sweepstring =>
    let next := next.releaseAll found.releases
    (gcSweepCost, if found.more then next else { next with gcstate := .sweep })
  | .sweep =>
    let next := next.releaseAll found.releases
    (gcSweepMax * gcSweepCost, if found.more then next else { next with gcstate := .finalize })
  | .finalize =>
    if found.more then (gcFinalizeCost, next.releaseAll found.releases)
    else (0, { next with gcstate := .pause })

/-- The state after a single step. -/
def afterStep (choice : ℕ → StepChoice) (g : GlobalState) : GlobalState := (singlestep choice g).2

/-- One turn of the loop of `luaC_step`, with the work left. -/
def stepBody (choice : ℕ → StepChoice) :
    ℤ × GlobalState → Option (ℤ × GlobalState ⊕ GlobalState)
  | (lim, g) =>
    let (cost, g) := singlestep choice g
    let lim := lim - cost
    some (if g.gcstate = .pause ∨ lim ≤ 0 then .inr g else .inl (lim, g))

/-- The work of a step: `(GCSTEPSIZE/100) * g->gcstepmul` as a signed number of 32 bits, or no
limit. -/
def stepLimit (gcstepmul : ℤ) : ℤ :=
  let lim := Int.bmod ((gcStepSize / 100 : ℕ) * gcstepmul) (2 ^ 32)
  if lim = 0 then (2 ^ 32 - 4) / 2 else lim

/-- `luaC_step`. -/
def luaCStep (choice : ℕ → StepChoice) (gcstepmul : ℤ) (fuel : ℕ) (g : GlobalState) :
    Option GlobalState :=
  if g.blockGc then some g
  else
    (runLoop (stepBody choice) fuel (stepLimit gcstepmul, { g with blockGc := true })).map
      ({ · with blockGc := false })

/-- One turn of a loop of `luaC_fullgc`, which runs up to a phase. -/
def phaseBody (choice : ℕ → StepChoice) (finish : GcState) (g : GlobalState) :
    Option (GlobalState ⊕ GlobalState) :=
  some (if g.gcstate = finish then .inr g else .inl (afterStep choice g))

/-- The start of `luaC_fullgc`: a cycle that has not begun to sweep goes straight to sweeping. -/
def startFullgc (g : GlobalState) : GlobalState :=
  { g with
    blockGc := true
    gcstate := if g.gcstate = .pause ∨ g.gcstate = .propagate then .sweepstring else g.gcstate }

/-- The end of `luaC_fullgc`: a new cycle, up to the pause. -/
def endFullgc (choice : ℕ → StepChoice) (g : GlobalState) (fuel : ℕ) : Option GlobalState :=
  (runLoop (phaseBody choice .pause) fuel { g with gcstate := .propagate }).map
    ({ · with blockGc := false })

/-- `luaC_fullgc`: ends the cycle that is going on up to its last phase, and makes a new one. -/
def luaCFullgc (choice : ℕ → StepChoice) (fuel : ℕ) (g : GlobalState) : Option GlobalState :=
  if g.blockGc then some g
  else
    (runLoop (phaseBody choice .finalize) fuel (startFullgc g)).bind (endFullgc choice · fuel)

/-- The collector reaches its pause from every state, after finitely many single steps. -/
def ReachesPause (choice : ℕ → StepChoice) : Prop :=
  ∀ g : GlobalState, ∃ count, ((afterStep choice)^[count] g).gcstate = .pause

/-! ### What the collector leaves -/

/-- The count is the number of live bytes, and these fit the address space. -/
structure Accounted (g : GlobalState) : Prop where
  totalbytes : g.totalbytes = g.blocks.liveBytes
  fits : g.blocks.liveBytes < 2 ^ 32

/-- A block is accounted for with its new size. -/
theorem Accounted.account {g : GlobalState} (haccounted : Accounted g) (block nsize : ℕ)
    (hfits : g.blocks.liveBytes - g.blocks.size block + nsize < 2 ^ 32) :
    (g.account block nsize).totalbytes = g.blocks.liveBytes - g.blocks.size block + nsize ∧
      Accounted (g.account block nsize) := by
  have hsize := g.blocks.size_le_liveBytes block
  have hlive := g.blocks.liveBytes_resize block nsize
  have hfree := haccounted.fits
  have htotal : (g.account block nsize).totalbytes =
      g.blocks.liveBytes - g.blocks.size block + nsize := by
    unfold GlobalState.account
    rw [haccounted.totalbytes]
    dsimp only
    omega
  refine ⟨htotal, htotal.trans ?_, ?_⟩
  · change _ = (g.blocks.resize block nsize).liveBytes
    omega
  · change (g.blocks.resize block nsize).liveBytes < 2 ^ 32
    omega

/-- What is left of a state by a collection: less bytes, all accounted for, and the block in hand.
-/
structure Collects (before after : GlobalState) : Prop where
  accounted : Accounted before → Accounted after
  bytes : Accounted before →
    after.totalbytes + after.collected = before.totalbytes + before.collected
  collected : before.collected ≤ after.collected
  inFlight : after.inFlight = before.inFlight
  size : ∀ block, before.inFlight = some block →
    after.blocks.size block = before.blocks.size block

theorem Collects.trans {first second third : GlobalState} (hfirst : Collects first second)
    (hsecond : Collects second third) : Collects first third where
  accounted := fun haccounted ↦ hsecond.accounted (hfirst.accounted haccounted)
  bytes := fun haccounted ↦
    (hsecond.bytes (hfirst.accounted haccounted)).trans (hfirst.bytes haccounted)
  collected := Nat.le_trans hfirst.collected hsecond.collected
  inFlight := hsecond.inFlight.trans hfirst.inFlight
  size := fun block hblock ↦
    (hsecond.size block (hfirst.inFlight.trans hblock)).trans (hfirst.size block hblock)

/-- Nothing is collected where only the phase, the position and the block flag change. -/
theorem Collects.of_same {before after : GlobalState} (hblocks : after.blocks = before.blocks)
    (htotal : after.totalbytes = before.totalbytes)
    (hcollected : after.collected = before.collected)
    (hinFlight : after.inFlight = before.inFlight) : Collects before after where
  accounted := fun haccounted ↦
    ⟨by rw [hblocks, htotal]; exact haccounted.totalbytes, by rw [hblocks]; exact haccounted.fits⟩
  bytes := fun _ ↦ by rw [htotal, hcollected]
  collected := Nat.le_of_eq hcollected.symm
  inFlight := hinFlight
  size := fun block _ ↦ by rw [hblocks]

theorem Collects.refl (g : GlobalState) : Collects g g := .of_same rfl rfl rfl rfl

theorem collects_release (g : GlobalState) (block nsize : ℕ) :
    Collects g (g.release block nsize) := by
  unfold GlobalState.release
  split_ifs with hkept
  · exact .refl g
  · rw [not_or, Nat.not_le] at hkept
    obtain ⟨hother, hsmaller⟩ := hkept
    have hsize := g.blocks.size_le_liveBytes block
    refine ⟨fun haccounted ↦ ?_, fun haccounted ↦ ?_, Nat.le_add_right .., rfl, fun held hheld ↦ ?_⟩
    · have hfits := haccounted.fits
      obtain ⟨-, hafter⟩ := haccounted.account block nsize (by omega)
      exact ⟨hafter.totalbytes, hafter.fits⟩
    · have hfits := haccounted.fits
      obtain ⟨htotal, -⟩ := haccounted.account block nsize (by omega)
      have hcount := haccounted.totalbytes
      dsimp only
      rw [htotal]
      omega
    · have hne : held ≠ block := fun hsame ↦ hother (hsame ▸ hheld)
      exact Function.update_of_ne hne ..

theorem collects_releaseAll (g : GlobalState) (releases : List (ℕ × ℕ)) :
    Collects g (g.releaseAll releases) := by
  unfold GlobalState.releaseAll
  induction releases generalizing g with
  | nil => exact .refl g
  | cons release releases ih => exact (collects_release g _ _).trans (ih _)

variable {choice : ℕ → StepChoice}

/-- A single step only frees. -/
theorem collects_afterStep (g : GlobalState) : Collects g (afterStep choice g) := by
  have hnext : ∀ phase, Collects g { g with position := g.position + 1, gcstate := phase } :=
    fun _ ↦ .of_same rfl rfl rfl rfl
  have hreleases := fun phase ↦ (hnext phase).trans (collects_releaseAll
    { g with position := g.position + 1, gcstate := phase } (choice g.position).releases)
  have hphase : ∀ (after : GlobalState) phase, Collects g after →
      Collects g { after with gcstate := phase } :=
    fun _ _ hafter ↦ hafter.trans (.of_same rfl rfl rfl rfl)
  unfold afterStep singlestep
  cases g.gcstate with
  | pause => exact hnext .propagate
  | propagate =>
    dsimp only
    split_ifs
    · exact hreleases .propagate
    · exact hphase _ .sweepstring (hreleases .propagate)
  | sweepstring =>
    dsimp only
    split_ifs
    · exact hreleases .sweepstring
    · exact hphase _ .sweep (hreleases .sweepstring)
  | sweep =>
    dsimp only
    split_ifs
    · exact hreleases .sweep
    · exact hphase _ .finalize (hreleases .sweep)
  | finalize =>
    dsimp only
    split_ifs
    · exact hreleases .finalize
    · exact hnext .pause

/-- A step of the collector only frees. -/
theorem collects_luaCStep {gcstepmul : ℤ} {fuel : ℕ} {g after : GlobalState}
    (hstep : luaCStep choice gcstepmul fuel g = some after) : Collects g after := by
  unfold luaCStep at hstep
  split_ifs at hstep with hblocked
  · obtain rfl := Option.some.inj hstep
    exact .refl g
  · obtain ⟨middle, hrun, rfl⟩ := Option.map_eq_some_iff.mp hstep
    obtain ⟨last, hvisits, hleaves⟩ := exists_leaves_of_runLoop hrun
    have hlast : Collects g last.2 := by
      refine hvisits.rule (fun state ↦ Collects g state.2) (.of_same rfl rfl rfl rfl) ?_
      intro first second hfirst hpass
      unfold Continues stepBody at hpass
      dsimp only at hpass
      split_ifs at hpass with hends
      · cases Option.some.inj hpass
      · obtain rfl := Sum.inl.inj (Option.some.inj hpass)
        exact hfirst.trans (collects_afterStep first.2)
    unfold stepBody at hleaves
    dsimp only at hleaves
    split_ifs at hleaves with hends
    · obtain rfl := Sum.inr.inj (Option.some.inj hleaves)
      exact (hlast.trans (collects_afterStep last.2)).trans (.of_same rfl rfl rfl rfl)
    · cases Option.some.inj hleaves

theorem collects_phase {finish : GcState} {fuel : ℕ} {g after : GlobalState}
    (hrun : runLoop (phaseBody choice finish) fuel g = some after) : Collects g after := by
  obtain ⟨last, hvisits, hleaves⟩ := exists_leaves_of_runLoop hrun
  have hlast : Collects g last := by
    refine hvisits.rule (Collects g) (.refl g) fun first second hfirst hpass ↦ ?_
    unfold Continues phaseBody at hpass
    split_ifs at hpass with hends
    · cases Option.some.inj hpass
    · obtain rfl := Sum.inl.inj (Option.some.inj hpass)
      exact hfirst.trans (collects_afterStep first)
  unfold phaseBody at hleaves
  split_ifs at hleaves with hends
  · obtain rfl := Sum.inr.inj (Option.some.inj hleaves)
    exact hlast
  · cases Option.some.inj hleaves

/-- A full cycle of the collector only frees. -/
theorem collects_luaCFullgc {fuel : ℕ} {g after : GlobalState}
    (hfull : luaCFullgc choice fuel g = some after) : Collects g after := by
  unfold luaCFullgc at hfull
  split_ifs at hfull with hblocked
  · obtain rfl := Option.some.inj hfull
    exact .refl g
  · obtain ⟨middle, hfirst, hsecond⟩ := Option.bind_eq_some_iff.mp hfull
    obtain ⟨last, hlast, rfl⟩ := Option.map_eq_some_iff.mp hsecond
    have hstart : Collects g (startFullgc g) := .of_same rfl rfl rfl rfl
    have hmiddle : Collects middle { middle with gcstate := .propagate } :=
      .of_same rfl rfl rfl rfl
    have hend : Collects last { last with blockGc := false } := .of_same rfl rfl rfl rfl
    exact (hstart.trans (collects_phase hfirst)).trans
      ((hmiddle.trans (collects_phase hlast)).trans hend)

/-! ### The collector ends -/

/-- The phase after a single step. -/
def nextPhase (more : Bool) : GcState → GcState
  | .pause => .propagate
  | .propagate => if more then .propagate else .sweepstring
  | .sweepstring => if more then .sweepstring else .sweep
  | .sweep => if more then .sweep else .finalize
  | .finalize => if more then .finalize else .pause

theorem releaseAll_phase (g : GlobalState) (releases : List (ℕ × ℕ)) :
    (g.releaseAll releases).gcstate = g.gcstate ∧
      (g.releaseAll releases).position = g.position := by
  unfold GlobalState.releaseAll
  induction releases generalizing g with
  | nil => exact ⟨rfl, rfl⟩
  | cons release releases ih =>
    rw [List.foldl_cons, (ih _).1, (ih _).2]
    unfold GlobalState.release
    split_ifs <;> exact ⟨rfl, rfl⟩

/-- Phases follow each other by what the collector finds, whatever the rest of the state. -/
theorem afterStep_phase (g : GlobalState) :
    (afterStep choice g).gcstate = nextPhase (choice g.position).more g.gcstate ∧
      (afterStep choice g).position = g.position + 1 := by
  have hreleases : ∀ phase, ({ g with position := g.position + 1, gcstate := phase }.releaseAll
        (choice g.position).releases).gcstate = phase ∧
      ({ g with position := g.position + 1, gcstate := phase }.releaseAll
        (choice g.position).releases).position = g.position + 1 :=
    fun phase ↦ releaseAll_phase _ _
  unfold afterStep singlestep nextPhase
  cases g.gcstate with
  | pause => exact ⟨rfl, rfl⟩
  | propagate =>
    dsimp only
    split_ifs
    · exact hreleases .propagate
    · exact ⟨rfl, (hreleases .propagate).2⟩
  | sweepstring =>
    dsimp only
    split_ifs
    · exact hreleases .sweepstring
    · exact ⟨rfl, (hreleases .sweepstring).2⟩
  | sweep =>
    dsimp only
    split_ifs
    · exact hreleases .sweep
    · exact ⟨rfl, (hreleases .sweep).2⟩
  | finalize =>
    dsimp only
    split_ifs
    · exact hreleases .finalize
    · exact ⟨rfl, rfl⟩

/-- The collector pauses after a number of single steps. -/
def PausesAfter (choice : ℕ → StepChoice) (count : ℕ) (g : GlobalState) : Prop :=
  ((afterStep choice)^[count] g).gcstate = .pause

theorem pausesAfter_succ {count : ℕ} {g : GlobalState} :
    PausesAfter choice (count + 1) g ↔ PausesAfter choice count (afterStep choice g) := by
  unfold PausesAfter
  rw [Function.iterate_succ_apply]

/-- When it pauses depends on the phase and the position only. -/
theorem PausesAfter.congr {count : ℕ} {g other : GlobalState} (hpauses : PausesAfter choice count g)
    (hphase : other.gcstate = g.gcstate) (hposition : other.position = g.position) :
    PausesAfter choice count other := by
  induction count generalizing g other with
  | zero => exact hphase.trans hpauses
  | succ count ih =>
    rw [pausesAfter_succ] at hpauses ⊢
    refine ih hpauses ?_ ?_
    · rw [(afterStep_phase other).1, (afterStep_phase g).1, hphase, hposition]
    · rw [(afterStep_phase other).2, (afterStep_phase g).2, hposition]

theorem stepBody_eq (lim : ℤ) (g : GlobalState) : stepBody choice (lim, g) =
    some (if (afterStep choice g).gcstate = .pause ∨ lim - (singlestep choice g).1 ≤ 0 then
      .inr (afterStep choice g)
      else .inl (lim - (singlestep choice g).1, afterStep choice g)) := rfl

/-- The loop of a step ends, and pauses or comes nearer to the pause. -/
theorem exists_runLoop_stepBody {count : ℕ} {g : GlobalState}
    (hpauses : PausesAfter choice (count + 1) g) (lim : ℤ) :
    ∃ after, (∃ fuel, runLoop (stepBody choice) fuel (lim, g) = some after) ∧
      (after.gcstate = .pause ∨ ∃ fewer < count, PausesAfter choice (fewer + 1) after) := by
  induction count generalizing g lim with
  | zero =>
    rw [pausesAfter_succ] at hpauses
    have hends : stepBody choice (lim, g) = some (.inr (afterStep choice g)) := by
      rw [stepBody_eq, if_pos (.inl hpauses)]
    exact ⟨afterStep choice g, ⟨1, runLoop_of_leaves hends 0⟩, .inl hpauses⟩
  | succ count ih =>
    rw [pausesAfter_succ] at hpauses
    by_cases hends : (afterStep choice g).gcstate = .pause ∨ lim - (singlestep choice g).1 ≤ 0
    · have hleaves : stepBody choice (lim, g) = some (.inr (afterStep choice g)) := by
        rw [stepBody_eq, if_pos hends]
      exact ⟨afterStep choice g, ⟨1, runLoop_of_leaves hleaves 0⟩,
        .inr ⟨count, Nat.lt_succ_self count, hpauses⟩⟩
    · have hgoes : Continues (stepBody choice) (lim, g)
          (lim - (singlestep choice g).1, afterStep choice g) := by
        rw [Continues, stepBody_eq, if_neg hends]
      obtain ⟨after, ⟨fuel, hrun⟩, hafter⟩ := ih hpauses (lim - (singlestep choice g).1)
      refine ⟨after, ⟨fuel + 1, (runLoop_of_continues hgoes fuel).trans hrun⟩, ?_⟩
      refine hafter.imp_right ?_
      rintro ⟨fewer, hfewer, hnext⟩
      exact ⟨fewer, by omega, hnext⟩

theorem fuelMono_luaCStep (gcstepmul : ℤ) (g : GlobalState) :
    FuelMono (luaCStep choice gcstepmul · g) :=
  .ite _ (fuelMono_const _) ((fuelMono_runLoop _ _).map _)

/-- A step ends, and pauses or comes nearer to the pause. -/
theorem exists_luaCStep {count : ℕ} {g : GlobalState} (hfree : g.blockGc = false)
    (hpauses : PausesAfter choice (count + 1) g) (gcstepmul : ℤ) :
    ∃ after, (∃ fuel, luaCStep choice gcstepmul fuel g = some after) ∧ after.blockGc = false ∧
      (after.gcstate = .pause ∨ ∃ fewer < count, PausesAfter choice (fewer + 1) after) := by
  have hblocked : PausesAfter choice (count + 1) { g with blockGc := true } := hpauses.congr rfl rfl
  obtain ⟨after, ⟨fuel, hrun⟩, hafter⟩ := exists_runLoop_stepBody hblocked (stepLimit gcstepmul)
  refine ⟨{ after with blockGc := false }, ⟨fuel, ?_⟩, rfl, hafter.imp_right ?_⟩
  · unfold luaCStep
    rw [hfree, if_neg (by decide), hrun]
    rfl
  · rintro ⟨fewer, hfewer, hnext⟩
    exact ⟨fewer, hfewer, hnext.congr rfl rfl⟩

/-- A loop of a full cycle ends, if its phase comes after a number of single steps. -/
theorem exists_runLoop_phaseBody {finish : GcState} {count : ℕ} {g : GlobalState}
    (hreaches : ((afterStep choice)^[count] g).gcstate = finish) :
    ∃ after, ∃ fuel, runLoop (phaseBody choice finish) fuel g = some after := by
  induction count generalizing g with
  | zero => exact ⟨g, 1, runLoop_of_leaves (congrArg some (if_pos hreaches)) 0⟩
  | succ count ih =>
    by_cases hends : g.gcstate = finish
    · exact ⟨g, 1, runLoop_of_leaves (congrArg some (if_pos hends)) 0⟩
    · have hgoes : Continues (phaseBody choice finish) g (afterStep choice g) :=
        congrArg some (if_neg hends)
      obtain ⟨after, fuel, hrun⟩ := ih hreaches
      exact ⟨after, fuel + 1, (runLoop_of_continues hgoes fuel).trans hrun⟩

/-- From the sweep phases the collector goes through the last phase before it pauses. -/
theorem exists_finalize {count : ℕ} {g : GlobalState} (hpauses : PausesAfter choice count g)
    (hsweeps : g.gcstate ≠ .pause ∧ g.gcstate ≠ .propagate) :
    ∃ fewer, ((afterStep choice)^[fewer] g).gcstate = .finalize := by
  induction count generalizing g with
  | zero => exact absurd hpauses hsweeps.1
  | succ count ih =>
    by_cases hends : g.gcstate = .finalize
    · exact ⟨0, hends⟩
    · have hnext : (afterStep choice g).gcstate ≠ .pause ∧
          (afterStep choice g).gcstate ≠ .propagate := by
        rw [(afterStep_phase g).1]
        unfold nextPhase
        cases hphase : g.gcstate with
        | pause => exact absurd hphase hsweeps.1
        | propagate => exact absurd hphase hsweeps.2
        | finalize => exact absurd hphase hends
        | sweepstring | sweep =>
          dsimp only
          split_ifs <;> exact ⟨by decide, by decide⟩
      obtain ⟨fewer, hfewer⟩ := ih (pausesAfter_succ.mp hpauses) hnext
      exact ⟨fewer + 1, hfewer⟩

theorem fuelMono_endFullgc (g : GlobalState) : FuelMono (endFullgc choice g) :=
  (fuelMono_runLoop _ _).map _

theorem fuelMono_luaCFullgc (g : GlobalState) : FuelMono (luaCFullgc choice · g) :=
  .ite _ (fuelMono_const _) ((fuelMono_runLoop _ _).bind fuelMono_endFullgc)

theorem exists_endFullgc (hreaches : ReachesPause choice) (g : GlobalState) :
    ∃ after fuel, endFullgc choice g fuel = some after := by
  obtain ⟨count, hcount⟩ := hreaches { g with gcstate := .propagate }
  obtain ⟨last, fuel, hlast⟩ := exists_runLoop_phaseBody hcount
  refine ⟨{ last with blockGc := false }, fuel, ?_⟩
  unfold endFullgc
  rw [hlast]
  rfl

/-- A full cycle ends. -/
theorem exists_luaCFullgc (hreaches : ReachesPause choice) (g : GlobalState) :
    ∃ after fuel, luaCFullgc choice fuel g = some after := by
  unfold luaCFullgc
  by_cases hblocked : g.blockGc = true
  · exact ⟨g, 0, if_pos hblocked⟩
  · have hsweeps : (startFullgc g).gcstate ≠ .pause ∧ (startFullgc g).gcstate ≠ .propagate := by
      unfold startFullgc
      dsimp only
      split_ifs with hearly
      · exact ⟨by decide, by decide⟩
      · exact not_or.mp hearly
    obtain ⟨count, hcount⟩ := hreaches (startFullgc g)
    obtain ⟨fewer, hfewer⟩ := exists_finalize hcount hsweeps
    obtain ⟨middle, hmiddle⟩ := exists_runLoop_phaseBody hfewer
    obtain ⟨last, hlast⟩ := exists_endFullgc hreaches middle
    obtain ⟨fuel, hrun⟩ := (fuelMono_runLoop (phaseBody choice .finalize) _).exists_bind
      (fuelMono_endFullgc middle) hmiddle hlast
    exact ⟨last, fuel, (if_neg hblocked).trans hrun⟩

end Elua.Lua
