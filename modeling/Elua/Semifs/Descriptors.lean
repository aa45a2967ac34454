import Elua.Foundation.CString
import Elua.Foundation.Slots
import Elua.Foundation.TransitionSystem

/-!
# Descriptors of the semihosting file system

`semifs_open_r` and `semifs_close_r` keep a table of four descriptors and the number `semifs_num_fd`
of those that are open. What the calls of the host answer is part of the events of a run.

`RunRight` says that a run keeps the table consistent, that an open which the host refuses returns
-1 and changes nothing, and that an open succeeds as long as there is room. An open counts its
descriptor before it asks the host and returns it whatever the answer is, so a run is right exactly
if the host refuses no open that it is asked for, and each close is of a descriptor that is open
(`runRight_iff`). -/

set_option autoImplicit false
set_option relaxedAutoImplicit false

namespace Elua.Semifs

open Foundation TransitionSystem

/-! ### The code -/

/-- `SEMIFS_MAX_FDS`. -/
abbrev semifsMaxFds : ℕ := 4

/-- `poslog`. -/
structure Poslog where
  handle : ℤ
  pos : ℤ
  deriving DecidableEq

/-- `semifs_fd_table` and `semifs_num_fd`. -/
structure FdTable where
  fds : Fin semifsMaxFds → Poslog
  numFd : ℤ

/-- A slot that `semifs_find_empty_fd` takes for empty. -/
def FdTable.free (table : FdTable) (fd : Fin semifsMaxFds) : Bool := (table.fds fd).handle = -1

/-- `semifs_find_empty_fd`. -/
def semifsFindEmptyFd (table : FdTable) : Option (Fin semifsMaxFds) := firstFree table.free

/-- `O_RDWR`. -/
def oRdwr : BitVec 32 := 0x0002

/-- `O_APPEND`. -/
def oAppend : BitVec 32 := 0x0008

/-- `O_CREAT`. -/
def oCreat : BitVec 32 := 0x0200

/-- `O_TRUNC`. -/
def oTrunc : BitVec 32 := 0x0400

/-- The arguments of `SYS_OPEN`. -/
structure SysOpen where
  path : CString
  aflags : BitVec 32
  length : ℕ
  deriving DecidableEq

/-- The flags of the host for those of an open. -/
def hostFlags (flags : BitVec 32) : BitVec 32 :=
  let aflags : BitVec 32 := 0
  let aflags := if flags &&& oRdwr ≠ 0 then aflags ||| 2 else aflags
  let aflags := if flags &&& oCreat ≠ 0 then aflags ||| 4 else aflags
  let aflags := if flags &&& oTrunc ≠ 0 then aflags ||| 4 else aflags
  if flags &&& oAppend ≠ 0 then aflags &&& ~~~4 ||| 8 else aflags

/-- What an open returns, whether it sets `ENFILE`, and the table it leaves. -/
structure OpenOutcome where
  value : ℤ
  enfile : Bool
  table : FdTable

/-- The value for a slot, which is -1 where a search has found none. -/
def slotValue (slot : Option (Fin semifsMaxFds)) : ℤ := slot.elim (-1) fun fd ↦ (fd : ℕ)

/-- `semifs_open_r`. There is no result where it stores a handle in front of the table. -/
def semifsOpenR (host : SysOpen → ℤ) (path : CString) (flags : BitVec 32) (table : FdTable) :
    Option OpenOutcome :=
  if table.numFd = semifsMaxFds then some ⟨-1, true, table⟩
  else
    let slot := semifsFindEmptyFd table
    let counted := { table with numFd := table.numFd + 1 }
    let fh := host ⟨path, hostFlags flags, path.strlen⟩
    if 0 ≤ fh then
      slot.map fun fd ↦
        ⟨slotValue slot, false, { counted with fds := Function.update table.fds fd ⟨fh, 0⟩ }⟩
    else some ⟨slotValue slot, false, counted⟩

/-- The slot of a descriptor. -/
def slotOf (fd : ℤ) : Option (Fin semifsMaxFds) :=
  if h : fd.toNat < semifsMaxFds then if 0 ≤ fd then some ⟨fd.toNat, h⟩ else none else none

/-- `semifs_close_r`: what `SYS_CLOSE` answers for the handle, and the table it leaves. There is no
result where it reads outside of the table. -/
def semifsCloseR (host : ℤ → ℤ) (fd : ℤ) (table : FdTable) : Option (ℤ × FdTable) :=
  (slotOf fd).map fun slot ↦
    let fh := (table.fds slot).handle
    (host fh, { fds := Function.update table.fds slot { table.fds slot with handle := -1 },
                numFd := table.numFd - 1 })

/-- The table that `semifs_init` sets up; all else in it is zero from the start. -/
def FdTable.initial : FdTable := ⟨fun _ ↦ ⟨-1, 0⟩, 0⟩

/-! ### Runs -/

/-- A call, with what the host answers to it. -/
inductive FdEvent
  | open (path : CString) (flags : BitVec 32) (host : SysOpen → ℤ)
  | close (fd : ℤ) (host : ℤ → ℤ)

/-- The table, and the descriptors that opens have returned and that have not been closed. -/
structure Descriptors where
  table : FdTable
  live : List (Fin semifsMaxFds)

/-- The start of a run. -/
def Descriptors.start : Descriptors := ⟨.initial, []⟩

/-- A call. -/
def fdStep (state : Descriptors) : FdEvent → Option Descriptors
  | .open path flags host => (semifsOpenR host path flags state.table).map fun outcome ↦
      ⟨outcome.table, state.live ++ (slotOf outcome.value).toList⟩
  | .close fd host => (semifsCloseR host fd state.table).map fun closed ↦
      ⟨closed.2, ((slotOf fd).map state.live.erase).getD state.live⟩

/-- The count is the number of occupied slots, and the descriptors that are open have a slot
each. -/
structure Consistent (state : Descriptors) : Prop where
  numFd_eq : state.table.numFd = (occupied state.table.free).length
  tracks : Tracks state.table.free state.live

/-- What a call owes: an open that the host refuses, or that finds all descriptors open, returns -1
and changes nothing; any other one returns a descriptor. -/
def OutcomeRight (state : Descriptors) : FdEvent → Prop
  | .open path flags host => ∀ outcome, semifsOpenR host path flags state.table = some outcome →
      if 0 ≤ host ⟨path, hostFlags flags, path.strlen⟩ ∧ state.live.length < semifsMaxFds then
        ∃ fd : Fin semifsMaxFds, outcome.value = (fd : ℕ) ∧ fd ∉ state.live
      else outcome.value = -1 ∧ outcome.table = state.table
  | .close _ _ => True

/-- A run of calls from a state is right: no call reads or stores outside of the table, each does
what it owes, and the table is consistent before and behind each. -/
def RunRight : Descriptors → List FdEvent → Prop
  | state, [] => Consistent state
  | state, event :: events => Consistent state ∧ OutcomeRight state event ∧
      ∃ after, fdStep state event = some after ∧ RunRight after events

/-- The host does not refuse an open for which there is room, and a close is of a descriptor that is
open. -/
def Granted (state : Descriptors) : FdEvent → Prop
  | .open path flags host =>
      state.live.length < semifsMaxFds → 0 ≤ host ⟨path, hostFlags flags, path.strlen⟩
  | .close fd _ => ∃ slot ∈ state.live, fd = (slot : ℕ)

/-! ### The calls -/

section Calls

variable {state after : Descriptors} {path : CString} {flags : BitVec 32} {host : SysOpen → ℤ}

theorem slotOf_natCast (fd : Fin semifsMaxFds) : slotOf (fd : ℕ) = some fd := by
  unfold slotOf
  rw [dif_pos (by simp), if_pos (Int.natCast_nonneg _)]
  exact congrArg some (Fin.ext (Int.toNat_natCast _))

theorem eq_of_slotOf {fd : ℤ} {slot : Fin semifsMaxFds} (hslot : slotOf fd = some slot) :
    fd = (slot : ℕ) := by
  unfold slotOf at hslot
  split_ifs at hslot with hlt hnonneg
  obtain rfl := Option.some.inj hslot
  exact (Int.toNat_of_nonneg hnonneg).symm

theorem Consistent.numFd_eq_live (hstate : Consistent state) :
    state.table.numFd = state.live.length := by
  rw [hstate.numFd_eq, hstate.tracks.length_eq]

/-- With the count and the open descriptors in step, a state is consistent. -/
theorem consistent_of_tracks {table : FdTable} {live : List (Fin semifsMaxFds)}
    (htracks : Tracks table.free live) (hcount : table.numFd = live.length) :
    Consistent ⟨table, live⟩ :=
  ⟨by rw [hcount, htracks.length_eq], htracks⟩

/-- An open finds a free slot exactly if fewer than all descriptors are open. -/
theorem Consistent.open_eq (hstate : Consistent state) (hroom : state.live.length < semifsMaxFds) :
    ∃ fd, state.table.free fd = true ∧ semifsOpenR host path flags state.table =
      some ⟨(fd : ℕ), false,
        { fds := if 0 ≤ host ⟨path, hostFlags flags, path.strlen⟩ then
            Function.update state.table.fds fd ⟨host ⟨path, hostFlags flags, path.strlen⟩, 0⟩
            else state.table.fds
          numFd := state.table.numFd + 1 }⟩ := by
  obtain ⟨fd, hfirst⟩ := hstate.tracks.exists_firstFree hroom
  have hcount := hstate.numFd_eq_live
  refine ⟨fd, free_of_firstFree hfirst, ?_⟩
  have hfind : semifsFindEmptyFd state.table = some fd := hfirst
  unfold semifsOpenR
  rw [if_neg (by omega)]
  dsimp only
  rw [hfind]
  split_ifs <;> rfl

theorem Consistent.open_full (hstate : Consistent state)
    (hfull : ¬state.live.length < semifsMaxFds) :
    semifsOpenR host path flags state.table = some ⟨-1, true, state.table⟩ := by
  have hcount := hstate.numFd_eq_live
  have hle := hstate.tracks.length_le
  unfold semifsOpenR
  rw [if_pos (by omega)]

/-- Storing a handle takes a slot. -/
theorem free_update {table : FdTable} {fd : Fin semifsMaxFds} {entry : Poslog} {numFd : ℤ} :
    FdTable.free ⟨Function.update table.fds fd entry, numFd⟩ =
      Function.update table.free fd (entry.handle = -1) :=
  Function.comp_update (fun entry : Poslog ↦ decide (entry.handle = -1)) table.fds fd entry

/-- A call that is granted has a result, does what it owes, and keeps the table consistent. -/
theorem Consistent.step {event : FdEvent} (hstate : Consistent state)
    (hgranted : Granted state event) :
    OutcomeRight state event ∧ ∃ after, fdStep state event = some after ∧ Consistent after := by
  have hcount := hstate.numFd_eq_live
  cases event with
  | «open» path flags host =>
    by_cases hroom : state.live.length < semifsMaxFds
    · have hhost := hgranted hroom
      obtain ⟨fd, hfree, hopen⟩ := @Consistent.open_eq _ path flags host hstate hroom
      rw [if_pos hhost] at hopen
      refine ⟨fun outcome houtcome ↦ ?_, _, congrArg (Option.map _) hopen, ?_⟩
      · obtain rfl := Option.some.inj (hopen.symm.trans houtcome)
        rw [if_pos ⟨hhost, hroom⟩]
        refine ⟨fd, rfl, fun hmem ↦ ?_⟩
        rw [hstate.tracks.mem_iff, hfree] at hmem
        cases hmem
      · dsimp only
        rw [slotOf_natCast]
        refine consistent_of_tracks ?_ ?_
        · rw [free_update, decide_eq_false (show ¬host _ = -1 by omega)]
          exact hstate.tracks.take hfree
        · rw [Option.toList_some, List.length_append, List.length_singleton, hcount]
          rfl
    · have hopen := @Consistent.open_full _ path flags host hstate hroom
      refine ⟨fun outcome houtcome ↦ ?_, state, ?_, hstate⟩
      · obtain rfl := Option.some.inj (hopen.symm.trans houtcome)
        rw [if_neg fun hboth ↦ hroom hboth.2]
        exact ⟨rfl, rfl⟩
      · rw [fdStep, hopen]
        exact congrArg (fun live ↦ some (Descriptors.mk state.table live)) (List.append_nil _)
  | close fd host =>
    obtain ⟨slot, hmem, rfl⟩ := hgranted
    rw [fdStep, semifsCloseR, slotOf_natCast]
    refine ⟨trivial, _, rfl, consistent_of_tracks ?_ ?_⟩
    · rw [free_update]
      exact hstate.tracks.giveBack
    · have hpos := List.length_pos_of_mem hmem
      change state.table.numFd - 1 = ((state.live.erase slot).length : ℤ)
      rw [List.length_erase_of_mem hmem]
      omega

/-- A call that has a result, does what it owes and keeps the table consistent is granted. -/
theorem Consistent.granted {event : FdEvent} (hstate : Consistent state)
    (hright : OutcomeRight state event) (hstep : fdStep state event = some after)
    (hafter : Consistent after) : Granted state event := by
  have hcount := hstate.numFd_eq_live
  cases event with
  | «open» path flags host =>
    intro hroom
    by_contra hrefused
    obtain ⟨fd, -, hopen⟩ := @Consistent.open_eq _ path flags host hstate hroom
    have hvalue := hright _ hopen
    rw [if_neg fun hboth ↦ hrefused hboth.1] at hvalue
    exact absurd hvalue.1 (by simp only; omega)
  | close fd host =>
    rw [fdStep, semifsCloseR] at hstep
    cases hslot : slotOf fd with
    | none =>
      rw [hslot] at hstep
      cases hstep
    | some slot =>
      refine ⟨slot, ?_, eq_of_slotOf hslot⟩
      by_contra hclosed
      rw [hslot] at hstep
      obtain rfl := Option.some.inj hstep
      have hless := hafter.numFd_eq_live
      change state.table.numFd - 1 = ((state.live.erase slot).length : ℤ) at hless
      rw [List.erase_of_not_mem hclosed] at hless
      omega

end Calls

/-- A run from a consistent state is right exactly if every call in it is granted. -/
theorem Consistent.runRight_from_iff {state : Descriptors} (hstate : Consistent state)
    (events : List FdEvent) :
    RunRight state events ↔ PermitsEvents fdStep Granted state events := by
  induction events generalizing state with
  | nil => exact iff_of_true hstate trivial
  | cons event events ih =>
    rw [RunRight, PermitsEvents, and_iff_right hstate]
    constructor
    · rintro ⟨hright, after, hstep, hrun⟩
      have hafter : Consistent after := by
        cases events with
        | nil => exact hrun
        | cons next events => exact hrun.1
      refine ⟨hstate.granted hright hstep hafter, fun other hother ↦ ?_⟩
      obtain rfl := Option.some.inj (hstep.symm.trans hother)
      exact (ih hafter).1 hrun
    · rintro ⟨hgranted, hrest⟩
      obtain ⟨hright, after, hstep, hafter⟩ := hstate.step hgranted
      exact ⟨hright, after, hstep, (ih hafter).2 (hrest after hstep)⟩

theorem consistent_start : Consistent .start :=
  consistent_of_tracks ⟨List.nodup_nil, fun _ ↦ iff_of_false List.not_mem_nil Bool.noConfusion⟩ rfl

/-- For every run of opens and closes, whatever the host answers: it is right exactly if the host
refuses no open for which there is room, and each close is of a descriptor that is open. -/
theorem runRight_iff (events : List FdEvent) :
    RunRight .start events ↔ PermitsEvents fdStep Granted .start events :=
  consistent_start.runRight_from_iff events

/-- The name `a`. -/
def nameA : CString := ⟨[0x61], zero_notMem_a⟩

/-- The host refuses to open `a`: the call returns a descriptor, and counts it. -/
theorem not_runRight_refused :
    semifsOpenR (fun _ ↦ -1) nameA 0 .initial = some ⟨0, false, { FdTable.initial with numFd := 1 }⟩ ∧
      ¬RunRight .start [.open nameA 0 fun _ ↦ -1] := by
  refine ⟨rfl, fun hright ↦ ?_⟩
  have hvalue := hright.2.1 ⟨0, false, { FdTable.initial with numFd := 1 }⟩ rfl
  rw [if_neg fun hboth ↦ absurd hboth.1 (by decide)] at hvalue
  exact absurd hvalue.1 (by decide)

end Elua.Semifs
