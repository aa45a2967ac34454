import Elua.Newlib.Sbrk

/-!
# Runs of calls

The events of `sbrkSystem` are calls with any increment. A call is `Harmless` if it does what the
caller relies on: what it gives out lies inside a region of the platform and has not been given out
before, and if it fails, every later request that would have succeeded without it still does.

`harmless_iff`: in runs whose calls are `Suited`, all that has been given out is in order, and the
next call is harmless exactly if it is suited. The two cases that are left out are a break that
wraps past the end of the address space, where the test of the code accepts a request that has no
room, and a failing request that moves on over regions in which there is room left. -/

set_option autoImplicit false
set_option relaxedAutoImplicit false

namespace Elua.Newlib

open Foundation TransitionSystem

/-! ### The system -/

/-- Two regions of the platform that do not overlap. -/
def Bank.Apart (first second : Bank) : Prop :=
  first.finish ≤ second.start ∨ second.finish ≤ first.start

/-- A value of `ptrdiff_t`. -/
def IsIncrement (incr : ℤ) : Prop := -2 ^ 31 ≤ incr ∧ incr < 2 ^ 31

/-- Memory that was given out: where it begins, and its size. -/
structure Chunk where
  start : ℕ
  size : ℕ

/-- Two chunks that do not overlap. -/
def Chunk.Apart (first second : Chunk) : Prop :=
  first.start + first.size ≤ second.start ∨ second.start + second.size ≤ first.start

/-- The chunk lies inside a region of the platform. -/
def Chunk.Inside (ram : List Bank) (chunk : Chunk) : Prop :=
  ∃ bank ∈ ram, bank.start ≤ chunk.start ∧ chunk.start + chunk.size ≤ bank.finish

/-- The break, and what has been given out. -/
structure SbrkState where
  brk : Break
  granted : List Chunk

/-- What has been given out after a call. -/
def grantedAfter (granted : List Chunk) (incr : ℤ) (result : ℕ) : List Chunk :=
  if result = minusOne then granted else ⟨result, incr.toNat⟩ :: granted

/-- The runs of calls from the start of the program. -/
def sbrkSystem (ram : List Bank) : TransitionSystem SbrkState ℤ where
  initial := fun state ↦ state = ⟨⟨0, 0⟩, []⟩
  step := fun state incr after ↦ IsIncrement incr ∧ ∃ result,
    Sbrk ram incr state.brk result after.brk ∧
      after.granted = grantedAfter state.granted incr result

/-- A request succeeds after some earlier calls. -/
def Succeeds (ram : List Bank) : Break → List ℤ → ℤ → Prop
  | state, [], incr => ∃ result after, Sbrk ram incr state result after ∧ result ≠ minusOne
  | state, first :: earlier, incr => ∃ result after, Sbrk ram first state result after ∧
      Succeeds ram after earlier incr

/-- What a call may do. -/
def Harmless (ram : List Bank) (state : SbrkState) (incr : ℤ) : Prop :=
  ∀ result after, Sbrk ram incr state.brk result after →
    if result = minusOne then
      ∀ earlier request, (∀ other ∈ earlier, IsIncrement other) → IsIncrement request →
        Succeeds ram state.brk earlier request → Succeeds ram after earlier request
    else Chunk.Inside ram ⟨result, incr.toNat⟩ ∧
      ∀ chunk ∈ state.granted, Chunk.Apart ⟨result, incr.toNat⟩ chunk

/-- The increment is negative, or the break does not wrap in the window that the search takes, or
the search takes none and there is no room for any request. -/
def Suited (ram : List Bank) (state : SbrkState) (incr : ℤ) : Prop :=
  incr < 0 ∨
    match (windows ram state.brk).find? (Window.Accepts incr.toNat ·) with
    | some window => window.pointer + incr.toNat < 2 ^ 32
    | none => ∀ amount < 2 ^ 31, ∀ window ∈ windows ram state.brk, ¬ window.Accepts amount

/-! ### Calls -/

variable {ram : List Bank} {state : SbrkState} {brk after : Break} {incr : ℤ} {result : ℕ}

/-- A negative increment changes nothing. -/
theorem sbrk_of_neg (hneg : incr < 0) :
    Sbrk ram incr brk result after ↔ result = minusOne ∧ after = brk := by
  constructor
  · rintro ⟨fuel, hrun⟩
    rw [eluaSbrk, if_pos hneg] at hrun
    obtain ⟨rfl, rfl⟩ := Prod.mk.inj (Option.some.inj hrun)
    exact ⟨rfl, rfl⟩
  · rintro ⟨rfl, rfl⟩
    exact ⟨0, if_pos hneg⟩

/-- A call returns. -/
theorem exists_sbrk (ram : List Bank) (incr : ℤ) (hvalid : brk.Valid ram) :
    ∃ result after, Sbrk ram incr brk result after := by
  by_cases hneg : incr < 0
  · exact ⟨minusOne, brk, (sbrk_of_neg hneg).mpr ⟨rfl, rfl⟩⟩
  · obtain ⟨fuel, result, after, hrun, -⟩ := exists_runLoop_sbrkBody ram incr.toNat hvalid
    exact ⟨result, after, fuel, (if_neg hneg).trans hrun⟩

/-- What a call with an increment that is not negative does. -/
theorem Sbrk.done (hvalid : brk.Valid ram) (hneg : ¬ incr < 0)
    (hcall : Sbrk ram incr brk result after) : SbrkDone ram incr.toNat brk result after := by
  obtain ⟨more, hrun⟩ := hcall
  obtain ⟨fuel, other, last, hloop, hdone⟩ := exists_runLoop_sbrkBody ram incr.toNat hvalid
  rw [eluaSbrk, if_neg hneg] at hrun
  obtain ⟨rfl, rfl⟩ := Prod.mk.inj (runLoop_unique hloop hrun)
  exact hdone

/-- The break stays in a region. -/
theorem Sbrk.valid (hvalid : brk.Valid ram) (hcall : Sbrk ram incr brk result after) :
    after.Valid ram := by
  by_cases hneg : incr < 0
  · obtain ⟨-, rfl⟩ := (sbrk_of_neg hneg).mp hcall
    exact hvalid
  · exact (hcall.done hvalid hneg).1

/-! ### Windows without room -/

/-- No request has room. -/
def NoRoom (ram : List Bank) (brk : Break) : Prop :=
  ∀ amount < 2 ^ 31, ∀ window ∈ windows ram brk, ¬ window.Accepts amount

theorem noRoom_of_windows (hnone : windows ram brk = []) : NoRoom ram brk := by
  intro amount _ window hwindow
  rw [hnone] at hwindow
  exact absurd hwindow List.not_mem_nil

/-- Without room, a call fails and leaves no room. -/
theorem Sbrk.of_noRoom (hvalid : brk.Valid ram) (hnone : NoRoom ram brk) (hincr : IsIncrement incr)
    (hcall : Sbrk ram incr brk result after) : result = minusOne ∧ NoRoom ram after := by
  by_cases hneg : incr < 0
  · obtain ⟨rfl, rfl⟩ := (sbrk_of_neg hneg).mp hcall
    exact ⟨rfl, hnone⟩
  · have hlt := hincr.2
    rcases (hcall.done hvalid hneg).2 with
      ⟨before, window, behind, hsplit, -, haccepts, -⟩ | ⟨-, hresult, hempty⟩
    · refine absurd haccepts (hnone _ (by omega) window ?_)
      rw [hsplit]
      exact List.mem_append_right _ List.mem_cons_self
    · exact ⟨hresult, noRoom_of_windows hempty⟩

/-- Without room, no later request succeeds. -/
theorem not_succeeds_of_noRoom {earlier : List ℤ} {request : ℤ} (hvalid : brk.Valid ram)
    (hnone : NoRoom ram brk) (hearlier : ∀ other ∈ earlier, IsIncrement other)
    (hrequest : IsIncrement request) : ¬ Succeeds ram brk earlier request := by
  induction earlier generalizing brk with
  | nil =>
    rintro ⟨result, after, hcall, hsucceeds⟩
    exact hsucceeds (hcall.of_noRoom hvalid hnone hrequest).1
  | cons first earlier ih =>
    obtain ⟨hfirst, hearlier⟩ := List.forall_mem_cons.mp hearlier
    rintro ⟨result, after, hcall, hsucceeds⟩
    exact ih (hcall.valid hvalid) (hcall.of_noRoom hvalid hnone hfirst).2 hearlier hsucceeds

/-! ### Regions -/

theorem and_minAlign (value : ℕ) : value &&& (minAlign - 1) = value % 8 :=
  Nat.and_two_pow_sub_one_eq_mod value 3

/-- The rounded start of a region is not in front of it. -/
theorem Bank.firstFree_bounds (bank : Bank) (hzero : bank.firstFree ≠ 0) :
    bank.start ≤ bank.firstFree ∧ bank.firstFree + 8 ≤ 2 ^ 32 := by
  have hstart := bank.start_lt
  unfold firstFree at hzero ⊢
  rw [and_minAlign, minAlignShift, Nat.shiftRight_eq_div_pow, Nat.shiftLeft_eq] at *
  split_ifs at hzero ⊢ <;> omega

/-- The rounded end of a region is not behind it. -/
theorem Bank.lastFree_bounds (bank : Bank) :
    bank.lastFree ≤ bank.finish ∧ bank.lastFree + 8 ≤ 2 ^ 32 := by
  have hfinish := bank.finish_lt
  have hshift : sub32 (bank.finish / 2 ^ 3) 1 = bank.finish / 2 ^ 3 - 1 := by
    refine sub32_eq ?_
    have hge := bank.finish_ge
    omega
  unfold lastFree
  rw [and_minAlign, minAlignShift, Nat.shiftRight_eq_div_pow, Nat.shiftLeft_eq, hshift]
  split_ifs <;> omega

/-- Unused regions are windows from their rounded start on. -/
theorem mem_freshWindows {banks : List Bank} {window : Window}
    (hwindow : window ∈ freshWindows banks) :
    window.bank ∈ banks ∧ window.pointer = window.bank.firstFree ∧ window.pointer ≠ 0 := by
  induction banks with
  | nil => exact absurd hwindow List.not_mem_nil
  | cons bank rest ih =>
    rw [freshWindows] at hwindow
    split_ifs at hwindow with hzero
    · exact absurd hwindow List.not_mem_nil
    · rcases List.mem_cons.mp hwindow with rfl | hrest
      · exact ⟨List.mem_cons_self, rfl, hzero⟩
      · obtain ⟨hbank, hpointer⟩ := ih hrest
        exact ⟨List.mem_cons_of_mem _ hbank, hpointer⟩

theorem pairwise_freshWindows {banks : List Bank} (hapart : banks.Pairwise Bank.Apart) :
    (freshWindows banks).Pairwise fun first second ↦ first.bank.Apart second.bank := by
  induction banks with
  | nil => exact .nil
  | cons bank rest ih =>
    obtain ⟨hbank, hrest⟩ := List.pairwise_cons.mp hapart
    rw [freshWindows]
    split_ifs
    · exact .nil
    · exact List.pairwise_cons.mpr
        ⟨fun window hwindow ↦ hbank _ (mem_freshWindows hwindow).1, ih hrest⟩

/-! ### What runs keep -/

/-- The windows are what is left of different regions, and what has been given out is in order and
not in a window. -/
structure Kept (ram : List Bank) (state : SbrkState) : Prop where
  valid : state.brk.Valid ram
  inside : ∀ chunk ∈ state.granted, chunk.Inside ram
  apart : state.granted.Pairwise Chunk.Apart
  window : ∀ window ∈ windows ram state.brk, window.bank ∈ ram ∧ window.pointer ≠ 0 ∧
    window.bank.start ≤ window.pointer ∧ window.pointer + 8 ≤ 2 ^ 32
  separate : (windows ram state.brk).Pairwise fun first second ↦ first.bank.Apart second.bank
  ahead : ∀ window ∈ windows ram state.brk, ∀ chunk ∈ state.granted,
    chunk.start + chunk.size ≤ window.pointer ∨ window.bank.finish ≤ chunk.start

theorem kept_initial (hram : ram.Pairwise Bank.Apart) : Kept ram ⟨⟨0, 0⟩, []⟩ where
  valid := fun hne ↦ absurd rfl hne
  inside := nofun
  apart := .nil
  window := fun window hwindow ↦ by
    obtain ⟨hbank, hpointer, hne⟩ := mem_freshWindows hwindow
    have hbounds := window.bank.firstFree_bounds (hpointer ▸ hne)
    rw [← hpointer] at hbounds
    exact ⟨hbank, hne, hbounds⟩
  separate := pairwise_freshWindows hram
  ahead := fun _ _ _ hchunk ↦ absurd hchunk List.not_mem_nil

/-- The window that the search takes. -/
theorem find?_accepts {before behind : List Window} {window : Window} {amount : ℕ}
    (hsplit : windows ram brk = before ++ window :: behind)
    (hbefore : ∀ other ∈ before, ¬ other.Accepts amount) (haccepts : window.Accepts amount) :
    (windows ram brk).find? (Window.Accepts amount ·) = some window := by
  refine List.find?_eq_some_iff_append.mpr ⟨decide_eq_true haccepts, before, behind, hsplit,
    fun other hother ↦ ?_⟩
  rw [decide_eq_false (hbefore other hother)]
  rfl

/-- What is given out of a window in which the break does not wrap is in order. -/
theorem Kept.chunk (hkept : Kept ram state) {window : Window} {amount : ℕ}
    (hwindow : window ∈ windows ram state.brk) (haccepts : window.Accepts amount)
    (hroom : window.pointer + amount < 2 ^ 32) :
    Chunk.Inside ram ⟨window.pointer, amount⟩ ∧
      ∀ chunk ∈ state.granted, Chunk.Apart ⟨window.pointer, amount⟩ chunk := by
  obtain ⟨hbank, -, hstart, -⟩ := hkept.window window hwindow
  have hlast := window.bank.lastFree_bounds.1
  rw [Window.Accepts, add32_eq hroom] at haccepts
  refine ⟨⟨window.bank, hbank, hstart, ?_⟩, fun chunk hchunk ↦ ?_⟩
  · show window.pointer + amount ≤ window.bank.finish
    omega
  · have hahead := hkept.ahead window hwindow chunk hchunk
    show window.pointer + amount ≤ chunk.start ∨ chunk.start + chunk.size ≤ window.pointer
    omega

/-- A step of a suited call. -/
theorem Kept.step (hkept : Kept ram state) {next : SbrkState} (hsuited : Suited ram state incr)
    (hstep : (sbrkSystem ram).step state incr next) : Kept ram next := by
  obtain ⟨-, result, hcall, hgranted⟩ := hstep
  obtain ⟨brk, granted⟩ := next
  dsimp only at hcall hgranted
  subst hgranted
  by_cases hneg : incr < 0
  · obtain ⟨rfl, rfl⟩ := (sbrk_of_neg hneg).mp hcall
    rw [grantedAfter, if_pos rfl]
    exact hkept
  · obtain ⟨hvalid, ⟨before, window, behind, hsplit, hbefore, haccepts, rfl, hbrk, hafter⟩ |
      ⟨-, rfl, hempty⟩⟩ := hcall.done hkept.valid hneg
    · have hroom := hsuited.resolve_left hneg
      rw [find?_accepts hsplit hbefore haccepts] at hroom
      dsimp only at hroom
      have hmem : window ∈ windows ram state.brk := by
        rw [hsplit]
        exact List.mem_append_right _ List.mem_cons_self
      obtain ⟨hbank, hne, hstart, hbound⟩ := hkept.window window hmem
      obtain ⟨hinside, hothers⟩ := hkept.chunk hmem haccepts hroom
      rw [Window.Accepts, add32_eq hroom] at haccepts
      rw [add32_eq hroom] at hafter hbrk
      have hwindows := hafter (by omega)
      have hlast := window.bank.lastFree_bounds
      have hmemBehind : ∀ other ∈ behind, other ∈ windows ram state.brk := fun other hother ↦ by
        rw [hsplit]
        exact List.mem_append_right _ (List.mem_cons_of_mem _ hother)
      have hseparate := hkept.separate
      rw [hsplit] at hseparate
      obtain ⟨hwindow, hbehind⟩ := List.pairwise_cons.mp (List.pairwise_append.mp hseparate).2.1
      have hresult : window.pointer ≠ minusOne := by
        rw [minusOne]
        omega
      rw [grantedAfter, if_neg hresult]
      refine ⟨hvalid, List.forall_mem_cons.mpr ⟨hinside, hkept.inside⟩,
        List.pairwise_cons.mpr ⟨hothers, hkept.apart⟩, ?_, ?_, ?_⟩
      · rw [hwindows]
        refine List.forall_mem_cons.mpr ⟨⟨hbank, ?_⟩, fun other hother ↦
          hkept.window other (hmemBehind other hother)⟩
        dsimp only
        omega
      · rw [hwindows]
        exact List.pairwise_cons.mpr ⟨hwindow, hbehind⟩
      · rw [hwindows]
        refine List.forall_mem_cons.mpr ⟨List.forall_mem_cons.mpr ⟨.inl (Nat.le_refl _), ?_⟩,
          fun other hother ↦ List.forall_mem_cons.mpr
            ⟨?_, hkept.ahead other (hmemBehind other hother)⟩⟩
        · intro chunk hchunk
          have hahead := hkept.ahead window hmem chunk hchunk
          dsimp only
          omega
        · have hapart := hwindow other hother
          obtain ⟨-, -, hother, -⟩ := hkept.window other (hmemBehind other hother)
          rw [Bank.Apart] at hapart
          dsimp only
          omega
    · rw [grantedAfter, if_pos rfl]
      refine ⟨hvalid, hkept.inside, hkept.apart, ?_, ?_, ?_⟩ <;> rw [hempty]
      · exact fun _ hother ↦ absurd hother List.not_mem_nil
      · exact .nil
      · exact fun _ hother ↦ absurd hother List.not_mem_nil

/-! ### Calls that are harmless -/

/-- A request that some window accepts succeeds. -/
theorem Kept.succeeds (hkept : Kept ram state) {amount : ℕ} {window : Window}
    (hwindow : window ∈ windows ram state.brk) (haccepts : window.Accepts amount) :
    Succeeds ram state.brk [] amount := by
  obtain ⟨result, after, hcall⟩ := exists_sbrk ram amount hkept.valid
  refine ⟨result, after, hcall, ?_⟩
  have hneg : ¬ (amount : ℤ) < 0 := by omega
  rcases (hcall.done hkept.valid hneg).2 with
    ⟨before, other, behind, hsplit, -, -, rfl, -⟩ | ⟨hnone, -⟩
  · obtain ⟨-, -, -, hbound⟩ := hkept.window other (by
      rw [hsplit]
      exact List.mem_append_right _ List.mem_cons_self)
    rw [minusOne]
    omega
  · exact absurd haccepts (hnone window hwindow)

/-- In a state that runs of suited calls keep, a call is harmless exactly if it is suited. -/
theorem Kept.harmless_iff_suited (hkept : Kept ram state) :
    Harmless ram state incr ↔ Suited ram state incr := by
  by_cases hneg : incr < 0
  · refine iff_of_true (fun result after hcall ↦ ?_) (.inl hneg)
    obtain ⟨rfl, rfl⟩ := (sbrk_of_neg hneg).mp hcall
    rw [if_pos rfl]
    exact fun _ _ _ _ hsucceeds ↦ hsucceeds
  have hfails : (∀ other ∈ windows ram state.brk, ¬ other.Accepts incr.toNat) →
      (windows ram state.brk).find? (Window.Accepts incr.toNat ·) = none := fun hnone ↦
    List.find?_eq_none.mpr fun other hother haccepts ↦
      hnone other hother (of_decide_eq_true haccepts)
  constructor
  · intro hharmless
    refine .inr ?_
    obtain ⟨result, after, hcall⟩ := exists_sbrk ram incr hkept.valid
    have hcase := hharmless result after hcall
    obtain ⟨hvalid, ⟨before, window, behind, hsplit, hbefore, haccepts, rfl, -⟩ |
      ⟨hnone, rfl, hempty⟩⟩ := hcall.done hkept.valid hneg
    · obtain ⟨-, -, -, hbound⟩ := hkept.window window (by
        rw [hsplit]
        exact List.mem_append_right _ List.mem_cons_self)
      have hresult : window.pointer ≠ minusOne := by
        rw [minusOne]
        omega
      rw [if_neg hresult] at hcase
      obtain ⟨⟨bank, -, -, hinside⟩, -⟩ := hcase
      have hfinish := bank.finish_lt
      rw [find?_accepts hsplit hbefore haccepts]
      dsimp only at hinside ⊢
      omega
    · rw [if_pos rfl] at hcase
      rw [hfails hnone]
      intro amount hamount window hwindow haccepts
      have hrequest : IsIncrement amount := ⟨by omega, by omega⟩
      have hnever : ∀ other ∈ ([] : List ℤ), IsIncrement other := fun _ hother ↦
        absurd hother List.not_mem_nil
      exact not_succeeds_of_noRoom hvalid (noRoom_of_windows hempty) hnever hrequest
        (hcase [] amount hnever hrequest (hkept.succeeds hwindow haccepts))
  · intro hsuited result after hcall
    have hroom := hsuited.resolve_left hneg
    obtain ⟨-, ⟨before, window, behind, hsplit, hbefore, haccepts, rfl, -⟩ | ⟨hnone, rfl, -⟩⟩ :=
      hcall.done hkept.valid hneg
    · have hmem : window ∈ windows ram state.brk := by
        rw [hsplit]
        exact List.mem_append_right _ List.mem_cons_self
      obtain ⟨-, -, -, hbound⟩ := hkept.window window hmem
      have hresult : window.pointer ≠ minusOne := by
        rw [minusOne]
        omega
      rw [find?_accepts hsplit hbefore haccepts] at hroom
      rw [if_neg hresult]
      exact hkept.chunk hmem haccepts hroom
    · rw [hfails hnone] at hroom
      rw [if_pos rfl]
      exact fun earlier request hearlier hrequest hsucceeds ↦
        absurd hsucceeds (not_succeeds_of_noRoom hkept.valid hroom hearlier hrequest)

/-- For all regions of the platform and all runs of suited calls: what has been given out lies in
the regions and does not overlap, the next call returns, and it is harmless exactly if it is suited.
-/
theorem harmless_iff (ram : List Bank) (hram : ram.Pairwise Bank.Apart) (state : SbrkState)
    (hreach : (sbrkSystem ram).ReachableUnder (Suited ram) state) :
    (∀ chunk ∈ state.granted, chunk.Inside ram) ∧ state.granted.Pairwise Chunk.Apart ∧
      ∀ incr, (∃ result after, Sbrk ram incr state.brk result after) ∧
        (Harmless ram state incr ↔ Suited ram state incr) := by
  have hkept : Kept ram state := hreach.invariant (Kept ram)
    (fun start (hstart : start = _) ↦ hstart ▸ kept_initial hram)
    (fun _ _ _ hkept hsuited hstep ↦ hkept.step hsuited hstep)
  exact ⟨hkept.inside, hkept.apart, fun incr ↦
    ⟨exists_sbrk ram incr hkept.valid, hkept.harmless_iff_suited⟩⟩

/-- 64 bytes of internal RAM, and 4096 bytes of external RAM. -/
def twoBanks : List Bank :=
  [⟨0x40000000, 0x40000040, by decide, by decide, by decide⟩,
    ⟨0x80000000, 0x80001000, by decide, by decide, by decide⟩]

theorem twoBanks_apart : twoBanks.Pairwise Bank.Apart := by
  unfold twoBanks
  simp [Bank.Apart]

theorem harmless_iff_twoBanks :
    (∀ chunk ∈ [⟨0x40000000, 16⟩], Chunk.Inside twoBanks chunk) ∧
      [⟨0x40000000, 16⟩].Pairwise Chunk.Apart ∧
      ∀ incr, (∃ result after, Sbrk twoBanks incr ⟨0x40000010, 0⟩ result after) ∧
        (Harmless twoBanks ⟨⟨0x40000010, 0⟩, [⟨0x40000000, 16⟩]⟩ incr ↔
          Suited twoBanks ⟨⟨0x40000010, 0⟩, [⟨0x40000000, 16⟩]⟩ incr) := by
  have hsuited : Suited twoBanks ⟨⟨0, 0⟩, []⟩ 16 := by
    refine .inr ?_
    show 0x40000000 + 16 < 2 ^ 32
    decide
  have hstep : (sbrkSystem twoBanks).step ⟨⟨0, 0⟩, []⟩ 16
      ⟨⟨0x40000010, 0⟩, [⟨0x40000000, 16⟩]⟩ :=
    ⟨⟨by decide, by decide⟩, 0x40000000, ⟨1, by decide⟩, rfl⟩
  exact harmless_iff twoBanks twoBanks_apart _ (.next (.start rfl) hsuited hstep)

/-- A first request for 8192 bytes fails, and after it there is no room for a single byte. -/
theorem not_harmless_large_request :
    Sbrk twoBanks 8192 ⟨0, 0⟩ minusOne ⟨0, 2⟩ ∧ Succeeds twoBanks ⟨0, 0⟩ [] 1 ∧
      ¬ Succeeds twoBanks ⟨0, 2⟩ [] 1 ∧ ¬ Harmless twoBanks ⟨⟨0, 0⟩, []⟩ 8192 := by
  have hcall : Sbrk twoBanks 8192 ⟨0, 0⟩ minusOne ⟨0, 2⟩ := ⟨3, by decide⟩
  have hbefore : Succeeds twoBanks ⟨0, 0⟩ [] 1 :=
    ⟨0x40000000, ⟨0x40000001, 0⟩, ⟨1, by decide⟩, by decide⟩
  have hnever : ∀ other ∈ ([] : List ℤ), IsIncrement other := fun _ hother ↦
    absurd hother List.not_mem_nil
  have hone : IsIncrement 1 := ⟨by decide, by decide⟩
  have hafter : ¬ Succeeds twoBanks ⟨0, 2⟩ [] 1 :=
    not_succeeds_of_noRoom (fun hne ↦ absurd rfl hne) (noRoom_of_windows rfl) hnever hone
  refine ⟨hcall, hbefore, hafter, fun hharmless ↦ ?_⟩
  have hcase := hharmless minusOne ⟨0, 2⟩ hcall
  rw [if_pos rfl] at hcase
  exact hafter (hcase [] 1 hnever hone hbefore)

end Elua.Newlib
