import Elua.Foundation.Loop
import Elua.Foundation.TransitionSystem
import Elua.Foundation.Word32

/-!
# The break

`elua_sbrk`, which is `_sbrk_r` where newlib's allocator is used, on the RAM regions of the
platform. The break is a pointer into one region and the number of this region. A request that does
not fit moves on to the next region, and the rest of a region that is left is never given out.

`windows` is what the break stands for: a list of what is left, region by region. A call gives out
the beginning of the first window that accepts the request, and drops the windows before it
(`exists_sbrk`). -/

set_option autoImplicit false
set_option relaxedAutoImplicit false

namespace Elua.Newlib

open Foundation

/-! ### The code -/

/-- `MIN_ALIGN`. -/
def minAlign : ℕ := 8

/-- `MIN_ALIGN_SHIFT`. -/
def minAlignShift : ℕ := 3

/-- A RAM region of the platform: an entry of `MEM_START_ADDRESS` with that of `MEM_END_ADDRESS`. It
does not end within the first eight bytes of the address space. -/
structure Bank where
  start : ℕ
  finish : ℕ
  start_lt : start < 2 ^ 32
  finish_ge : 8 ≤ finish
  finish_lt : finish < 2 ^ 32

/-- The start of a region, rounded up. -/
def Bank.firstFree (bank : Bank) : ℕ :=
  if bank.start &&& (minAlign - 1) ≠ 0 then
    (((bank.start >>> minAlignShift) + 1) <<< minAlignShift) % 2 ^ 32
  else bank.start

/-- The end of a region, rounded down. -/
def Bank.lastFree (bank : Bank) : ℕ :=
  if bank.finish &&& (minAlign - 1) ≠ 0 then
    ((sub32 (bank.finish >>> minAlignShift) 1) <<< minAlignShift) % 2 ^ 32
  else bank.finish

/-- `platform_get_first_free_ram`. -/
def platformGetFirstFreeRam (ram : List Bank) (id : ℕ) : ℕ :=
  match ram[id]? with
  | none => 0
  | some bank => bank.firstFree

/-- `platform_get_last_free_ram`. -/
def platformGetLastFreeRam (ram : List Bank) (id : ℕ) : ℕ :=
  match ram[id]? with
  | none => 0
  | some bank => bank.lastFree

/-- `heap_ptr` and `mem_index`. -/
structure Break where
  heapPtr : ℕ
  memIndex : ℕ
  deriving DecidableEq

/-- `( void* )-1`. -/
def minusOne : ℕ := 0xFFFFFFFF

/-- One pass of the loop. -/
def sbrkBody (ram : List Bank) (incr : ℕ) (state : Break) : Option (Break ⊕ (ℕ × Break)) :=
  let heapPtr := if state.heapPtr = 0 then platformGetFirstFreeRam ram state.memIndex
    else state.heapPtr
  if heapPtr = 0 then some (.inr (minusOne, ⟨0, state.memIndex⟩))
  else if platformGetLastFreeRam ram state.memIndex < add32 heapPtr incr then
    some (.inl ⟨0, state.memIndex + 1⟩)
  else some (.inr (heapPtr, ⟨add32 heapPtr incr, state.memIndex⟩))

/-- `elua_sbrk`. -/
def eluaSbrk (fuel : ℕ) (ram : List Bank) (incr : ℤ) (state : Break) : Option (ℕ × Break) :=
  if incr < 0 then some (minusOne, state) else runLoop (sbrkBody ram incr.toNat) fuel state

/-! ### What is left -/

/-- What is left of a region. -/
structure Window where
  pointer : ℕ
  bank : Bank

/-- The test of the code: the break after the request is not behind the end of the region. -/
def Window.Accepts (amount : ℕ) (window : Window) : Prop :=
  add32 window.pointer amount ≤ window.bank.lastFree

instance (amount : ℕ) : DecidablePred (Window.Accepts amount) :=
  fun window ↦ inferInstanceAs (Decidable (add32 window.pointer amount ≤ window.bank.lastFree))

/-- Regions that have not been used. One that begins at zero ends the list. -/
def freshWindows : List Bank → List Window
  | [] => []
  | bank :: rest => if bank.firstFree = 0 then [] else ⟨bank.firstFree, bank⟩ :: freshWindows rest

/-- What is left of the region of the break, and the regions behind it. -/
def windows (ram : List Bank) (state : Break) : List Window :=
  if state.heapPtr = 0 then freshWindows (ram.drop state.memIndex)
  else
    match ram.drop state.memIndex with
    | [] => []
    | bank :: rest => ⟨state.heapPtr, bank⟩ :: freshWindows rest

/-- The break points into a region. -/
def Break.Valid (ram : List Bank) (state : Break) : Prop :=
  state.heapPtr ≠ 0 → state.memIndex < ram.length

/-- A call returns. -/
def Sbrk (ram : List Bank) (incr : ℤ) (state : Break) (result : ℕ) (after : Break) : Prop :=
  ∃ fuel, eluaSbrk fuel ram incr state = some (result, after)

variable {ram : List Bank} {bank : Bank} {rest : List Bank} {state after : Break} {amount : ℕ}

theorem windows_nil (hvalid : state.Valid ram) (hdrop : ram.drop state.memIndex = []) :
    windows ram state = [] := by
  have hzero : state.heapPtr = 0 := by
    by_contra hne
    have hlength := List.drop_eq_nil_iff.mp hdrop
    have hless := hvalid hne
    omega
  rw [windows, if_pos hzero, hdrop, freshWindows]

/-- The window that a pass of the loop looks at. -/
theorem windows_cons (hdrop : ram.drop state.memIndex = bank :: rest) :
    windows ram state =
      let pointer := if state.heapPtr = 0 then bank.firstFree else state.heapPtr
      if pointer = 0 then [] else ⟨pointer, bank⟩ :: freshWindows rest := by
  rw [windows, hdrop]
  by_cases hzero : state.heapPtr = 0
  · simp only [if_pos hzero, freshWindows]
  · simp only [if_neg hzero]

theorem getElem?_of_drop (hdrop : ram.drop state.memIndex = bank :: rest) :
    ram[state.memIndex]? = some bank ∧ ram.drop (state.memIndex + 1) = rest := by
  have hhead : (ram.drop state.memIndex)[0]? = some bank := by
    rw [hdrop]
    rfl
  rw [List.getElem?_drop, Nat.add_zero] at hhead
  refine ⟨hhead, ?_⟩
  rw [← List.drop_drop, hdrop, List.drop_one, List.tail_cons]

/-- What a call with an increment that is not negative does: it gives out the beginning of the first
window that accepts it, or nothing is left. -/
def SbrkDone (ram : List Bank) (amount : ℕ) (state : Break) (result : ℕ) (after : Break) : Prop :=
  after.Valid ram ∧
    ((∃ before window behind, windows ram state = before ++ window :: behind ∧
        (∀ other ∈ before, ¬ other.Accepts amount) ∧ window.Accepts amount ∧
        result = window.pointer ∧ after.heapPtr = add32 window.pointer amount ∧
        (after.heapPtr ≠ 0 →
          windows ram after = ⟨add32 window.pointer amount, window.bank⟩ :: behind)) ∨
      (∀ other ∈ windows ram state, ¬ other.Accepts amount) ∧ result = minusOne ∧
        windows ram after = [])

/-- The loop ends. -/
theorem exists_runLoop_sbrkBody (ram : List Bank) (amount : ℕ) (hvalid : state.Valid ram) :
    ∃ fuel result after, runLoop (sbrkBody ram amount) fuel state = some (result, after) ∧
      SbrkDone ram amount state result after := by
  induction hlist : ram.drop state.memIndex generalizing state with
  | nil =>
    have hnone : ram[state.memIndex]? = none :=
      List.getElem?_eq_none (List.drop_eq_nil_iff.mp hlist)
    have hzero : state.heapPtr = 0 := by
      by_contra hne
      exact absurd (hvalid hne) (Nat.not_lt.mpr (List.drop_eq_nil_iff.mp hlist))
    have hwindows := windows_nil hvalid hlist
    refine ⟨1, minusOne, ⟨0, state.memIndex⟩, runLoop_of_leaves ?_ 0, fun hne ↦ absurd rfl hne,
      .inr ⟨fun other hother ↦ ?_, rfl, ?_⟩⟩
    · simp only [sbrkBody, hzero, platformGetFirstFreeRam, hnone, if_true]
    · rw [hwindows] at hother
      exact absurd hother List.not_mem_nil
    · rw [windows, if_pos rfl, hlist, freshWindows]
  | cons bank rest ih =>
    obtain ⟨hbank, hnext⟩ := getElem?_of_drop hlist
    have hwindows := windows_cons hlist
    have hbody : sbrkBody ram amount state =
        let pointer := if state.heapPtr = 0 then bank.firstFree else state.heapPtr
        if pointer = 0 then some (.inr (minusOne, ⟨0, state.memIndex⟩))
        else if bank.lastFree < add32 pointer amount then some (.inl ⟨0, state.memIndex + 1⟩)
        else some (.inr (pointer, ⟨add32 pointer amount, state.memIndex⟩)) := by
      simp only [sbrkBody, platformGetFirstFreeRam, platformGetLastFreeRam, hbank]
    dsimp only at hwindows hbody
    generalize hpointer : (if state.heapPtr = 0 then bank.firstFree else state.heapPtr) = pointer
      at hwindows hbody
    have hinside : state.memIndex < ram.length := (List.getElem?_eq_some_iff.mp hbank).1
    by_cases hzero : pointer = 0
    · rw [if_pos hzero] at hwindows hbody
      refine ⟨1, _, _, runLoop_of_leaves hbody 0, fun hne ↦ absurd rfl hne,
        .inr ⟨fun other hother ↦ ?_, rfl, ?_⟩⟩
      · rw [hwindows] at hother
        exact absurd hother List.not_mem_nil
      · have hfirst : bank.firstFree = 0 := by
          by_cases hnull : state.heapPtr = 0
          · rw [if_pos hnull] at hpointer
            exact hpointer.trans hzero
          · rw [if_neg hnull] at hpointer
            exact absurd (hpointer.trans hzero) hnull
        rw [windows, if_pos rfl, hlist, freshWindows, if_pos hfirst]
    · rw [if_neg hzero] at hwindows hbody
      by_cases hfits : bank.lastFree < add32 pointer amount
      · rw [if_pos hfits] at hbody
        obtain ⟨fuel, result, after, hrun, hafter, hdone⟩ :=
          @ih ⟨0, state.memIndex + 1⟩ (fun hne ↦ absurd rfl hne) hnext
        have hothers : windows ram ⟨0, state.memIndex + 1⟩ = freshWindows rest := by
          rw [windows, if_pos rfl, hnext]
        have hrejects : ¬ Window.Accepts amount ⟨pointer, bank⟩ := Nat.not_le.mpr hfits
        rw [hothers] at hdone
        refine ⟨fuel + 1, result, after, (runLoop_of_continues hbody fuel).trans hrun, hafter, ?_⟩
        rw [hwindows]
        rcases hdone with ⟨before, window, behind, hsplit, hbefore, hrest⟩ | ⟨hnone, hrest⟩
        · refine .inl ⟨⟨pointer, bank⟩ :: before, window, behind, by rw [hsplit]; rfl, ?_, hrest⟩
          exact List.forall_mem_cons.mpr ⟨hrejects, hbefore⟩
        · exact .inr ⟨List.forall_mem_cons.mpr ⟨hrejects, hnone⟩, hrest⟩
      · rw [if_neg hfits] at hbody
        refine ⟨1, _, _, runLoop_of_leaves hbody 0, fun _ ↦ hinside,
          .inl ⟨[], ⟨pointer, bank⟩, freshWindows rest, hwindows, nofun, Nat.not_lt.mp hfits, rfl,
            rfl, fun hne ↦ ?_⟩⟩
        rw [windows, if_neg hne, hlist]

end Elua.Newlib
