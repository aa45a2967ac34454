import Elua.Foundation.TransitionSystem
import Elua.Salloc.HeapCalls

/-!
# Runs of the allocator

The events of `heapSystem` are the calls of the allocator, with arbitrary permitted arguments, and
the stores of clients to their blocks. Beside the heap, a state holds what the clients know: the
payloads that are live, each with the size that was requested last.

`HeapOk` says what a well-formed heap is in terms of the memory and the live payloads, `EventOk`
what one event may do. `heapOk_of_reachable` says that every reachable heap is well formed, and that
every permitted event has a result and does what it may do. -/

set_option autoImplicit false
set_option relaxedAutoImplicit false

namespace Elua.Salloc

open Foundation TransitionSystem

/-! ### The system -/

/-- A heap, and the requested sizes of the live payloads. -/
structure HeapState where
  heap : Heap
  live : ℕ → Option ℕ

/-- A call, or a store of a client to a block. -/
inductive HeapEvent
  | smalloc (size : ℕ)
  | scalloc (nmemb size : ℕ)
  | srealloc (ptr size : ℕ)
  | sfree (ptr : ℕ)
  | store (ptr offset : ℕ) (byte : UInt8)

/-- The payload that an event is given. -/
def HeapEvent.given : HeapEvent → ℕ
  | .smalloc _ => 0
  | .scalloc _ _ => 0
  | .srealloc ptr _ => ptr
  | .sfree ptr => ptr
  | .store ptr _ _ => ptr

/-- Runs an event; the result of calls that return nothing is zero. -/
def runEvent (fuel : ℕ) (ram : List Arena) (heap : Heap) : HeapEvent → Option (ℕ × Heap)
  | .smalloc size => smalloc fuel ram heap size
  | .scalloc nmemb size => scalloc fuel ram heap nmemb size
  | .srealloc ptr size => srealloc fuel ram heap ptr size
  | .sfree ptr => (sfree fuel heap ptr).map fun heap ↦ (0, heap)
  | .store ptr offset byte => some (0, { heap with mem := storeByte heap.mem (ptr + offset) byte })

/-- The live payloads after a request. -/
def grant (live : ℕ → Option ℕ) (ptr size : ℕ) : ℕ → Option ℕ :=
  if ptr = 0 then live else Function.update live ptr (some size)

/-- The live payloads after an event with a result. -/
def liveAfter (live : ℕ → Option ℕ) (result : ℕ) : HeapEvent → ℕ → Option ℕ
  | .smalloc size => grant live result size
  | .scalloc nmemb size => grant live result (nmemb * size)
  | .srealloc ptr size => if result = 0 then live else grant (Function.update live ptr none) result size
  | .sfree ptr => Function.update live ptr none
  | .store _ _ _ => live

/-- One event. -/
def heapStep (fuel : ℕ) (ram : List Arena) (state : HeapState) (event : HeapEvent) :
    Option HeapState :=
  (runEvent fuel ram state.heap event).map fun outcome ↦
    ⟨outcome.2, liveAfter state.live outcome.1 event⟩

/-- Sizes that may be requested. -/
def Requestable (size : ℕ) : Prop := 0 < size ∧ size < 2 ^ 31

/-- Such a size can be rounded up with a header in front of it. -/
theorem Requestable.room {size : ℕ} (hsize : Requestable size) : size + 16 ≤ 2 ^ 32 := by
  have hlt := hsize.2
  omega

/-- Requests have a size, and clients give what is live, or nothing. -/
def Permitted (state : HeapState) : HeapEvent → Prop
  | .smalloc size => Requestable size
  | .scalloc nmemb size => Requestable (nmemb * size)
  | .srealloc ptr size => (ptr = 0 ∨ (state.live ptr).isSome) ∧ Requestable size
  | .sfree ptr => ptr = 0 ∨ (state.live ptr).isSome
  | .store ptr offset _ => ∃ request, state.live ptr = some request ∧ offset < request

/-- The runs of an allocator that has not been used. -/
def heapSystem (ram : List Arena) : TransitionSystem HeapState HeapEvent where
  initial := fun state ↦ state.heap.initialized = false ∧ ∀ ptr, state.live ptr = none
  step := fun state event after ↦ ∃ fuel, heapStep fuel ram state event = some after

/-! ### What holds -/

/-- A well-formed heap. -/
structure HeapOk (ram : List Arena) (mem : Memory) (live : ℕ → Option ℕ) : Prop where
  /-- Aligned blocks tile every arena; those whose payload is live are taken, the others free. -/
  arenas : ∀ arena ∈ ram, ∃ blocks, ArenaHolds mem arena blocks ∧
    ∀ tile ∈ placed Block.size (arena.start + 8) blocks,
      tile.1 % 8 = 0 ∧ tile.2.owner = live (tile.1 + 8)
  /-- A live payload is that of a block, and it is as large as requested. -/
  payloads : ∀ ptr request, live ptr = some request →
    request ≤ sGetActualBlockSize mem ptr ∧ ∃ arena ∈ ram, ∃ before block after,
      ArenaHolds mem arena (before ++ block :: after) ∧ ptr = arena.start + 8 + span before + 8
  /-- Live payloads do not overlap. -/
  apart : ∀ first second, (live first).isSome → (live second).isSome → first ≠ second →
    first + sGetActualBlockSize mem first ≤ second ∨ second + sGetActualBlockSize mem second ≤ first
  /-- Once nothing is live, every arena is one free block. -/
  freed : (∀ ptr, live ptr = none) → ∀ arena ∈ ram, ∃ block : Block,
    block.taken = false ∧ ArenaHolds mem arena [block]

/-- What an event may return, and what it does to the payload it is given. -/
def ResultOk (ram : List Arena) (mem other : Memory) (live : ℕ → Option ℕ) (result : ℕ) :
    HeapEvent → Prop
  | .smalloc size => if result = 0 then NoneLargeEnough ram mem size else live result = none
  | .scalloc nmemb size =>
    if result = 0 then NoneLargeEnough ram mem (nmemb * size)
    else live result = none ∧ ∀ index < nmemb * size, other (result + index) = 0
  | .srealloc ptr size =>
    if result = 0 then
      NoneLargeEnough ram mem size ∧ AgreeOn mem other ptr (ptr + sGetActualBlockSize mem ptr)
    else (result = ptr ∨ live result = none) ∧ ∀ old, live ptr = some old →
      ∀ index < min old size, other (result + index) = mem (ptr + index)
  | .sfree _ => True
  | .store ptr offset byte => other = storeByte mem (ptr + offset) byte

/-- An event keeps the live payloads that it is not given, and what it returns is in order. -/
structure EventOk (ram : List Arena) (mem other : Memory) (live : ℕ → Option ℕ) (event : HeapEvent)
    (result : ℕ) : Prop where
  others : ∀ ptr request, live ptr = some request → ptr ≠ event.given →
    liveAfter live result event ptr = some request ∧
      AgreeOn mem other ptr (ptr + sGetActualBlockSize mem ptr)
  result_ok : ResultOk ram mem other live result event

/-! ### The blocks of a state -/

/-- The blocks that a state stands for. -/
structure Represents (ram : List Arena) (state : HeapState) (taken : ℕ → Option Block) : Prop where
  holds : HeapHolds ram (state.heap.ready ram).mem taken
  unused : state.heap.initialized = false → ∀ ptr, taken ptr = none
  live_eq : ∀ ptr, state.live ptr = (taken ptr).bind Block.owner

section Blocks

variable {ram : List Arena} {state : HeapState} {taken : ℕ → Option Block}

/-- A live payload has a block. -/
theorem Represents.exists_block (hrep : Represents ram state taken) {ptr request : ℕ}
    (hlive : state.live ptr = some request) :
    ∃ block, taken ptr = some block ∧ block.owner = some request := by
  rw [hrep.live_eq] at hlive
  exact Option.bind_eq_some_iff.mp hlive

/-- No payload is at address zero. -/
theorem HeapHolds.zero_eq_none {mem : Memory} (hheap : HeapHolds ram mem taken) :
    taken 0 = none := by
  refine Option.eq_none_iff_forall_ne_some.mpr fun block hblock ↦ ?_
  obtain ⟨arena, -, hstart, -⟩ := hheap.bounds hblock
  omega

/-- What the placed blocks of an arena say about payloads. -/
theorem LaidOut.taken_tile {mem : Memory} {layout : Arena → List Block}
    (hram : ram.Pairwise Arena.Apart) (hheap : LaidOut ram mem layout taken) {arena : Arena}
    (harena : arena ∈ ram) {tile : ℕ × Block}
    (htile : tile ∈ placed Block.size (arena.start + 8) (layout arena)) :
    (taken (tile.1 + 8)).bind Block.owner = tile.2.owner := by
  have hbounds := bounds_of_mem_blocks htile
  have htiles := (hheap.arenas arena harena).tiles
  have hheader := tile.2.header_le
  have hunique : ∀ block, taken (tile.1 + 8) = some block → block = tile.2 := by
    intro block hblock
    obtain ⟨second, hsecond, place, hplace, hptr⟩ := (hheap.taken_iff _ block).mp hblock
    obtain rfl : tile.1 = place := Nat.add_right_cancel hptr
    have hblockHeader := block.header_le
    by_cases hsame : second = arena
    · rw [hsame] at hplace
      obtain hsame | hapart | hapart := eq_or_apart_of_mem_placed htile (mem_takenTiles.mp hplace).1
      · exact (congrArg Prod.snd hsame).symm
      · simp only at hapart
        omega
      · simp only at hapart
        omega
    · have hapart := apart_of_mem hram hsecond harena hsame
      have hother := (hheap.arenas second hsecond).tile_bounds hplace
      simp only [Arena.Apart] at hapart hother
      omega
  cases hsome : taken (tile.1 + 8) with
  | some block =>
    rw [hunique block hsome]
    rfl
  | none =>
    cases howner : tile.2.owner with
    | none => rfl
    | some request =>
      have htaken : tile.2.taken = true := by
        rw [Block.taken, howner]
        rfl
      have hblock := (hheap.taken_iff _ _).mpr
        ⟨arena, harena, tile.1, mem_takenTiles.mpr ⟨htile, htaken⟩, rfl⟩
      rw [hsome] at hblock
      cases hblock

/-- A state that stands for blocks is well formed. -/
theorem Represents.heapOk (hram : ram.Pairwise Arena.Apart)
    (hroom : ∀ arena ∈ ram, arena.start + 24 ≤ arena.finish) (hrep : Represents ram state taken) :
    HeapOk ram (state.heap.ready ram).mem state.live where
  arenas := fun arena harena ↦ by
    obtain ⟨layout, hlaid⟩ := hrep.holds
    refine ⟨layout arena, hlaid.arenas arena harena, fun tile htile ↦ ⟨?_, ?_⟩⟩
    · obtain ⟨before, after, -, haddr⟩ := exists_split_of_mem_placed htile
      have hmod := span_mod before
      have hstart := arena.start_mod
      rw [haddr, ← Nat.add_mod_mod, hmod]
      omega
    · rw [hrep.live_eq, hlaid.taken_tile hram harena htile]
  payloads := fun ptr request hlive ↦ by
    obtain ⟨block, hblock, howner⟩ := hrep.exists_block hlive
    refine ⟨(hrep.holds.actualBlockSize hblock).symm ▸ block.request_le howner, ?_⟩
    obtain ⟨layout, hlaid⟩ := hrep.holds
    obtain ⟨arena, harena, before, after, hsplit, -, hptr⟩ := hlaid.exists_split hblock
    exact ⟨arena, harena, before, block, after, hsplit ▸ hlaid.arenas arena harena, hptr⟩
  apart := fun first second hfirst hsecond hne ↦ by
    obtain ⟨firstRequest, hfirst⟩ := Option.isSome_iff_exists.mp hfirst
    obtain ⟨secondRequest, hsecond⟩ := Option.isSome_iff_exists.mp hsecond
    obtain ⟨firstBlock, hfirst, -⟩ := hrep.exists_block hfirst
    obtain ⟨secondBlock, hsecond, -⟩ := hrep.exists_block hsecond
    rw [hrep.holds.actualBlockSize hfirst, hrep.holds.actualBlockSize hsecond]
    exact hrep.holds.apart hram hfirst hsecond hne
  freed := fun hnone arena harena ↦ by
    refine hrep.holds.exists_single (fun ptr ↦ ?_) harena (hroom arena harena)
    refine Option.eq_none_iff_forall_ne_some.mpr fun block hblock ↦ ?_
    obtain ⟨request, howner, -⟩ := hrep.holds.exists_owner hblock
    have hlive := hrep.live_eq ptr
    rw [hnone, hblock, Option.bind_some, howner] at hlive
    cases hlive

end Blocks

/-! ### Events -/

section Events

variable {ram : List Arena} {state : HeapState} {taken : ℕ → Option Block}

/-- What runs of an event have to do, for some blocks behind it. -/
def EventDone (ram : List Arena) (state : HeapState) (event : HeapEvent) (result : ℕ)
    (heap : Heap) : Prop :=
  (∃ taken, Represents ram ⟨heap, liveAfter state.live result event⟩ taken) ∧
    EventOk ram (state.heap.ready ram).mem heap.mem state.live event result

/-- Blocks of a heap that is ready. -/
theorem represents_ready {mem : Memory} {live : ℕ → Option ℕ} (hholds : HeapHolds ram mem taken)
    (hlive : ∀ ptr, live ptr = (taken ptr).bind Block.owner) :
    Represents ram ⟨⟨mem, true⟩, live⟩ taken :=
  ⟨hholds, fun hfalse ↦ (Bool.true_eq_false_eq_False hfalse).elim, hlive⟩

/-- Live payloads and blocks change together. -/
theorem live_update {live : ℕ → Option ℕ} (hlive : ∀ ptr, live ptr = (taken ptr).bind Block.owner)
    (place : ℕ) (come : Option Block) (ptr : ℕ) :
    Function.update live place (come.bind Block.owner) ptr =
      (Function.update taken place come ptr).bind Block.owner := by
  by_cases hptr : ptr = place
  · rw [hptr, Function.update_self, Function.update_self]
  · rw [Function.update_of_ne hptr, Function.update_of_ne hptr, hlive]

/-- The payloads that a step preserves. -/
theorem Represents.agreeOn (hrep : Represents ram state taken) {given ptr request : ℕ}
    {other : Memory} (hpreserves : Preserves taken given (state.heap.ready ram).mem other)
    (hlive : state.live ptr = some request) (hne : ptr ≠ given) :
    AgreeOn (state.heap.ready ram).mem other ptr
      (ptr + sGetActualBlockSize (state.heap.ready ram).mem ptr) := by
  obtain ⟨block, hblock, -⟩ := hrep.exists_block hlive
  rw [hrep.holds.actualBlockSize hblock]
  exact hpreserves ptr block hblock hne

/-- A fresh payload is not live. -/
theorem Represents.live_eq_none (hrep : Represents ram state taken) {ptr : ℕ}
    (hptr : taken ptr = none) : state.live ptr = none := by
  rw [hrep.live_eq, hptr]
  rfl

/-- A heap in which nothing changes. -/
theorem Represents.unchanged (hrep : Represents ram state taken) :
    Represents ram ⟨state.heap.ready ram, state.live⟩ taken := by
  rw [ready_eq]
  exact represents_ready hrep.holds hrep.live_eq

/-- A request that is refused. -/
theorem Represents.refused (hrep : Represents ram state taken) {event : HeapEvent}
    (hlive : liveAfter state.live 0 event = state.live)
    (hresult : ResultOk ram (state.heap.ready ram).mem (state.heap.ready ram).mem state.live 0 event) :
    EventDone ram state event 0 (state.heap.ready ram) := by
  refine ⟨⟨taken, ?_⟩, fun ptr request hsome _ ↦ ⟨?_, .refl _ _ _⟩, hresult⟩
  · rw [hlive]
    exact hrep.unchanged
  · rw [hlive, hsome]

/-- A request that is granted at a fresh payload. -/
theorem Represents.granted (hrep : Represents ram state taken) {event : HeapEvent} {found size : ℕ}
    {other : Memory} {block : Block} (hfound : found ≠ 0) (hfresh : taken found = none)
    (howner : block.owner = some size)
    (hholds : HeapHolds ram other (Function.update taken found (some block)))
    (hpreserves : Preserves taken found (state.heap.ready ram).mem other)
    (hlive : liveAfter state.live found event = grant state.live found size)
    (hresult : ResultOk ram (state.heap.ready ram).mem other state.live found event) :
    EventDone ram state event found ⟨other, true⟩ := by
  rw [grant, if_neg hfound] at hlive
  have hgrant := live_update hrep.live_eq found (some block)
  rw [Option.bind_some, howner] at hgrant
  refine ⟨⟨_, hlive ▸ represents_ready hholds hgrant⟩, fun ptr request hsome _ ↦ ?_, hresult⟩
  have hne : ptr ≠ found := fun hsame ↦ by
    rw [hsame, hrep.live_eq_none hfresh] at hsome
    cases hsome
  exact ⟨by rw [hlive, Function.update_of_ne hne, hsome], hrep.agreeOn hpreserves hsome hne⟩

/-- Allocating. -/
theorem Represents.exists_smalloc (hram : ram.Pairwise Arena.Apart)
    (hrep : Represents ram state taken) {size : ℕ} (hsize : Requestable size) :
    ∃ fuel result heap, smalloc fuel ram state.heap size = some (result, heap) ∧
      EventDone ram state (.smalloc size) result heap := by
  obtain ⟨fuel, hresult, hsmall⟩ |
    ⟨fuel, found, other, block, hresult, hfound, hfresh, howner, hholds, hpreserves⟩ :=
      hrep.holds.exists_smalloc hram hsize.1 hsize.room
  · exact ⟨fuel, _, _, hresult, hrep.refused rfl hsmall⟩
  · refine ⟨fuel, _, _, hresult, hrep.granted hfound hfresh howner hholds hpreserves rfl ?_⟩
    rw [ResultOk, if_neg hfound]
    exact hrep.live_eq_none hfresh

/-- Allocating an array. -/
theorem Represents.exists_scalloc (hram : ram.Pairwise Arena.Apart)
    (hrep : Represents ram state taken) {nmemb size : ℕ} (hsize : Requestable (nmemb * size)) :
    ∃ fuel result heap, scalloc fuel ram state.heap nmemb size = some (result, heap) ∧
      EventDone ram state (.scalloc nmemb size) result heap := by
  obtain ⟨fuel, hresult, hsmall⟩ |
    ⟨fuel, found, other, block, hresult, hfound, hfresh, howner, hholds, hpreserves, hclear⟩ :=
      hrep.holds.exists_scalloc hram hsize.1 hsize.room
  · exact ⟨fuel, _, _, hresult, hrep.refused rfl hsmall⟩
  · refine ⟨fuel, _, _, hresult, hrep.granted hfound hfresh howner hholds hpreserves rfl ?_⟩
    rw [ResultOk, if_neg hfound]
    exact ⟨hrep.live_eq_none hfresh, hclear⟩

/-- Resizing what is nothing yet is allocating. -/
theorem srealloc_zero (fuel : ℕ) (ram : List Arena) (heap : Heap) (size : ℕ) :
    srealloc fuel ram heap 0 size = smalloc fuel ram heap size := by
  rw [srealloc, if_pos rfl, smalloc, smalloc, ready_ready]

/-- Resizing. -/
theorem Represents.exists_srealloc (hram : ram.Pairwise Arena.Apart)
    (hrep : Represents ram state taken) {ptr size : ℕ} (hptr : ptr = 0 ∨ (state.live ptr).isSome)
    (hsize : Requestable size) :
    ∃ fuel result heap, srealloc fuel ram state.heap ptr size = some (result, heap) ∧
      EventDone ram state (.srealloc ptr size) result heap := by
  have hzero := hrep.live_eq_none hrep.holds.zero_eq_none
  obtain rfl | hlive := hptr
  · have hnothing : Function.update state.live 0 none = state.live :=
      Function.update_eq_self_iff.mpr hzero.symm
    obtain ⟨fuel, hresult, hsmall⟩ |
      ⟨fuel, found, other, block, hresult, hfound, hfresh, howner, hholds, hpreserves⟩ :=
        hrep.holds.exists_smalloc hram hsize.1 hsize.room
    · exact ⟨fuel, _, _, (srealloc_zero ..).trans hresult,
        hrep.refused rfl ⟨hsmall, .refl _ _ _⟩⟩
    · refine ⟨fuel, _, _, (srealloc_zero ..).trans hresult,
        hrep.granted hfound hfresh howner hholds hpreserves ?_ ?_⟩
      · rw [liveAfter, if_neg hfound, hnothing]
      · rw [ResultOk, if_neg hfound]
        refine ⟨.inr (hrep.live_eq_none hfresh), fun old hold ↦ ?_⟩
        rw [hzero] at hold
        cases hold
  · obtain ⟨old, hlive⟩ := Option.isSome_iff_exists.mp hlive
    obtain ⟨block, hblock, howner⟩ := hrep.exists_block hlive
    have hold := block.request_le howner
    have hne : ptr ≠ 0 := fun hsame ↦ by
      rw [hsame, hzero] at hlive
      cases hlive
    by_cases hfits : size ≤ block.capacity
    · obtain ⟨fuel, other, kept, hresult, hkept, hholds, hpreserves, hagree⟩ :=
        hrep.holds.exists_srealloc_within hram hblock hsize.1 hfits
      have hafter : liveAfter state.live ptr (.srealloc ptr size) =
          Function.update state.live ptr (some size) := by
        rw [liveAfter, if_neg hne, grant, if_neg hne, Function.update_idem]
      have hgrant := live_update hrep.live_eq ptr (some kept)
      rw [Option.bind_some, hkept] at hgrant
      refine ⟨fuel, _, _, hresult, ⟨_, hafter ▸ represents_ready hholds hgrant⟩,
        fun second request hsome (hother : second ≠ ptr) ↦
          ⟨?_, hrep.agreeOn hpreserves hsome hother⟩, ?_⟩
      · rw [hafter, Function.update_of_ne hother, hsome]
      · rw [ResultOk, if_neg hne]
        exact ⟨.inl rfl, fun _ _ index hindex ↦ hagree _ (Nat.le_add_right _ _) (by omega)⟩
    · obtain ⟨fuel, hresult, hsmall⟩ |
        ⟨fuel, found, other, new, hresult, hfound, hfresh, hnew, hholds, hpreserves, hcopy⟩ :=
          hrep.holds.exists_srealloc_beyond hram hblock (Nat.lt_of_not_le hfits) hsize.room
      · exact ⟨fuel, _, _, hresult,
          hrep.refused rfl ⟨hsmall, .refl _ _ _⟩⟩
      · have hafter : liveAfter state.live found (.srealloc ptr size) =
            Function.update (Function.update state.live ptr none) found (some size) := by
          rw [liveAfter, if_neg hfound, grant, if_neg hfound]
        have hgrant := live_update (live_update hrep.live_eq ptr none) found (some new)
        rw [Option.bind_some, hnew] at hgrant
        refine ⟨fuel, _, _, hresult, ⟨_, hafter ▸ represents_ready hholds hgrant⟩,
          fun second request hsome (hother : second ≠ ptr) ↦
            ⟨?_, hrep.agreeOn hpreserves hsome hother⟩, ?_⟩
        · have hnotFound : second ≠ found := fun hsame ↦ by
            rw [hsame, hrep.live_eq_none hfresh] at hsome
            cases hsome
          rw [hafter, Function.update_of_ne hnotFound, Function.update_of_ne hother, hsome]
        · rw [ResultOk, if_neg hfound]
          refine ⟨.inr (hrep.live_eq_none hfresh), fun other hother index hindex ↦ hcopy index ?_⟩
          rw [hlive] at hother
          obtain rfl := Option.some.inj hother
          omega

/-- Freeing. -/
theorem Represents.exists_sfree (hram : ram.Pairwise Arena.Apart)
    (hrep : Represents ram state taken) {ptr : ℕ} (hptr : ptr = 0 ∨ (state.live ptr).isSome) :
    ∃ fuel heap, sfree fuel state.heap ptr = some heap ∧
      EventDone ram state (.sfree ptr) 0 heap := by
  have hzero := hrep.live_eq_none hrep.holds.zero_eq_none
  obtain rfl | hlive := hptr
  · have hnothing : Function.update state.live 0 none = state.live :=
      Function.update_eq_self_iff.mpr hzero.symm
    refine ⟨0, state.heap, if_pos (.inl rfl), ⟨taken, ?_⟩, fun ptr request hsome _ ↦ ?_, trivial⟩
    · rw [liveAfter, hnothing]
      exact hrep
    · rw [liveAfter, hnothing]
      refine ⟨hsome, ?_⟩
      obtain ⟨block, hblock, -⟩ := hrep.exists_block hsome
      have hready : state.heap.ready ram = state.heap := by
        refine if_pos (Bool.eq_true_of_not_eq_false fun hunused ↦ ?_)
        rw [hrep.unused hunused] at hblock
        cases hblock
      rw [hready]
      exact .refl _ _ _
  · obtain ⟨request, hlive⟩ := Option.isSome_iff_exists.mp hlive
    obtain ⟨block, hblock, -⟩ := hrep.exists_block hlive
    have hinitialized : state.heap.initialized = true := by
      refine Bool.eq_true_of_not_eq_false fun hunused ↦ ?_
      rw [hrep.unused hunused] at hblock
      cases hblock
    have hheap : state.heap = ⟨(state.heap.ready ram).mem, true⟩ := by
      rw [← ready_eq, Heap.ready, if_pos hinitialized]
    obtain ⟨fuel, other, hresult, hholds, hpreserves⟩ := hrep.holds.exists_sfree hram hblock
    rw [← hheap] at hresult
    refine ⟨fuel, _, hresult, ⟨_, represents_ready hholds (live_update hrep.live_eq ptr none)⟩,
      fun second request hsome (hother : second ≠ ptr) ↦
        ⟨?_, hrep.agreeOn hpreserves hsome hother⟩, trivial⟩
    rw [liveAfter, Function.update_of_ne hother, hsome]

/-- A store of a client. -/
theorem Represents.store (hram : ram.Pairwise Arena.Apart) (hrep : Represents ram state taken)
    {ptr offset : ℕ} {byte : UInt8}
    (hlive : ∃ request, state.live ptr = some request ∧ offset < request) :
    EventDone ram state (.store ptr offset byte) 0
      { state.heap with mem := storeByte state.heap.mem (ptr + offset) byte } := by
  obtain ⟨request, hlive, hoffset⟩ := hlive
  obtain ⟨block, hblock, howner⟩ := hrep.exists_block hlive
  have hrequest := block.request_le howner
  have hinitialized : state.heap.initialized = true := by
    refine Bool.eq_true_of_not_eq_false fun hunused ↦ ?_
    rw [hrep.unused hunused] at hblock
    cases hblock
  have hheap : state.heap = state.heap.ready ram := (if_pos hinitialized).symm
  have hholds := hrep.holds
  rw [← hheap] at hholds
  have houtside : ∀ addr, addr < ptr ∨ ptr + block.capacity ≤ addr →
      storeByte state.heap.mem (ptr + offset) byte addr = state.heap.mem addr :=
    fun addr houtside ↦ if_neg (by omega)
  obtain ⟨hstored, hpreserves⟩ := hholds.write hram hblock houtside
  refine ⟨⟨taken, ?_⟩, fun second request hsome (hother : second ≠ ptr) ↦ ⟨hsome, ?_⟩, ?_⟩
  · simp only [hinitialized]
    exact represents_ready hstored hrep.live_eq
  · refine hrep.agreeOn ?_ hsome hother
    rwa [← hheap]
  · rw [← hheap]
    rfl

/-- Every permitted event has a result, and does what it may do. -/
theorem Represents.exists_event (hram : ram.Pairwise Arena.Apart) (hrep : Represents ram state taken)
    {event : HeapEvent} (hpermitted : Permitted state event) :
    ∃ fuel result heap, runEvent fuel ram state.heap event = some (result, heap) ∧
      EventDone ram state event result heap := by
  cases event with
  | smalloc size => exact hrep.exists_smalloc hram hpermitted
  | scalloc nmemb size => exact hrep.exists_scalloc hram hpermitted
  | srealloc ptr size => exact hrep.exists_srealloc hram hpermitted.1 hpermitted.2
  | sfree ptr =>
    obtain ⟨fuel, heap, hresult, hdone⟩ := hrep.exists_sfree hram hpermitted
    exact ⟨fuel, 0, heap, by rw [runEvent, hresult]; rfl, hdone⟩
  | store ptr offset byte => exact ⟨0, _, _, rfl, hrep.store hram hpermitted⟩

theorem fuelMono_runEvent (ram : List Arena) (heap : Heap) (event : HeapEvent) :
    FuelMono (runEvent · ram heap event) := by
  cases event with
  | smalloc size => exact fuelMono_smalloc _ _ _
  | scalloc nmemb size => exact fuelMono_scalloc _ _ _ _
  | srealloc ptr size => exact fuelMono_srealloc _ _ _ _
  | sfree ptr => exact (fuelMono_sfree _ _).map _
  | store ptr offset byte => exact fuelMono_const _

/-- Every result of a permitted event is in order. -/
theorem Represents.eventDone (hram : ram.Pairwise Arena.Apart) (hrep : Represents ram state taken)
    {event : HeapEvent} (hpermitted : Permitted state event) {fuel result : ℕ} {heap : Heap}
    (hresult : runEvent fuel ram state.heap event = some (result, heap)) :
    EventDone ram state event result heap := by
  obtain ⟨more, other, otherHeap, hother, hdone⟩ := hrep.exists_event hram hpermitted
  obtain ⟨rfl, rfl⟩ := Prod.mk.inj ((fuelMono_runEvent ram state.heap event).unique hresult hother)
  exact hdone

end Events

/-! ### Runs -/

section Runs

variable {ram : List Arena} {state : HeapState}

/-- Every reachable state stands for blocks. -/
theorem exists_represents (hram : ram.Pairwise Arena.Apart)
    (hroom : ∀ arena ∈ ram, arena.start + 24 ≤ arena.finish)
    (hreach : (heapSystem ram).ReachableUnder Permitted state) :
    ∃ taken, Represents ram state taken := by
  refine hreach.invariant (fun state ↦ ∃ taken, Represents ram state taken) ?_ ?_
  · rintro state ⟨hunused, hlive⟩
    have hready : state.heap.ready ram = sInit ram state.heap :=
      if_neg (by rw [hunused]; exact Bool.false_ne_true)
    exact ⟨fun _ ↦ none, hready ▸ heapHolds_sInit hram hroom state.heap, fun _ _ ↦ rfl, hlive⟩
  · rintro state event after ⟨taken, hrep⟩ hpermitted ⟨fuel, hstep⟩
    obtain ⟨⟨result, heap⟩, hresult, rfl⟩ := Option.map_eq_some_iff.mp hstep
    exact (hrep.eventDone hram hpermitted hresult).1

/-- Every reachable heap is well formed; from there, every permitted event has a result, and all its
results are in order. -/
theorem heapOk_of_reachable (hram : ram.Pairwise Arena.Apart)
    (hroom : ∀ arena ∈ ram, arena.start + 24 ≤ arena.finish)
    (hreach : (heapSystem ram).ReachableUnder Permitted state) :
    HeapOk ram (state.heap.ready ram).mem state.live ∧
      ∀ event, Permitted state event →
        (∃ fuel result heap, runEvent fuel ram state.heap event = some (result, heap)) ∧
        ∀ fuel result heap, runEvent fuel ram state.heap event = some (result, heap) →
          EventOk ram (state.heap.ready ram).mem heap.mem state.live event result := by
  obtain ⟨taken, hrep⟩ := exists_represents hram hroom hreach
  refine ⟨hrep.heapOk hram hroom, fun event hpermitted ↦ ⟨?_, fun fuel result heap hresult ↦ ?_⟩⟩
  · obtain ⟨fuel, result, heap, hresult, -⟩ := hrep.exists_event hram hpermitted
    exact ⟨fuel, result, heap, hresult⟩
  · exact (hrep.eventDone hram hpermitted hresult).2

theorem heapOk_of_small_run :
    ∃ arena : Arena, arena.start = 8 ∧ arena.finish = 56 ∧ ∃ state : HeapState,
      (heapSystem [arena]).ReachableUnder Permitted state ∧ state.live 24 = some 4 ∧
      HeapOk [arena] (state.heap.ready [arena]).mem state.live ∧
      ∀ event, Permitted state event →
        (∃ fuel result heap, runEvent fuel [arena] state.heap event = some (result, heap)) ∧
        ∀ fuel result heap, runEvent fuel [arena] state.heap event = some (result, heap) →
          EventOk [arena] (state.heap.ready [arena]).mem heap.mem state.live event result := by
  refine ⟨⟨8, 56, by decide, rfl, rfl, by decide, by decide⟩, rfl, rfl, ?_⟩
  generalize harena : (⟨8, 56, _, _, _, _, _⟩ : Arena) = arena
  have hstep : ∃ heap, heapStep 8 [arena] ⟨⟨fun _ ↦ 0, false⟩, fun _ ↦ none⟩ (.smalloc 4) =
      some ⟨heap, grant (fun _ ↦ none) 24 4⟩ := by
    rw [← harena]
    exact ⟨_, rfl⟩
  obtain ⟨heap, hstep⟩ := hstep
  have hpermitted : Permitted ⟨⟨fun _ ↦ 0, false⟩, fun _ ↦ none⟩ (.smalloc 4) :=
    ⟨by decide, by decide⟩
  have hreach : (heapSystem [arena]).ReachableUnder Permitted ⟨heap, grant (fun _ ↦ none) 24 4⟩ :=
    .next (.start ⟨rfl, fun _ ↦ rfl⟩) hpermitted ⟨8, hstep⟩
  exact ⟨_, hreach, rfl, heapOk_of_reachable (List.pairwise_singleton _ _)
    (List.forall_mem_singleton.mpr (by rw [← harena]; decide)) hreach⟩

/-- In an arena with room for its guards alone, the guard at the end is free. -/
theorem not_heapOk_of_tiny_arena :
    ∃ arena : Arena, arena.start = 8 ∧ arena.finish = 24 ∧ ∃ state : HeapState,
      (heapSystem [arena]).ReachableUnder Permitted state ∧
      ¬ HeapOk [arena] (state.heap.ready [arena]).mem state.live := by
  refine ⟨⟨8, 24, by decide, rfl, rfl, by decide, by decide⟩, rfl, rfl, ?_⟩
  generalize harena : (⟨8, 24, _, _, _, _, _⟩ : Arena) = arena
  refine ⟨⟨⟨initArena (fun _ ↦ 0) arena, true⟩, fun _ ↦ none⟩, ?_, fun hok ↦ ?_⟩
  · have hstep : heapStep 3 [arena] ⟨⟨fun _ ↦ 0, false⟩, fun _ ↦ none⟩ (.smalloc 1) =
        some ⟨⟨initArena (fun _ ↦ 0) arena, true⟩, fun _ ↦ none⟩ := by
      rw [← harena]
      rfl
    have hpermitted : Permitted ⟨⟨fun _ ↦ 0, false⟩, fun _ ↦ none⟩ (.smalloc 1) :=
      ⟨by decide, by decide⟩
    exact .next (.start ⟨rfl, fun _ ↦ rfl⟩) hpermitted ⟨3, hstep⟩
  · obtain ⟨blocks, hholds, -⟩ := hok.arenas arena (List.mem_singleton.mpr rfl)
    have htiles := hholds.tiles
    rw [← harena] at htiles hholds
    change 8 + 8 + span blocks + 8 = 24 at htiles
    obtain rfl : blocks = [] := eq_nil_of_span_eq_zero (by omega)
    have hguard := (chain_cons.mp hholds.chain).2.2.free_eq
    exact absurd (show (true : Bool) = false from hguard) (by decide)

end Runs

end Elua.Salloc
