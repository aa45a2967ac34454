import Elua.Foundation.Loop
import Elua.Salloc.Header

/-!
# The simple allocator

The functions of the allocator on a memory of bytes. Loops run on fuel, and `FuelMono` holds of
every function, so a result does not depend on how much of it there is. The lines that split a block
occur twice in the source; they are `sSplitBlock` here.

The arenas are the values of `platform_get_first_free_ram` and `platform_get_last_free_ram`.
-/

set_option autoImplicit false
set_option relaxedAutoImplicit false

namespace Elua.Salloc

open Foundation

/-! ### Compaction -/

/-- One pass of the walk back to a taken block. -/
def prevTakenBody (mem : Memory) (temp : ℕ) : Option (ℕ ⊕ ℕ) :=
  if sIsBlockFree mem temp then some (.inl (sGetPrevBlock mem temp)) else some (.inr temp)

/-- One pass of the walk on to a taken block. -/
def nextTakenBody (mem : Memory) (temp : ℕ) : Option (ℕ ⊕ ℕ) :=
  if sIsBlockFree mem temp then some (.inl (sGetNextBlock mem temp)) else some (.inr temp)

/-- Links a run of free blocks that begins at `temp1` and ends in front of `temp2`, unless the run
is the block `ptr` alone. -/
def sLinkRun (mem : Memory) (ptr temp1 temp2 : ℕ) : Memory :=
  if temp1 ≠ ptr ∨ sGetPrevBlock mem temp2 ≠ ptr then
    sSetPrevBlock (sSetNextBlock mem temp1 temp2) temp2 temp1
  else mem

/-- Frees a block and joins the free blocks around it. -/
def sCompactFree (fuel : ℕ) (mem : Memory) (ptr : ℕ) : Option Memory :=
  let mem := sMarkBlockFree mem ptr
  (runLoop (prevTakenBody mem) fuel ptr).bind fun temp1 ↦
    (runLoop (nextTakenBody mem) fuel ptr).map fun temp2 ↦
      sLinkRun mem ptr (sGetNextBlock mem temp1) temp2

/-! ### Splitting -/

/-- Splits what lies behind the first `size` bytes off a block and frees it. -/
def sSplitBlock (fuel : ℕ) (mem : Memory) (pblock size : ℕ) : Option Memory :=
  let temp := add32 pblock size
  let next := sGetNextBlock mem pblock
  let mem := sSetPrevBlock mem temp pblock
  let mem := sSetNextBlock mem temp next
  let mem := sSetPrevBlock mem next temp
  let mem := sSetNextBlock mem pblock temp
  sCompactFree fuel mem temp

/-! ### Finding a free block -/

/-- The best block so far, and its size. -/
structure BestFit where
  pblock : ℕ
  minsize : ℕ
  deriving DecidableEq, Repr

/-- The best block, given one more block. -/
def BestFit.improve (mem : Memory) (size temp : ℕ) (best : BestFit) : BestFit :=
  if sIsBlockFree mem temp then
    let bsize := sGetBlockSize mem temp
    if size ≤ bsize ∧ bsize < best.minsize then ⟨temp, bsize⟩ else best
  else best

/-- One pass of the search for the best block. -/
def bestFitBody (mem : Memory) (size : ℕ) (state : ℕ × BestFit) :
    Option ((ℕ × BestFit) ⊕ BestFit) :=
  if state.1 = 0 then some (.inr state.2)
  else some (.inl (sGetNextBlock mem state.1, state.2.improve mem size state.1))

/-- Finds a free block in an arena, takes it and splits it if it is much too large. Returns the
payload of the block, or zero. -/
def sGetFreeBlock (fuel : ℕ) (mem : Memory) (size pstart : ℕ) : Option (ℕ × Memory) :=
  if size = 0 then some (0, mem)
  else
    let size := sActSize (add32 size dynHeaderSize)
    (runLoop (bestFitBody mem size) fuel (sGetNextBlock mem pstart, ⟨0, 0xFFFFFFFF⟩)).bind
      fun best ↦
        if best.pblock = 0 then some (0, mem)
        else
          let mem := sMarkBlockTaken mem best.pblock
          if size < best.minsize ∧ dynMinSplitSize ≤ sub32 best.minsize size then
            (sSplitBlock fuel mem best.pblock size).map fun mem ↦
              (add32 best.pblock dynHeaderSize, mem)
          else some (add32 best.pblock dynHeaderSize, mem)

/-! ### Blocks of the caller -/

/-- Free a memory block. -/
def sFreeBlock (fuel : ℕ) (mem : Memory) (ptr : ℕ) : Option Memory :=
  sCompactFree fuel mem (sub32 ptr dynHeaderSize)

/-- Get 'real' block size. -/
def sGetActualBlockSize (mem : Memory) (ptr : ℕ) : ℕ :=
  sub32 (sGetBlockSize mem (sub32 ptr dynHeaderSize)) dynHeaderSize

/-- Shrinks the given block to its new size. -/
def sShrinkBlock (fuel : ℕ) (mem : Memory) (ptr size : ℕ) : Option Memory :=
  let pblock := sub32 ptr dynHeaderSize
  let size := sActSize (add32 size dynHeaderSize)
  if sGetBlockSize mem pblock ≤ size ∨ sub32 (sGetBlockSize mem pblock) size < dynMinSplitSize then
    some mem
  else sSplitBlock fuel mem pblock size

/-! ### The arenas -/

/-- A part of the RAM that is given to the allocator: both ends are aligned, and it has room for the
two guards. -/
structure Arena where
  start : ℕ
  finish : ℕ
  start_pos : 0 < start
  start_mod : start % 8 = 0
  finish_mod : finish % 8 = 0
  room : start + 16 ≤ finish
  finish_lt : finish < 2 ^ 32
  deriving DecidableEq

/-- Sets an arena up as one free block between two guards. -/
def initArena (mem : Memory) (arena : Arena) : Memory :=
  let memspace := sub32 arena.finish arena.start
  let g1 := arena.start
  let crt := add32 g1 dynSizeMult
  let g2 := sub32 (add32 g1 memspace) dynSizeMult
  let mem := sCreateNewBlock mem g1 crt 0
  let mem := sCreateNewBlock mem crt g2 g1
  let mem := sCreateNewBlock mem g2 0 crt
  let mem := sMarkBlockTaken mem g1
  let mem := sMarkBlockTaken mem g2
  sMarkBlockFree mem crt

/-- The memory and the flag that says that the arenas have been set up. -/
structure Heap where
  mem : Memory
  initialized : Bool

/-- Sets all arenas up. -/
def sInit (ram : List Arena) (heap : Heap) : Heap := ⟨ram.foldl initArena heap.mem, true⟩

/-- The heap after the test that begins most of the functions. -/
def Heap.ready (ram : List Arena) (heap : Heap) : Heap :=
  if heap.initialized then heap else sInit ram heap

/-! ### The interface -/

/-- Tries the arenas one after the other. -/
def smallocFrom (fuel : ℕ) (mem : Memory) (size : ℕ) : List Arena → Option (ℕ × Memory)
  | [] => some (0, mem)
  | arena :: rest => (sGetFreeBlock fuel mem size arena.start).bind fun result ↦
      if result.1 ≠ 0 then some result else smallocFrom fuel result.2 size rest

/-- Allocates a block and returns its payload, or zero. -/
def smalloc (fuel : ℕ) (ram : List Arena) (heap : Heap) (size : ℕ) : Option (ℕ × Heap) :=
  (smallocFrom fuel (heap.ready ram).mem size ram).map fun result ↦ (result.1, ⟨result.2, true⟩)

/-- Frees a block. -/
def sfree (fuel : ℕ) (heap : Heap) (ptr : ℕ) : Option Heap :=
  if ptr = 0 ∨ heap.initialized = false then some heap
  else (sFreeBlock fuel heap.mem ptr).map fun mem ↦ { heap with mem := mem }

/-- Allocates a block for an array and clears it. -/
def scalloc (fuel : ℕ) (ram : List Arena) (heap : Heap) (nmemb size : ℕ) : Option (ℕ × Heap) :=
  let total := nmemb * size % 2 ^ 32
  (smalloc fuel ram (heap.ready ram) total).map fun result ↦
    if result.1 ≠ 0 then (result.1, { result.2 with mem := memset result.2.mem result.1 0 total })
    else result

/-- Resizes a block. -/
def srealloc (fuel : ℕ) (ram : List Arena) (heap : Heap) (ptr size : ℕ) : Option (ℕ × Heap) :=
  let heap := heap.ready ram
  if ptr = 0 then smalloc fuel ram heap size
  else if size = 0 then (sfree fuel heap ptr).map fun heap ↦ (0, heap)
  else if sGetActualBlockSize heap.mem ptr = size then some (ptr, heap)
  else if size < sGetActualBlockSize heap.mem ptr then
    (sShrinkBlock fuel heap.mem ptr size).map fun mem ↦ (ptr, { heap with mem := mem })
  else
    (smalloc fuel ram heap size).bind fun result ↦
      if result.1 = 0 then some (0, result.2)
      else
        let mem := memmove result.2.mem result.1 ptr (sGetActualBlockSize result.2.mem ptr)
        (sfree fuel { result.2 with mem := mem } ptr).map fun heap ↦ (result.1, heap)

/-! ### More fuel keeps the results -/

section Fuel

variable (mem : Memory) (ram : List Arena) (heap : Heap) (ptr size : ℕ)

theorem fuelMono_sCompactFree : FuelMono (sCompactFree · mem ptr) :=
  (fuelMono_runLoop _ _).bind fun _ ↦ (fuelMono_runLoop _ _).map _

theorem fuelMono_sSplitBlock : FuelMono (sSplitBlock · mem ptr size) := fuelMono_sCompactFree _ _

theorem fuelMono_sGetFreeBlock : FuelMono (sGetFreeBlock · mem size ptr) :=
  .ite _ (fuelMono_const _) ((fuelMono_runLoop _ _).bind fun _ ↦
    .ite _ (fuelMono_const _) (.ite _ ((fuelMono_sSplitBlock _ _ _).map _) (fuelMono_const _)))

theorem fuelMono_sShrinkBlock : FuelMono (sShrinkBlock · mem ptr size) :=
  .ite _ (fuelMono_const _) (fuelMono_sSplitBlock _ _ _)

theorem fuelMono_smallocFrom : FuelMono (smallocFrom · mem size ram) := by
  induction ram generalizing mem with
  | nil => exact fuelMono_const _
  | cons arena rest ih =>
    exact (fuelMono_sGetFreeBlock _ _ _).bind fun result ↦ .ite _ (fuelMono_const _) (ih result.2)

theorem fuelMono_smalloc : FuelMono (smalloc · ram heap size) := (fuelMono_smallocFrom _ _ _).map _

theorem fuelMono_sfree : FuelMono (sfree · heap ptr) :=
  .ite _ (fuelMono_const _) ((fuelMono_sCompactFree _ _).map _)

theorem fuelMono_scalloc (nmemb : ℕ) : FuelMono (scalloc · ram heap nmemb size) :=
  (fuelMono_smalloc _ _ _).map _

theorem fuelMono_srealloc : FuelMono (srealloc · ram heap ptr size) :=
  .ite _ (fuelMono_smalloc _ _ _) (.ite _ ((fuelMono_sfree _ _).map _) (.ite _ (fuelMono_const _)
    (.ite _ ((fuelMono_sShrinkBlock _ _ _).map _) ((fuelMono_smalloc _ _ _).bind fun _ ↦
      .ite _ (fuelMono_const _) ((fuelMono_sfree _ _).map _)))))

end Fuel

end Elua.Salloc
