import Elua.Salloc.HeapRuns

/-!
# Requests of any size

`smalloc`, `scalloc` and `srealloc` for all 32-bit arguments, those near the limit included. A call
is `Honest` if it returns, keeps the lists of blocks in order, and hands out at least the bytes that
were asked for, or zero.

`honest_iff`: this is so exactly if the request with its header can be rounded up in 32 bits, or the
sum that wraps is refused. For a larger request the code searches for a block of the size that is
left after the wrap, and takes any free block that is as large as that. -/

set_option autoImplicit false
set_option relaxedAutoImplicit false

namespace Elua.Salloc

open Foundation

/-! ### Requests -/

/-- A call that asks for memory. -/
inductive Request
  | smalloc (size : ℕ)
  | scalloc (nmemb size : ℕ)
  | srealloc (ptr size : ℕ)

namespace Request

/-- Runs the call. -/
def run (fuel : ℕ) (ram : List Arena) (heap : Heap) : Request → Option (ℕ × Heap)
  | smalloc size => Salloc.smalloc fuel ram heap size
  | scalloc nmemb size => Salloc.scalloc fuel ram heap nmemb size
  | srealloc ptr size => Salloc.srealloc fuel ram heap ptr size

/-- The bytes that are asked for. -/
def bytes : Request → ℕ
  | smalloc size => size
  | scalloc nmemb size => nmemb * size
  | srealloc _ size => size

/-- The payload that the call is given. -/
def given : Request → ℕ
  | smalloc _ => 0
  | scalloc _ _ => 0
  | srealloc ptr _ => ptr

/-- Sizes are words, and what is given is live, or nothing. -/
def Proper (taken : ℕ → Option Block) : Request → Prop
  | smalloc size => size < 2 ^ 32
  | scalloc nmemb size => nmemb < 2 ^ 32 ∧ size < 2 ^ 32
  | srealloc ptr size => size < 2 ^ 32 ∧ (ptr = 0 ∨ (taken ptr).isSome)

end Request

/-- The call returns zero, or the payload of a live block that was no one else's and has the bytes
that are asked for. The lists of blocks are in order, and the other live blocks are still there. -/
def Honest (ram : List Arena) (heap : Heap) (taken : ℕ → Option Block) (request : Request) : Prop :=
  ∃ fuel result other after,
    request.run fuel ram heap = some (result, other) ∧
    HeapHolds ram (other.ready ram).mem after ∧
    (∀ ptr block, taken ptr = some block → ptr ≠ request.given → after ptr = some block) ∧
    (result = 0 ∨ (result = request.given ∨ taken result = none) ∧
      ∃ block, after result = some block ∧ request.bytes ≤ block.capacity)

/-- Nothing is asked for, or no free block is as large as the block that is searched for. -/
def Refuses (ram : List Arena) (mem : Memory) (size : ℕ) : Prop :=
  size = 0 ∨ ∀ arena ∈ ram, ∀ blocks, ArenaHolds mem arena blocks → ∀ block ∈ blocks,
    block.taken = false → block.size < sActSize (add32 size dynHeaderSize)

variable {ram : List Arena} {heap other : Heap} {mem : Memory} {taken : ℕ → Option Block}
  {ptr size fuel : ℕ}

/-! ### The search -/

/-- The search of an arena for a block of any size: either no free block is large enough and nothing
changes, or all runs that end give a block out. -/
theorem ArenaHolds.sGetFreeBlock_cases {arena : Arena} {old : List Block}
    (hholds : ArenaHolds mem arena old) (hpos : 0 < size) :
    ((∃ fuel, sGetFreeBlock fuel mem size arena.start = some (0, mem)) ∧
        ∀ block ∈ old, block.taken = false → block.size < sActSize (add32 size dynHeaderSize)) ∨
      ((∃ block ∈ old, block.taken = false ∧ sActSize (add32 size dynHeaderSize) ≤ block.size) ∧
        ∀ fuel result, sGetFreeBlock fuel mem size arena.start = some result → result.1 ≠ 0) := by
  have hfinish := arena.finish_lt
  have hstart := arena.start_pos
  obtain ⟨hguard, hblocks⟩ := chain_cons.mp hholds.chain
  have hnext : sGetNextBlock mem arena.start = arena.start + 8 := hguard.next_eq
  obtain ⟨enough, found, hloop, hcases, -, hmin⟩ :=
    @exists_runLoop_bestFit mem arena.start (arena.start + 8)
      (sActSize (add32 size dynHeaderSize)) old ⟨0, 0xFFFFFFFF⟩ hblocks (by omega)
  rcases hcases with rfl | ⟨before, block, after, rfl, hfree, hfits, rfl⟩
  · refine .inl ⟨⟨enough, ?_⟩, fun block hblock hfree ↦ ?_⟩
    · rw [sGetFreeBlock, if_neg (Nat.ne_of_gt hpos)]
      simp only [hnext, hloop, Option.bind_some, if_true]
    · by_contra hlarge
      have hle := hmin block hblock hfree (Nat.le_of_not_lt hlarge)
      have hspan := size_le_span hblock
      have htiles := hholds.tiles
      simp only at hle
      omega
  · refine .inr ⟨⟨block, List.mem_append_right _ List.mem_cons_self, hfree, hfits⟩, ?_⟩
    intro fuel result hresult
    have hbound := hholds.block_bound
    have hreturn : add32 (arena.start + 8 + span before) dynHeaderSize =
        arena.start + 8 + span before + 8 := by
      rw [dynHeaderSize, add32_eq]
      omega
    have hpblock : arena.start + 8 + span before ≠ 0 := by omega
    rw [sGetFreeBlock, if_neg (Nat.ne_of_gt hpos), hnext] at hresult
    obtain ⟨best, hbest, hresult⟩ := Option.bind_eq_some_iff.mp hresult
    obtain rfl := runLoop_unique hbest hloop
    simp only [hpblock, if_false, hreturn] at hresult
    split_ifs at hresult
    · obtain ⟨split, -, rfl⟩ := Option.map_eq_some_iff.mp hresult
      exact Nat.succ_ne_zero _
    · obtain rfl := Option.some.inj hresult
      exact Nat.succ_ne_zero _

/-- The search of some arenas, which all hold blocks. -/
theorem smallocFrom_cases {layout : Arena → List Block} (hpos : 0 < size) {rest : List Arena}
    (hholds : ∀ arena ∈ rest, ArenaHolds mem arena (layout arena)) :
    ((∃ fuel, smallocFrom fuel mem size rest = some (0, mem)) ∧ Refuses rest mem size) ∨
      (¬ Refuses rest mem size ∧
        ∀ fuel result, smallocFrom fuel mem size rest = some result → result.1 ≠ 0) := by
  induction rest with
  | nil => exact .inl ⟨⟨0, rfl⟩, .inr nofun⟩
  | cons arena rest ih =>
    obtain ⟨harena, hrest⟩ := List.forall_mem_cons.mp hholds
    rcases harena.sGetFreeBlock_cases hpos with
      ⟨⟨enough, hnothing⟩, -⟩ | ⟨⟨block, hblock, hfree, hfits⟩, hfinds⟩
    · have hsearch : ∀ more result, sGetFreeBlock more mem size arena.start = some result →
          result = (0, mem) := fun more result hresult ↦
        (fuelMono_sGetFreeBlock mem arena.start size).unique hresult hnothing
      rcases ih hrest with ⟨⟨more, hresult⟩, hrefuses⟩ | ⟨hfits, hfinds⟩
      · refine .inl ⟨⟨max enough more, ?_⟩, .inr (List.forall_mem_cons.mpr ⟨?_, ?_⟩)⟩
        · have hfirst := fuelMono_sGetFreeBlock _ _ _ (Nat.le_max_left enough more) hnothing
          have hsecond := fuelMono_smallocFrom _ _ _ (Nat.le_max_right enough more) hresult
          simp only at hfirst hsecond
          rw [smallocFrom, hfirst, Option.bind_some, if_neg (not_not.mpr rfl), hsecond]
        · intro blocks hblocks
          rcases hblocks.sGetFreeBlock_cases hpos with ⟨-, hsmall⟩ | ⟨-, hfinds⟩
          · exact hsmall
          · exact absurd rfl (hfinds enough _ hnothing)
        · exact hrefuses.resolve_left (Nat.ne_of_gt hpos)
      · refine .inr ⟨fun hrefuses ↦ hfits (.inr ?_), fun fuel result hresult ↦ ?_⟩
        · exact (List.forall_mem_cons.mp (hrefuses.resolve_left (Nat.ne_of_gt hpos))).2
        · rw [smallocFrom] at hresult
          obtain ⟨first, hfirst, hresult⟩ := Option.bind_eq_some_iff.mp hresult
          obtain rfl := hsearch fuel first hfirst
          rw [if_neg (not_not.mpr rfl)] at hresult
          exact hfinds fuel result hresult
    · refine .inr ⟨?_, fun fuel result hresult ↦ ?_⟩
      · rintro (hzero | hsmall)
        · exact Nat.ne_of_gt hpos hzero
        · have hless := hsmall arena List.mem_cons_self _ harena block hblock hfree
          omega
      · rw [smallocFrom] at hresult
        obtain ⟨first, hfirst, hresult⟩ := Option.bind_eq_some_iff.mp hresult
        have hfound := hfinds fuel first hfirst
        rw [if_pos hfound] at hresult
        exact Option.some.inj hresult ▸ hfound

/-- Nothing is searched for if nothing is asked for. -/
theorem smallocFrom_zero (fuel : ℕ) (mem : Memory) (rest : List Arena) :
    smallocFrom fuel mem 0 rest = some (0, mem) := by
  induction rest with
  | nil => rfl
  | cons arena rest ih =>
    rw [smallocFrom, sGetFreeBlock, if_pos rfl, Option.bind_some, if_neg (not_not.mpr rfl), ih]

/-- `smalloc` returns zero exactly if it refuses, and then nothing changes. -/
theorem HeapHolds.smalloc_cases (hheap : HeapHolds ram (heap.ready ram).mem taken) (size : ℕ) :
    (Refuses ram (heap.ready ram).mem size ∧
        ∃ fuel, smalloc fuel ram heap size = some (0, heap.ready ram)) ∨
      (¬ Refuses ram (heap.ready ram).mem size ∧
        ∀ fuel result, smalloc fuel ram heap size = some result → result.1 ≠ 0) := by
  obtain ⟨layout, hlaid⟩ := hheap
  rcases Nat.eq_zero_or_pos size with rfl | hpos
  · refine .inl ⟨.inl rfl, 0, ?_⟩
    rw [smalloc, smallocFrom_zero, ready_eq]
    rfl
  · rcases smallocFrom_cases hpos hlaid.arenas with ⟨⟨fuel, hresult⟩, hrefuses⟩ | ⟨hfits, hfinds⟩
    · refine .inl ⟨hrefuses, fuel, ?_⟩
      rw [smalloc, hresult, ready_eq]
      rfl
    · refine .inr ⟨hfits, fun fuel result hresult ↦ ?_⟩
      obtain ⟨found, hfound, rfl⟩ := Option.map_eq_some_iff.mp hresult
      exact hfinds fuel found hfound

/-! ### Calls that are honest -/

/-- A call that is refused. -/
theorem honest_of_zero {request : Request} (hheap : HeapHolds ram (heap.ready ram).mem taken)
    (hresult : ∃ fuel, request.run fuel ram heap = some (0, heap.ready ram)) :
    Honest ram heap taken request := by
  obtain ⟨fuel, hresult⟩ := hresult
  refine ⟨fuel, 0, _, taken, hresult, ?_, fun _ _ hsome _ ↦ hsome, .inl rfl⟩
  rw [ready_ready]
  exact hheap

/-- A call that is given a block. -/
theorem honest_of_block {request : Request} {found : ℕ} {block : Block} {after : ℕ → Option Block}
    (hresult : ∃ fuel, request.run fuel ram heap = some (found, ⟨mem, true⟩))
    (hholds : HeapHolds ram mem after) (hfound : found = request.given ∨ taken found = none)
    (hafter : after found = some block) (howner : block.owner = some request.bytes)
    (hothers : ∀ ptr, ptr ≠ found → ptr ≠ request.given → after ptr = taken ptr) :
    Honest ram heap taken request := by
  obtain ⟨fuel, hresult⟩ := hresult
  refine ⟨fuel, found, _, after, hresult, hholds, fun ptr old hsome hne ↦ ?_,
    .inr ⟨hfound, block, hafter, block.request_le howner⟩⟩
  have hother : ptr ≠ found := by
    rintro rfl
    rw [hfound.resolve_left hne] at hsome
    cases hsome
  rw [hothers ptr hother hne, hsome]

theorem honest_smalloc (hram : ram.Pairwise Arena.Apart)
    (hheap : HeapHolds ram (heap.ready ram).mem taken) (hsize : size + 16 ≤ 2 ^ 32) :
    Honest ram heap taken (.smalloc size) := by
  rcases hheap.smalloc_cases size with ⟨-, hresult⟩ | ⟨hfits, hfinds⟩
  · exact honest_of_zero hheap hresult
  · have hpos : 0 < size := Nat.pos_of_ne_zero fun hzero ↦ hfits (.inl hzero)
    rcases hheap.exists_smalloc hram hpos hsize with ⟨fuel, hresult, -⟩ |
      ⟨fuel, found, other, block, hresult, -, hfresh, howner, hholds, -⟩
    · exact absurd rfl (hfinds fuel _ hresult)
    · exact honest_of_block ⟨fuel, hresult⟩ hholds (.inr hfresh) (Function.update_self ..) howner
        fun ptr hptr _ ↦ Function.update_of_ne hptr ..

/-- `scalloc` asks for the product in 32 bits. -/
theorem scalloc_zero_iff (fuel nmemb size : ℕ) :
    (∃ other, scalloc fuel ram heap nmemb size = some (0, other)) ↔
      ∃ other, smalloc fuel ram (heap.ready ram) (nmemb * size % 2 ^ 32) = some (0, other) := by
  unfold scalloc
  dsimp only
  constructor
  · rintro ⟨other, hresult⟩
    obtain ⟨⟨found, middle⟩, hmalloc, hresult⟩ := Option.map_eq_some_iff.mp hresult
    split_ifs at hresult with hfound
    · exact absurd (congrArg Prod.fst hresult) hfound
    · rw [not_not] at hfound
      exact ⟨middle, by rw [hmalloc, ← hfound]⟩
  · rintro ⟨other, hmalloc⟩
    exact ⟨other, by rw [hmalloc]; rfl⟩

theorem honest_scalloc (hram : ram.Pairwise Arena.Apart)
    (hheap : HeapHolds ram (heap.ready ram).mem taken) {nmemb : ℕ}
    (hsize : nmemb * size + 16 ≤ 2 ^ 32) : Honest ram heap taken (.scalloc nmemb size) := by
  rcases Nat.eq_zero_or_pos (nmemb * size) with hzero | hpos
  · refine honest_of_zero hheap ⟨0, ?_⟩
    change scalloc 0 ram heap nmemb size = _
    rw [scalloc, hzero, Nat.zero_mod, smalloc, smallocFrom_zero, ready_ready, ready_eq]
    rfl
  · rcases hheap.exists_scalloc hram hpos hsize with ⟨fuel, hresult, -⟩ |
      ⟨fuel, found, other, block, hresult, -, hfresh, howner, hholds, -⟩
    · exact honest_of_zero hheap ⟨fuel, hresult⟩
    · exact honest_of_block ⟨fuel, hresult⟩ hholds (.inr hfresh) (Function.update_self ..) howner
        fun ptr hptr _ ↦ Function.update_of_ne hptr ..

/-- Resizing nothing is allocating. -/
theorem honest_srealloc_zero (hhonest : Honest ram heap taken (.smalloc size)) :
    Honest ram heap taken (.srealloc 0 size) := by
  obtain ⟨fuel, result, other, after, hresult, hrest⟩ := hhonest
  exact ⟨fuel, result, other, after, (srealloc_zero ..).trans hresult, hrest⟩

theorem honest_srealloc (hram : ram.Pairwise Arena.Apart)
    (hheap : HeapHolds ram (heap.ready ram).mem taken) (hptr : ptr = 0 ∨ (taken ptr).isSome)
    (hsize : size + 16 ≤ 2 ^ 32) : Honest ram heap taken (.srealloc ptr size) := by
  rcases hptr with rfl | hlive
  · exact honest_srealloc_zero (honest_smalloc hram hheap hsize)
  · obtain ⟨block, hblock⟩ := Option.isSome_iff_exists.mp hlive
    obtain ⟨arena, -, hstart, -⟩ := hheap.bounds hblock
    have hne : ptr ≠ 0 := by omega
    rcases Nat.eq_zero_or_pos size with rfl | hpos
    · have hready := ready_eq ram heap
      obtain ⟨fuel, other, hfree, hholds, -⟩ := hheap.exists_sfree hram hblock
      rw [← hready] at hfree
      refine ⟨fuel, 0, ⟨other, true⟩, _, ?_, hholds, fun second old hsome hother ↦ ?_, .inl rfl⟩
      · change srealloc fuel ram heap ptr 0 = _
        rw [srealloc, if_neg hne, if_pos rfl, hfree]
        rfl
      · exact (Function.update_of_ne hother ..).trans hsome
    · by_cases hfits : size ≤ block.capacity
      · obtain ⟨fuel, other, kept, hresult, howner, hholds, -⟩ :=
          hheap.exists_srealloc_within hram hblock hpos hfits
        exact honest_of_block ⟨fuel, hresult⟩ hholds (.inl rfl) (Function.update_self ..) howner
          fun second hsecond _ ↦ Function.update_of_ne hsecond ..
      · rcases hheap.exists_srealloc_beyond hram hblock (Nat.lt_of_not_le hfits) hsize with
          ⟨fuel, hresult, -⟩ | ⟨fuel, found, other, new, hresult, -, hfresh, howner, hholds, -⟩
        · exact honest_of_zero hheap ⟨fuel, hresult⟩
        · exact honest_of_block ⟨fuel, hresult⟩ hholds (.inr hfresh) (Function.update_self ..)
            howner fun second hsecond hother ↦ (Function.update_of_ne hsecond ..).trans
              (Function.update_of_ne hother ..)

/-! ### Calls that are refused -/

/-- A payload is smaller than a request whose block cannot be rounded up. -/
theorem HeapHolds.capacity_lt (hheap : HeapHolds ram mem taken) {block : Block}
    (hptr : taken ptr = some block) : block.capacity + 16 < 2 ^ 32 := by
  obtain ⟨arena, -, hstart, hend⟩ := hheap.bounds hptr
  have hfinish := arena.finish_lt
  omega

/-- A call for more bytes than can be rounded up returns zero exactly if the bytes that are left
after the wrap are refused, and then nothing changes. -/
theorem HeapHolds.large_cases (hheap : HeapHolds ram (heap.ready ram).mem taken) {request : Request}
    (hproper : request.Proper taken) (hlarge : 2 ^ 32 < request.bytes + 16) :
    (Refuses ram (heap.ready ram).mem (request.bytes % 2 ^ 32) ∧
        ∃ fuel, request.run fuel ram heap = some (0, heap.ready ram)) ∨
      (¬ Refuses ram (heap.ready ram).mem (request.bytes % 2 ^ 32) ∧
        ∀ fuel result, request.run fuel ram heap = some result → result.1 ≠ 0) := by
  have hready : HeapHolds ram ((heap.ready ram).ready ram).mem taken := by
    rw [ready_ready]
    exact hheap
  cases request with
  | smalloc size =>
    rw [show (Request.smalloc size).bytes % 2 ^ 32 = size from Nat.mod_eq_of_lt hproper]
    exact hheap.smalloc_cases size
  | scalloc nmemb size =>
    have hcases := hready.smalloc_cases (nmemb * size % 2 ^ 32)
    rw [ready_ready] at hcases
    rcases hcases with ⟨hrefuses, fuel, hresult⟩ | ⟨hfits, hfinds⟩
    · refine .inl ⟨hrefuses, fuel, ?_⟩
      change scalloc fuel ram heap nmemb size = _
      rw [scalloc, hresult]
      rfl
    · refine .inr ⟨hfits, ?_⟩
      rintro fuel ⟨found, other⟩ hresult rfl
      obtain ⟨middle, hmalloc⟩ := (scalloc_zero_iff fuel nmemb size).mp ⟨other, hresult⟩
      exact hfinds fuel _ hmalloc rfl
  | srealloc ptr size =>
    obtain ⟨hsize, hptr⟩ := hproper
    change 2 ^ 32 < size + 16 at hlarge
    rw [show (Request.srealloc ptr size).bytes % 2 ^ 32 = size from Nat.mod_eq_of_lt hsize]
    rcases hptr with rfl | hlive
    · rcases hheap.smalloc_cases size with ⟨hrefuses, fuel, hresult⟩ | ⟨hfits, hfinds⟩
      · exact .inl ⟨hrefuses, fuel, (srealloc_zero ..).trans hresult⟩
      · exact .inr ⟨hfits, fun fuel result hresult ↦
          hfinds fuel result ((srealloc_zero ..).symm.trans hresult)⟩
    · obtain ⟨block, hblock⟩ := Option.isSome_iff_exists.mp hlive
      have hcapacity := hheap.capacity_lt hblock
      have hgoes := fun fuel ↦ hheap.srealloc_beyond_eq hblock (show block.capacity < size by omega)
        fuel
      have hcases := hready.smalloc_cases size
      rw [ready_ready] at hcases
      rcases hcases with ⟨hrefuses, fuel, hresult⟩ | ⟨hfits, hfinds⟩
      · refine .inl ⟨hrefuses, fuel, (hgoes fuel).trans ?_⟩
        rw [hresult]
        rfl
      · refine .inr ⟨hfits, fun fuel result hresult ↦ ?_⟩
        obtain ⟨found, hmalloc, hmoved⟩ :=
          Option.bind_eq_some_iff.mp ((hgoes fuel).symm.trans hresult)
        have hfound := hfinds fuel found hmalloc
        rw [if_neg hfound] at hmoved
        obtain ⟨other, -, rfl⟩ := Option.map_eq_some_iff.mp hmoved
        exact hfound

/-- No block is as large as such a request. -/
theorem not_honest_of_large {request : Request} (hlarge : 2 ^ 32 < request.bytes + 16)
    (hfinds : ∀ fuel result, request.run fuel ram heap = some result → result.1 ≠ 0) :
    ¬ Honest ram heap taken request := by
  rintro ⟨fuel, result, other, after, hresult, hholds, -, hzero | ⟨-, block, hblock, hbytes⟩⟩
  · exact hfinds fuel _ hresult hzero
  · have hcapacity := hholds.capacity_lt hblock
    omega

/-! ### All calls -/

/-- For every heap in order and every call with 32-bit arguments: the call is honest exactly if the
request with its header can be rounded up in 32 bits, or what is left of it is refused. -/
theorem honest_iff (ram : List Arena) (hram : ram.Pairwise Arena.Apart) (heap : Heap)
    (taken : ℕ → Option Block) (hheap : HeapHolds ram (heap.ready ram).mem taken)
    (request : Request) (hproper : request.Proper taken) :
    Honest ram heap taken request ↔
      request.bytes + 16 ≤ 2 ^ 32 ∨ Refuses ram (heap.ready ram).mem (request.bytes % 2 ^ 32) := by
  by_cases hfits : request.bytes + 16 ≤ 2 ^ 32
  · refine iff_of_true ?_ (.inl hfits)
    cases request with
    | smalloc size => exact honest_smalloc hram hheap hfits
    | scalloc nmemb size => exact honest_scalloc hram hheap hfits
    | srealloc ptr size => exact honest_srealloc hram hheap hproper.2 hfits
  · rw [or_iff_right hfits]
    have hlarge := Nat.lt_of_not_le hfits
    rcases hheap.large_cases hproper hlarge with ⟨hrefuses, hresult⟩ | ⟨hgrants, hfinds⟩
    · exact iff_of_true (honest_of_zero hheap hresult) hrefuses
    · exact iff_of_false (not_honest_of_large hlarge hfinds) hgrants

/-- An arena with room for one block of 32 bytes. -/
def smallArena : Arena := ⟨8, 56, by decide, guard.size_mod, rfl, by decide, by decide⟩

/-- The heap before the first call. -/
def unusedHeap : Heap := ⟨fun _ ↦ 0, false⟩

theorem honest_iff_small :
    Honest [smallArena] unusedHeap (fun _ ↦ none) (.scalloc 2 3) ↔
      (Request.scalloc 2 3).bytes + 16 ≤ 2 ^ 32 ∨
        Refuses [smallArena] (unusedHeap.ready [smallArena]).mem
          ((Request.scalloc 2 3).bytes % 2 ^ 32) :=
  honest_iff [smallArena] (List.pairwise_singleton _ _) unusedHeap _
    (heapHolds_sInit (List.pairwise_singleton _ _)
      (List.forall_mem_singleton.mpr (by decide)) unusedHeap) _ ⟨by decide, by decide⟩

/-- The first call asks for one byte less than `2 ^ 32`, and is given a block without any. -/
theorem not_honest_almost_all :
    ∃ other, smalloc 8 [smallArena] unusedHeap 0xFFFFFFFF = some (24, other) ∧
      sGetActualBlockSize other.mem 24 = 0 ∧
      HeapHolds [smallArena] (unusedHeap.ready [smallArena]).mem (fun _ ↦ none) ∧
      ¬ Honest [smallArena] unusedHeap (fun _ ↦ none) (.smalloc 0xFFFFFFFF) := by
  have hholds : HeapHolds [smallArena] (unusedHeap.ready [smallArena]).mem (fun _ ↦ none) :=
    heapHolds_sInit (List.pairwise_singleton _ _) (List.forall_mem_singleton.mpr (by decide))
      unusedHeap
  refine ⟨_, rfl, by decide, hholds, not_honest_of_large (by decide) ?_⟩
  rcases hholds.smalloc_cases 0xFFFFFFFF with ⟨hrefuses, -⟩ | ⟨-, hfinds⟩
  · have hwhole : ArenaHolds (unusedHeap.ready [smallArena]).mem smallArena
        [wholeBlock smallArena (by decide)] := arenaHolds_initArena _ smallArena (by decide)
    have hsmall := hrefuses.resolve_left (by decide) smallArena (List.mem_singleton.mpr rfl) _
      hwhole _ (List.mem_singleton.mpr rfl) rfl
    exact absurd hsmall (by decide)
  · exact hfinds

end Elua.Salloc
