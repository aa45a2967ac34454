import Elua.Salloc.HeapOperations

/-!
# The calls of the allocator

What `smalloc`, `sfree`, `scalloc` and `srealloc` do to the blocks of a heap. Every call either
changes no block, or it changes `taken` at the payloads it was given or returns.
-/

set_option autoImplicit false
set_option relaxedAutoImplicit false

namespace Elua.Salloc

open Foundation

variable {ram : List Arena} {heap : Heap} {mem middle other : Memory} {taken : ℕ → Option Block}
  {ptr size : ℕ} {block : Block}

/-- A heap that is ready has been set up. -/
theorem ready_eq (ram : List Arena) (heap : Heap) :
    heap.ready ram = ⟨(heap.ready ram).mem, true⟩ := by
  unfold Heap.ready
  split_ifs with hinitialized
  · exact congrArg (Heap.mk heap.mem) hinitialized
  · rfl

/-- A heap is made ready once. -/
theorem ready_ready (ram : List Arena) (heap : Heap) :
    (heap.ready ram).ready ram = heap.ready ram := by
  rw [ready_eq ram heap]
  rfl

/-- Two steps that are given the same payload. -/
theorem Preserves.trans {come : Option Block} (hfirst : Preserves taken ptr mem middle)
    (hsecond : Preserves (Function.update taken ptr come) ptr middle other) :
    Preserves taken ptr mem other :=
  fun second block hsome hne ↦ (hfirst second block hsome hne).trans
    (hsecond second block ((Function.update_of_ne hne _ _).trans hsome) hne)

/-- A request fits into the payload of its block. -/
theorem Block.request_le (howner : block.owner = some size) : size ≤ block.capacity :=
  Nat.le_sub_of_add_le (block.owner_le size howner)

/-! ### Allocating -/

/-- Allocating a block. -/
theorem HeapHolds.exists_smalloc (hram : ram.Pairwise Arena.Apart)
    (hheap : HeapHolds ram (heap.ready ram).mem taken) (hpos : 0 < size) (hlt : size + 16 ≤ 2 ^ 32) :
    (∃ fuel, smalloc fuel ram heap size = some (0, heap.ready ram) ∧
        NoneLargeEnough ram (heap.ready ram).mem size) ∨
      ∃ fuel found other block, smalloc fuel ram heap size = some (found, ⟨other, true⟩) ∧
        found ≠ 0 ∧ taken found = none ∧ block.owner = some size ∧
        HeapHolds ram other (Function.update taken found (some block)) ∧
        Preserves taken found (heap.ready ram).mem other := by
  obtain ⟨fuel, hresult, hsmall⟩ | ⟨fuel, found, other, block, hresult, hfound⟩ :=
    @HeapHolds.exists_smallocFrom ram _ taken hram hheap size hpos hlt ram fun _ harena ↦ harena
  · refine .inl ⟨fuel, ?_, hsmall⟩
    rw [smalloc, hresult, ready_eq]
    rfl
  · exact .inr ⟨fuel, found, other, block, by rw [smalloc, hresult]; rfl, hfound⟩

/-- Allocating a block for an array. -/
theorem HeapHolds.exists_scalloc (hram : ram.Pairwise Arena.Apart)
    (hheap : HeapHolds ram (heap.ready ram).mem taken) {nmemb : ℕ} (hpos : 0 < nmemb * size)
    (hlt : nmemb * size + 16 ≤ 2 ^ 32) :
    (∃ fuel, scalloc fuel ram heap nmemb size = some (0, heap.ready ram) ∧
        NoneLargeEnough ram (heap.ready ram).mem (nmemb * size)) ∨
      ∃ fuel found other block, scalloc fuel ram heap nmemb size = some (found, ⟨other, true⟩) ∧
        found ≠ 0 ∧ taken found = none ∧ block.owner = some (nmemb * size) ∧
        HeapHolds ram other (Function.update taken found (some block)) ∧
        Preserves taken found (heap.ready ram).mem other ∧
        ∀ index < nmemb * size, other (found + index) = 0 := by
  have htotal : nmemb * size % 2 ^ 32 = nmemb * size := Nat.mod_eq_of_lt (by omega)
  rw [← ready_ready] at hheap
  have hready := ready_ready ram heap
  obtain ⟨fuel, hresult, hsmall⟩ |
    ⟨fuel, found, middle, block, hresult, hfound, hfresh, howner, hholds, hpreserves⟩ :=
      hheap.exists_smalloc hram hpos hlt
  · rw [hready] at hresult hsmall
    refine .inl ⟨fuel, ?_, hsmall⟩
    simp only [scalloc, htotal, hresult]
    rfl
  · rw [hready] at hpreserves
    have hrequest := block.request_le howner
    have houtside : ∀ addr, addr < found ∨ found + block.capacity ≤ addr →
        memset middle found 0 (nmemb * size) addr = middle addr :=
      fun addr houtside ↦ if_neg (by omega)
    obtain ⟨hwritten, hkept⟩ := hholds.write hram (Function.update_self ..) houtside
    refine .inr ⟨fuel, found, _, block, ?_, hfound, hfresh, howner, hwritten,
      hpreserves.trans hkept, fun index hindex ↦ if_pos (by omega)⟩
    simp only [scalloc, htotal, hresult]
    exact congrArg some (if_pos hfound)

/-! ### Freeing -/

/-- Freeing a block. -/
theorem HeapHolds.exists_sfree (hram : ram.Pairwise Arena.Apart) (hheap : HeapHolds ram mem taken)
    (hptr : taken ptr = some block) :
    ∃ fuel other, sfree fuel ⟨mem, true⟩ ptr = some ⟨other, true⟩ ∧
      HeapHolds ram other (Function.update taken ptr none) ∧ Preserves taken ptr mem other := by
  obtain ⟨arena, -, hstart, -⟩ := hheap.bounds hptr
  obtain ⟨fuel, other, hresult, hholds⟩ := hheap.exists_sFreeBlock hram hptr
  refine ⟨fuel, other, ?_, hholds⟩
  have hgoes : ¬ (ptr = 0 ∨ (⟨mem, true⟩ : Heap).initialized = false) := by
    rintro (hzero | hfalse)
    · omega
    · cases hfalse
  rw [sfree, if_neg hgoes, hresult]
  rfl

/-! ### Resizing -/

/-- Resizing a block where it is. -/
theorem HeapHolds.exists_srealloc_within (hram : ram.Pairwise Arena.Apart)
    (hheap : HeapHolds ram (heap.ready ram).mem taken) (hptr : taken ptr = some block)
    (hpos : 0 < size) (hsize : size ≤ block.capacity) :
    ∃ fuel other kept, srealloc fuel ram heap ptr size = some (ptr, ⟨other, true⟩) ∧
      kept.owner = some size ∧ HeapHolds ram other (Function.update taken ptr (some kept)) ∧
      Preserves taken ptr (heap.ready ram).mem other ∧
      AgreeOn (heap.ready ram).mem other ptr (ptr + size) := by
  obtain ⟨arena, -, hstart, -⟩ := hheap.bounds hptr
  have hactual := hheap.actualBlockSize hptr
  have hready := ready_eq ram heap
  generalize (heap.ready ram).mem = mem at *
  by_cases hsame : block.capacity = size
  · obtain ⟨kept, howner, hholds⟩ := hheap.exists_retag hram hptr hsize
    refine ⟨0, mem, kept, ?_, howner, hholds, fun _ _ _ _ ↦ .refl _ _ _, .refl _ _ _⟩
    rw [srealloc]
    simp only [hready, hactual, hsame, if_neg (show ptr ≠ 0 by omega), if_neg (Nat.ne_of_gt hpos),
      if_true]
  · obtain ⟨fuel, other, kept, hresult, howner, hholds, hpreserves, hagree⟩ :=
      hheap.exists_sShrinkBlock hram hptr hsize
    have hrequest := kept.request_le howner
    refine ⟨fuel, other, kept, ?_, howner, hholds, hpreserves, hagree.mono (Nat.le_refl _) (by omega)⟩
    rw [srealloc]
    simp only [hready, hactual, hresult, if_neg (show ptr ≠ 0 by omega), if_neg (Nat.ne_of_gt hpos),
      if_neg hsame, if_pos (Nat.lt_of_le_of_ne hsize (Ne.symm hsame)), Option.map_some]

/-- A block that is too small is moved. -/
theorem HeapHolds.srealloc_beyond_eq (hheap : HeapHolds ram (heap.ready ram).mem taken)
    (hptr : taken ptr = some block) (hsize : block.capacity < size) (fuel : ℕ) :
    srealloc fuel ram heap ptr size =
      (smalloc fuel ram (heap.ready ram) size).bind fun result ↦
        if result.1 = 0 then some (0, result.2)
        else
          let mem := memmove result.2.mem result.1 ptr (sGetActualBlockSize result.2.mem ptr)
          (sfree fuel { result.2 with mem := mem } ptr).map fun heap ↦ (result.1, heap) := by
  obtain ⟨arena, -, hstart, -⟩ := hheap.bounds hptr
  have hactual := hheap.actualBlockSize hptr
  rw [srealloc]
  simp only [hactual, if_neg (show ptr ≠ 0 by omega), if_neg (show size ≠ 0 by omega),
    if_neg (Nat.ne_of_lt hsize), if_neg (Nat.not_lt_of_lt hsize)]

/-- Resizing a block beyond its payload. -/
theorem HeapHolds.exists_srealloc_beyond (hram : ram.Pairwise Arena.Apart)
    (hheap : HeapHolds ram (heap.ready ram).mem taken) (hptr : taken ptr = some block)
    (hsize : block.capacity < size) (hlt : size + 16 ≤ 2 ^ 32) :
    (∃ fuel, srealloc fuel ram heap ptr size = some (0, heap.ready ram) ∧
        NoneLargeEnough ram (heap.ready ram).mem size) ∨
      ∃ fuel found other new, srealloc fuel ram heap ptr size = some (found, ⟨other, true⟩) ∧
        found ≠ 0 ∧ taken found = none ∧ new.owner = some size ∧
        HeapHolds ram other (Function.update (Function.update taken ptr none) found (some new)) ∧
        Preserves taken ptr (heap.ready ram).mem other ∧
        ∀ index < block.capacity, other (found + index) = (heap.ready ram).mem (ptr + index) := by
  have hgoes := fun fuel ↦ hheap.srealloc_beyond_eq hptr hsize fuel
  rw [← ready_ready] at hheap
  obtain ⟨fuel, hresult, hsmall⟩ |
    ⟨fuel, found, middle, new, hresult, hfound, hfresh, howner, hholds, hpreserves⟩ :=
      hheap.exists_smalloc hram (by omega) hlt
  · rw [ready_ready] at hresult hsmall
    refine .inl ⟨fuel, ?_, hsmall⟩
    rw [hgoes, hresult]
    rfl
  · rw [ready_ready] at hpreserves
    have hne : ptr ≠ found := fun hsame ↦ by
      rw [hsame, hfresh] at hptr
      cases hptr
    have hrequest := new.request_le howner
    have hstill : Function.update taken found (some new) ptr = some block :=
      (Function.update_of_ne hne _ _).trans hptr
    have hmiddle := hholds.actualBlockSize hstill
    have houtside : ∀ addr, addr < found ∨ found + new.capacity ≤ addr →
        memmove middle found ptr block.capacity addr = middle addr :=
      fun addr houtside ↦ if_neg (by omega)
    obtain ⟨hcopied, hkept⟩ := hholds.write hram (Function.update_self ..) houtside
    obtain ⟨more, other, hfreed, hdone, hrest⟩ := hcopied.exists_sfree hram hstill
    have hcopyPreserves := hpreserves.trans hkept
    refine .inr ⟨max fuel more, found, other, new, ?_, hfound, hfresh, howner,
      Function.update_comm hne _ _ _ ▸ hdone, ?_, fun index hindex ↦ ?_⟩
    · have hmore := fuelMono_smalloc ram (heap.ready ram) size (Nat.le_max_left fuel more) hresult
      have hfree := fuelMono_sfree _ _ (Nat.le_max_right fuel more) hfreed
      simp only at hmore hfree
      rw [hgoes, hmore, Option.bind_some, if_neg hfound]
      simp only [hmiddle, hfree, Option.map_some]
    · intro second secondBlock hsecond hother
      have hnotFound : second ≠ found := fun hsame ↦ by
        rw [hsame, hfresh] at hsecond
        cases hsecond
      exact (hcopyPreserves second secondBlock hsecond hnotFound).trans
        (hrest second secondBlock ((Function.update_of_ne hnotFound _ _).trans hsecond) hother)
    · have hfinal := hrest found new (Function.update_self ..) hne.symm (found + index)
        (Nat.le_add_right _ _) (by omega)
      have hcopy : memmove middle found ptr block.capacity (found + index) = middle (ptr + index) := by
        rw [memmove, if_pos (by omega), Nat.add_sub_cancel_left]
      exact hfinal.trans (hcopy.trans
        (hpreserves ptr block hptr hne (ptr + index) (Nat.le_add_right _ _) (by omega)))

end Elua.Salloc
