import Elua.Foundation.Overwrite
import Mathlib.Algebra.BigOperators.Group.List.Basic
import Mathlib.Algebra.GroupWithZero.Nat
import Mathlib.Algebra.Order.BigOperators.Group.List
import Mathlib.Algebra.Order.Group.Nat
import Mathlib.Order.Monotone.Basic

/-!
# Stores that are divided into blocks

A store is divided into blocks of given sizes, one behind the other. `blockStart sizes block` is
where a block begins, and `InBlock sizes offset block` says that an offset lies in it. `fillBlock`
sets every cell of a block to the same value. Filling blocks in their order fills the cells from
the start of the first to the end of the last (`getElem?_fillBlocks`). -/

set_option autoImplicit false
set_option relaxedAutoImplicit false

namespace Elua.Foundation

/-- Where a block begins. Behind the last block that is the end of the store. -/
def blockStart (sizes : List ℕ) (block : ℕ) : ℕ := (sizes.take block).sum

/-- An offset lies in a block. -/
structure InBlock (sizes : List ℕ) (offset block : ℕ) : Prop where
  block_lt : block < sizes.length
  start_le : blockStart sizes block ≤ offset
  lt_start_succ : offset < blockStart sizes (block + 1)

/-! ### Where blocks begin -/

section Starts

variable {sizes : List ℕ} {offset block : ℕ}

@[simp] theorem blockStart_zero (sizes : List ℕ) : blockStart sizes 0 = 0 := rfl

@[simp] theorem blockStart_cons_succ (size : ℕ) (sizes : List ℕ) (block : ℕ) :
    blockStart (size :: sizes) (block + 1) = size + blockStart sizes block := by
  unfold blockStart
  rw [List.take_succ_cons, List.sum_cons]

/-- A block ends its size behind its start. -/
theorem blockStart_succ (sizes : List ℕ) (block : ℕ) :
    blockStart sizes (block + 1) = blockStart sizes block + sizes.getD block 0 := by
  induction sizes generalizing block with
  | nil => simp [blockStart]
  | cons size sizes ih =>
    cases block with
    | zero => rw [blockStart_cons_succ, blockStart_zero, blockStart_zero, List.getD_cons_zero,
        Nat.zero_add, Nat.add_zero]
    | succ block => rw [blockStart_cons_succ, blockStart_cons_succ, ih, List.getD_cons_succ,
        Nat.add_assoc]

/-- A later block begins later. -/
theorem blockStart_mono (sizes : List ℕ) : Monotone (blockStart sizes) :=
  fun _ _ hle ↦ (List.take_sublist_take_left hle).sum_le_sum fun _ _ ↦ Nat.zero_le _

/-- No block begins behind the end. -/
theorem blockStart_le_sum (sizes : List ℕ) (block : ℕ) : blockStart sizes block ≤ sizes.sum :=
  (List.take_sublist block sizes).sum_le_sum fun _ _ ↦ Nat.zero_le _

/-- Blocks of one size. -/
theorem blockStart_replicate {count : ℕ} (size : ℕ) (hle : block ≤ count) :
    blockStart (List.replicate count size) block = block * size := by
  unfold blockStart
  rw [List.take_replicate, Nat.min_eq_left hle, List.sum_replicate, Nat.nsmul_eq_mul]

/-- With blocks of one size the block of an offset is a quotient. -/
theorem inBlock_replicate {size count : ℕ} (hoffset : offset < count * size) :
    InBlock (List.replicate count size) offset (offset / size) := by
  have hsize : 0 < size := Nat.pos_of_ne_zero fun hzero ↦ by simp [hzero] at hoffset
  have hblock : offset / size < count := Nat.div_lt_of_lt_mul (by rwa [Nat.mul_comm])
  refine ⟨by rwa [List.length_replicate], ?_, ?_⟩
  · rw [blockStart_replicate size hblock.le]
    exact Nat.div_mul_le_self offset size
  · rw [blockStart_replicate size hblock]
    exact Nat.lt_mul_of_div_lt (Nat.lt_succ_self _) hsize

theorem inBlock_head {size : ℕ} (hoffset : offset < size) : InBlock (size :: sizes) offset 0 := by
  refine ⟨Nat.succ_pos _, Nat.zero_le offset, ?_⟩
  rw [blockStart_cons_succ, blockStart_zero]
  exact hoffset

theorem InBlock.cons (hblock : InBlock sizes offset block) (size : ℕ) :
    InBlock (size :: sizes) (size + offset) (block + 1) := by
  refine ⟨Nat.succ_lt_succ hblock.block_lt, ?_, ?_⟩
  · rw [blockStart_cons_succ]
    exact Nat.add_le_add_left hblock.start_le size
  · rw [blockStart_cons_succ]
    exact Nat.add_lt_add_left hblock.lt_start_succ size

end Starts

/-! ### Filling blocks -/

section Fill

variable {Cell : Type*} {sizes : List ℕ}

/-- Sets every cell of a block. -/
def fillBlock (sizes : List ℕ) (cell : Cell) (store : List Cell) (block : ℕ) : List Cell :=
  overwrite store (blockStart sizes block)
    (List.replicate (blockStart sizes (block + 1) - blockStart sizes block) cell)

@[simp] theorem length_fillBlock (sizes : List ℕ) (cell : Cell) (store : List Cell) (block : ℕ) :
    (fillBlock sizes cell store block).length = store.length :=
  length_overwrite ..

theorem getElem?_fillBlock (sizes : List ℕ) (cell : Cell) (store : List Cell) (block index : ℕ) :
    (fillBlock sizes cell store block)[index]? =
      if blockStart sizes block ≤ index ∧ index < blockStart sizes (block + 1) ∧
        index < store.length then some cell else store[index]? := by
  have hmono := blockStart_mono sizes block.le_succ
  unfold fillBlock
  rw [getElem?_overwrite, List.length_replicate, Nat.add_sub_cancel' hmono]
  split_ifs with hinside
  · rw [List.getElem?_replicate_of_lt (Nat.sub_lt_sub_right hinside.1 hinside.2.1)]
  · rfl

/-- Blocks that are filled in their order. -/
theorem getElem?_fillBlocks (cell : Cell) (store : List Cell) (first count index : ℕ) :
    ((List.range' first count).foldl (fillBlock sizes cell) store)[index]? =
      if blockStart sizes first ≤ index ∧ index < blockStart sizes (first + count) ∧
        index < store.length then some cell else store[index]? := by
  induction count generalizing first store with
  | zero => exact (if_neg fun hinside ↦ absurd hinside.2.1 hinside.1.not_gt).symm
  | succ count ih =>
    have hfirst := blockStart_mono sizes (Nat.le_add_right first 1)
    have hrest := blockStart_mono sizes (Nat.le_add_right (first + 1) count)
    rw [List.range'_succ, List.foldl_cons, ih, length_fillBlock, getElem?_fillBlock,
      Nat.add_assoc first 1 count, Nat.add_comm 1 count]
    rw [Nat.add_assoc first 1 count, Nat.add_comm 1 count] at hrest
    split_ifs <;> first | rfl | omega

end Fill

end Elua.Foundation
