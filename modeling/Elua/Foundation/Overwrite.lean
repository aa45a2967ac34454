import Mathlib.Data.List.Basic

/-!
# Stores of cells and writing a run of cells into them

A store is the list of its cells. `overwrite store offset cells` writes a run of cells at an
offset and drops what falls past the end, so it never changes the length. `segment` reads a run of
cells. The lemmas say what a segment holds after a write that covers it exactly, and that a write
elsewhere leaves it alone.
-/

set_option autoImplicit false
set_option relaxedAutoImplicit false

namespace Elua.Foundation

variable {Cell : Type*}

/-- Writes the run `cells` into a store at an offset. Cells past the end are dropped. -/
def overwrite : List Cell → ℕ → List Cell → List Cell
  | [], _, _ => []
  | old :: store, 0, [] => old :: store
  | _ :: store, 0, cell :: cells => cell :: overwrite store 0 cells
  | old :: store, offset + 1, cells => old :: overwrite store offset cells

/-- The run of `length` cells of a store that starts at an offset. -/
def segment (store : List Cell) (offset length : ℕ) : List Cell :=
  (store.drop offset).take length

@[simp] theorem length_overwrite (store : List Cell) (offset : ℕ) (cells : List Cell) :
    (overwrite store offset cells).length = store.length := by
  fun_induction overwrite store offset cells <;> simp_all

/-- What a cell holds after a write: the written cell inside the run, the old one elsewhere. -/
theorem getElem?_overwrite (store : List Cell) (offset : ℕ) (cells : List Cell) (index : ℕ) :
    (overwrite store offset cells)[index]? =
      if offset ≤ index ∧ index < offset + cells.length ∧ index < store.length then
        cells[index - offset]?
      else store[index]? := by
  fun_induction overwrite store offset cells generalizing index with
  | case1 => simp
  | case2 => simp
  | case3 old store cell cells ih =>
    cases index with
    | zero => simp
    | succ index =>
      simp only [List.getElem?_cons_succ, ih, List.length_cons]
      simp
  | case4 old store offset cells ih =>
    cases index with
    | zero => simp
    | succ index =>
      simp only [List.getElem?_cons_succ, ih, List.length_cons, Nat.succ_eq_add_one,
        Nat.add_le_add_iff_right, Nat.add_lt_add_iff_right, Nat.add_sub_add_right]
      congr 1
      simp only [eq_iff_iff]
      omega

/-- Writing nothing changes nothing. -/
@[simp] theorem overwrite_nil (store : List Cell) (offset : ℕ) :
    overwrite store offset [] = store := by
  refine List.ext_getElem? fun index ↦ ?_
  rw [getElem?_overwrite, if_neg (by simp only [List.length_nil]; omega)]

/-- A write behind a prefix leaves the prefix alone. -/
theorem overwrite_append_left (before rest : List Cell) (offset : ℕ) (cells : List Cell) :
    overwrite (before ++ rest) (before.length + offset) cells =
      before ++ overwrite rest offset cells := by
  induction before with
  | nil => simp
  | cons cell before ih =>
    rw [List.length_cons, Nat.add_right_comm, List.cons_append, List.cons_append]
    exact congrArg (cell :: ·) ih

/-- A write of exactly the cells in front replaces them. -/
theorem overwrite_zero_append {old cells : List Cell} (hlength : old.length = cells.length)
    (rest : List Cell) : overwrite (old ++ rest) 0 cells = cells ++ rest := by
  induction old generalizing cells with
  | nil =>
    obtain rfl : cells = [] := List.length_eq_zero_iff.mp hlength.symm
    simp
  | cons cell old ih =>
    cases cells with
    | nil => simp at hlength
    | cons new cells =>
      simp only [List.length_cons, Nat.add_right_cancel_iff] at hlength
      simp only [List.cons_append, overwrite, ih hlength]

/-- A write that covers the middle part of a store exactly replaces that part. -/
theorem overwrite_middle {before old cells rest : List Cell} {offset : ℕ}
    (hoffset : offset = before.length) (hlength : old.length = cells.length) :
    overwrite (before ++ (old ++ rest)) offset cells = before ++ (cells ++ rest) := by
  rw [hoffset, ← Nat.add_zero before.length, overwrite_append_left,
    overwrite_zero_append hlength]

/-- The middle part of a store. -/
theorem segment_middle {before old rest : List Cell} {offset length : ℕ}
    (hoffset : offset = before.length) (hlength : old.length = length) :
    segment (before ++ (old ++ rest)) offset length = old := by
  rw [segment, hoffset, List.drop_left, ← hlength, List.take_left]

/-- A cell outside the written run keeps its content. -/
theorem getElem?_overwrite_of_outside (store : List Cell) {offset index : ℕ} {cells : List Cell}
    (houtside : index < offset ∨ offset + cells.length ≤ index) :
    (overwrite store offset cells)[index]? = store[index]? := by
  rw [getElem?_overwrite, if_neg (by omega)]

theorem getElem?_segment (store : List Cell) (offset length index : ℕ) :
    (segment store offset length)[index]? =
      if index < length then store[offset + index]? else none := by
  rw [segment, List.getElem?_take]
  simp only [List.getElem?_drop]

theorem length_segment (store : List Cell) (offset length : ℕ) :
    (segment store offset length).length = min length (store.length - offset) := by
  rw [segment, List.length_take, List.length_drop]

/-- A segment inside the store has its full length. -/
theorem length_segment_of_le {store : List Cell} {offset length : ℕ}
    (hinside : offset + length ≤ store.length) : (segment store offset length).length = length := by
  rw [length_segment]
  omega

/-- A run is written cell by cell. -/
theorem overwrite_set (store : List Cell) (offset : ℕ) (cell : Cell) (cells : List Cell) :
    overwrite (store.set offset cell) (offset + 1) cells = overwrite store offset (cell :: cells) := by
  induction store generalizing offset with
  | nil => rfl
  | cons old store ih =>
    cases offset with
    | zero => rfl
    | succ offset => exact congrArg (old :: ·) (ih offset)

/-- The written run reads back. -/
theorem segment_overwrite_self {store : List Cell} {offset : ℕ} {cells : List Cell}
    (hinside : offset + cells.length ≤ store.length) :
    segment (overwrite store offset cells) offset cells.length = cells := by
  refine List.ext_getElem? fun index ↦ ?_
  rw [getElem?_segment]
  split_ifs with hindex
  · rw [getElem?_overwrite, if_pos (by omega), Nat.add_sub_cancel_left]
  · exact (List.getElem?_eq_none (Nat.le_of_not_lt hindex)).symm

/-- A segment disjoint from the written run is unchanged. -/
theorem segment_overwrite_of_disjoint (store : List Cell) {offset at' length : ℕ}
    {cells : List Cell} (hdisjoint : at' + length ≤ offset ∨ offset + cells.length ≤ at') :
    segment (overwrite store offset cells) at' length = segment store at' length := by
  refine List.ext_getElem? fun index ↦ ?_
  rw [getElem?_segment, getElem?_segment]
  split_ifs with hindex
  · exact getElem?_overwrite_of_outside store (by omega)
  · rfl

end Elua.Foundation
