import Mathlib.Data.List.Pairwise
import Mathlib.Tactic.Common

/-!
# Tiles laid out one behind the other

A list of tiles, each of which has a size, covers an interval of addresses from a start without
gaps. `placed size start tiles` gives every tile its address. Tiles keep inside the interval, two
tiles do not overlap, and an address belongs to one split of the list. -/

set_option autoImplicit false
set_option relaxedAutoImplicit false

namespace Elua.Foundation

variable {Tile : Type*} (size : Tile → ℕ)

/-- The length of the interval that tiles cover. -/
def extent : List Tile → ℕ
  | [] => 0
  | tile :: tiles => size tile + extent tiles

/-- The tiles with their addresses. -/
def placed : ℕ → List Tile → List (ℕ × Tile)
  | _, [] => []
  | start, tile :: tiles => (start, tile) :: placed (start + size tile) tiles

@[simp] theorem extent_nil : extent size [] = 0 := rfl

@[simp] theorem extent_cons (tile : Tile) (tiles : List Tile) :
    extent size (tile :: tiles) = size tile + extent size tiles :=
  rfl

@[simp] theorem extent_append (firsts seconds : List Tile) :
    extent size (firsts ++ seconds) = extent size firsts + extent size seconds := by
  induction firsts with
  | nil => exact (Nat.zero_add _).symm
  | cons tile firsts ih => rw [List.cons_append, extent_cons, extent_cons, ih, Nat.add_assoc]

theorem placed_append (start : ℕ) (firsts seconds : List Tile) :
    placed size start (firsts ++ seconds) =
      placed size start firsts ++ placed size (start + extent size firsts) seconds := by
  induction firsts generalizing start with
  | nil => rfl
  | cons tile firsts ih =>
    rw [List.cons_append, placed, placed, ih, extent_cons, Nat.add_assoc, List.cons_append]

variable {size}

/-- A tile lies inside the interval. -/
theorem bounds_of_mem_placed {start : ℕ} {tiles : List Tile} {tile : ℕ × Tile}
    (hmem : tile ∈ placed size start tiles) :
    start ≤ tile.1 ∧ tile.1 + size tile.2 ≤ start + extent size tiles := by
  induction tiles generalizing start with
  | nil => cases hmem
  | cons first tiles ih =>
    rw [extent_cons]
    obtain rfl | hmem := List.mem_cons.mp hmem
    · exact ⟨Nat.le_refl _, by simp only; omega⟩
    · have hrest := ih hmem
      omega

/-- A tile has its place in the list. -/
theorem exists_split_of_mem_placed {start : ℕ} {tiles : List Tile} {tile : ℕ × Tile}
    (hmem : tile ∈ placed size start tiles) :
    ∃ before after, tiles = before ++ tile.2 :: after ∧ tile.1 = start + extent size before := by
  induction tiles generalizing start with
  | nil => cases hmem
  | cons first tiles ih =>
    obtain rfl | hmem := List.mem_cons.mp hmem
    · exact ⟨[], tiles, rfl, rfl⟩
    · obtain ⟨before, after, rfl, haddr⟩ := ih hmem
      exact ⟨first :: before, after, rfl, by rw [haddr, extent_cons, Nat.add_assoc]⟩

/-- Tiles follow each other. -/
theorem pairwise_placed (start : ℕ) (tiles : List Tile) :
    (placed size start tiles).Pairwise fun first second ↦ first.1 + size first.2 ≤ second.1 := by
  induction tiles generalizing start with
  | nil => exact .nil
  | cons tile tiles ih =>
    exact List.pairwise_cons.mpr ⟨fun second hsecond ↦ (bounds_of_mem_placed hsecond).1, ih _⟩

/-- Two tiles are the same or do not overlap. -/
theorem eq_or_apart_of_mem_placed {start : ℕ} {tiles : List Tile} {first second : ℕ × Tile}
    (hfirst : first ∈ placed size start tiles) (hsecond : second ∈ placed size start tiles) :
    first = second ∨ first.1 + size first.2 ≤ second.1 ∨ second.1 + size second.2 ≤ first.1 := by
  have hpairwise := @pairwise_placed _ size start tiles
  refine List.Pairwise.forall_of_forall_of_flip (R := fun first second ↦ first = second ∨
    first.1 + size first.2 ≤ second.1 ∨ second.1 + size second.2 ≤ first.1) (fun _ _ ↦ .inl rfl)
    ?_ ?_ hfirst hsecond
  · exact hpairwise.imp fun hbefore ↦ .inr (.inl hbefore)
  · exact hpairwise.imp fun hbefore ↦ .inr (.inr hbefore)

end Elua.Foundation
