import Mathlib.Data.List.Basic
import Mathlib.Data.List.TakeWhile
import Mathlib.Tactic.Common

/-!
# Masks with wildcards

A mask is a list of glyphs: an item that stands for itself, `one`, which stands for any one item,
and `run`, which stands for any items. `Matches` is what a mask means. `MatchesShortest` is what a
matcher without backtracking finds: a run ends at the first item that is the one behind it.
`MatchesShortest.matches` says that such a matcher finds no other matches.

`ignoreOnes` leaves out the glyphs `one` that come directly behind a run.
-/

set_option autoImplicit false
set_option relaxedAutoImplicit false

namespace Elua.Foundation

variable {Item : Type*}

/-- A glyph of a mask. -/
inductive Glyph (Item : Type*)
  | one
  | run
  | item (item : Item)

/-- The list can be matched by the mask. -/
inductive Matches : List (Glyph Item) → List Item → Prop
  | nil : Matches [] []
  | one {mask : List (Glyph Item)} {list : List Item} (item : Item) (hrest : Matches mask list) :
      Matches (.one :: mask) (item :: list)
  | run {mask : List (Glyph Item)} {list : List Item} (skipped : List Item)
      (hrest : Matches mask list) : Matches (.run :: mask) (skipped ++ list)
  | item {mask : List (Glyph Item)} {list : List Item} (item : Item) (hrest : Matches mask list) :
      Matches (.item item :: mask) (item :: list)

/-- The list is matched by the mask if every run ends at the first item that is the one behind the
run. A run at the end stands for all that is left. -/
inductive MatchesShortest : List (Glyph Item) → List Item → Prop
  | nil : MatchesShortest [] []
  | one {mask : List (Glyph Item)} {list : List Item} (item : Item)
      (hrest : MatchesShortest mask list) : MatchesShortest (.one :: mask) (item :: list)
  | last (list : List Item) : MatchesShortest [.run] list
  | run {mask : List (Glyph Item)} {list skipped : List Item} {item : Item}
      (hskipped : item ∉ skipped) (hrest : MatchesShortest mask list) :
      MatchesShortest (.run :: .item item :: mask) (skipped ++ item :: list)
  | item {mask : List (Glyph Item)} {list : List Item} (item : Item)
      (hrest : MatchesShortest mask list) : MatchesShortest (.item item :: mask) (item :: list)

/-- The mask without the glyphs `one` directly behind a run. -/
def ignoreOnes : Bool → List (Glyph Item) → List (Glyph Item)
  | _, [] => []
  | true, .one :: mask => ignoreOnes true mask
  | false, .one :: mask => .one :: ignoreOnes false mask
  | _, .run :: mask => .run :: ignoreOnes true mask
  | _, .item item :: mask => .item item :: ignoreOnes false mask

@[simp] theorem ignoreOnes_run (behind : Bool) (mask : List (Glyph Item)) :
    ignoreOnes behind (.run :: mask) = .run :: ignoreOnes true mask := by
  cases behind <;> rfl

@[simp] theorem ignoreOnes_item (behind : Bool) (item : Item) (mask : List (Glyph Item)) :
    ignoreOnes behind (.item item :: mask) = .item item :: ignoreOnes false mask := by
  cases behind <;> rfl

/-! ### What a mask means -/

/-- A run can stand for one item more. -/
theorem Matches.run_cons {mask : List (Glyph Item)} {list : List Item} (item : Item)
    (hrun : Matches (.run :: mask) list) : Matches (.run :: mask) (item :: list) := by
  obtain _ | _ | ⟨skipped, hrest⟩ | _ := hrun
  exact .run (item :: skipped) hrest

/-- A run can stand for the glyphs `one` behind it. -/
theorem Matches.run_ignoreOnes {mask : List (Glyph Item)} {list : List Item}
    (hmatches : Matches (ignoreOnes false mask) list) :
    Matches (.run :: ignoreOnes true mask) list := by
  induction mask generalizing list with
  | nil => exact .run [] hmatches
  | cons glyph mask ih =>
    cases glyph with
    | one =>
      obtain _ | ⟨item, hrest⟩ | _ | _ := hmatches
      exact (ih hrest).run_cons item
    | run => exact .run [] hmatches
    | item item => exact .run [] hmatches

/-- Without backtracking nothing else is matched. -/
theorem MatchesShortest.matches {mask : List (Glyph Item)} {list : List Item}
    (hshortest : MatchesShortest mask list) : Matches mask list := by
  induction hshortest with
  | nil => exact .nil
  | one item hrest ih => exact .one item ih
  | last list =>
    rw [← List.append_nil list]
    exact .run list .nil
  | run hskipped hrest ih => exact .run _ (.item _ ih)
  | item item hrest ih => exact .item item ih

/-! ### The shortest runs -/

theorem matchesShortest_nil_iff {list : List Item} : MatchesShortest [] list ↔ list = [] := by
  constructor
  · rintro ⟨⟩
    rfl
  · rintro rfl
    exact .nil

theorem matchesShortest_one_iff {mask : List (Glyph Item)} {list : List Item} :
    MatchesShortest (.one :: mask) list ↔
      ∃ item rest, list = item :: rest ∧ MatchesShortest mask rest := by
  constructor
  · rintro (_ | ⟨item, hrest⟩)
    exact ⟨item, _, rfl, hrest⟩
  · rintro ⟨item, rest, rfl, hrest⟩
    exact .one item hrest

theorem matchesShortest_item_iff {mask : List (Glyph Item)} {list : List Item} {item : Item} :
    MatchesShortest (.item item :: mask) list ↔
      ∃ rest, list = item :: rest ∧ MatchesShortest mask rest := by
  constructor
  · rintro (_ | _ | _ | _ | ⟨_, hrest⟩)
    exact ⟨_, rfl, hrest⟩
  · rintro ⟨rest, rfl, hrest⟩
    exact .item item hrest

/-- A run in front of an item ends at the first such item. -/
theorem matchesShortest_run_iff [DecidableEq Item] {mask : List (Glyph Item)} {list : List Item}
    {item : Item} : MatchesShortest (.run :: .item item :: mask) list ↔
      ∃ rest, list.dropWhile (· ≠ item) = item :: rest ∧ MatchesShortest mask rest := by
  constructor
  · rintro (_ | _ | _ | ⟨hskipped, hrest⟩)
    refine ⟨_, ?_, hrest⟩
    rw [List.dropWhile_append_of_pos]
    · rw [List.dropWhile_cons, if_neg]
      exact fun hdiffers ↦ of_decide_eq_true hdiffers rfl
    · rintro other hmem
      refine decide_eq_true ?_
      rintro rfl
      exact hskipped hmem
  · rintro ⟨rest, hdrop, hrest⟩
    have hskipped : item ∉ list.takeWhile (· ≠ item) := by
      intro hmem
      have hdiffers := List.mem_takeWhile_imp hmem
      exact of_decide_eq_true hdiffers rfl
    rw [← List.takeWhile_append_dropWhile (p := (· ≠ item)) (l := list), hdrop]
    exact .run hskipped hrest

end Elua.Foundation
