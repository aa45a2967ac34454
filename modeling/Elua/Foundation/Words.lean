import Mathlib.Data.List.Basic
import Mathlib.Tactic.Common

/-!
# Words of a list

`words sep list` is the list of the maximal runs between separators that are not empty. A separator
cuts a list into the words in front of it and the words behind it (`words_append_cons`), from which
the other rules follow.
-/

set_option autoImplicit false
set_option relaxedAutoImplicit false

namespace Elua.Foundation

variable {Item Other : Type*} {sep : Item → Bool}

/-- The runs between separators that are not empty. -/
def words (sep : Item → Bool) (list : List Item) : List (List Item) :=
  (list.splitOnP sep).filter fun run ↦ !run.isEmpty

@[simp] theorem words_nil : words sep [] = [] := by
  unfold words
  rw [List.splitOnP_nil]
  rfl

/-- A separator cuts a list. -/
theorem words_append_cons {item : Item} (hsep : sep item = true) (before after : List Item) :
    words sep (before ++ item :: after) = words sep before ++ words sep after := by
  unfold words
  rw [List.splitOnP_append_cons before after hsep, List.filter_append]

/-- A separator in front belongs to no word. -/
theorem words_cons {item : Item} (hsep : sep item = true) (after : List Item) :
    words sep (item :: after) = words sep after := by
  rw [← List.nil_append (item :: after), words_append_cons hsep, words_nil, List.nil_append]

/-- A separator at the end belongs to no word. -/
theorem words_append_singleton {item : Item} (hsep : sep item = true) (before : List Item) :
    words sep (before ++ [item]) = words sep before := by
  rw [words_append_cons hsep, words_nil, List.append_nil]

/-- A run without separators is one word. -/
theorem words_of_forall {run : List Item} (hnonempty : run ≠ [])
    (hrun : ∀ item ∈ run, sep item = false) : words sep run = [run] := by
  unfold words
  rw [List.splitOnP_eq_singleton hrun, List.filter_cons_of_pos]
  · rfl
  · rwa [Bool.not_eq_true', List.isEmpty_eq_false_iff]

/-- Induction on the separators of a list. -/
theorem cut_induction {holds : List Item → Prop} (sep : Item → Bool)
    (hrun : ∀ run, (∀ item ∈ run, sep item = false) → holds run)
    (hcut : ∀ run item rest, (∀ other ∈ run, sep other = false) → sep item = true →
      holds rest → holds (run ++ item :: rest)) (list : List Item) : holds list := by
  have hmain : ∀ run, (∀ item ∈ run, sep item = false) → holds (run ++ list) := by
    induction list with
    | nil =>
      intro run hall
      rw [List.append_nil]
      exact hrun run hall
    | cons item rest ih =>
      intro run hall
      by_cases hitem : sep item = true
      · exact hcut run item rest hall hitem (ih [] (List.forall_mem_nil _))
      · rw [List.append_cons]
        refine ih _ fun other hmem ↦ ?_
        obtain hmem | hmem := List.mem_append.mp hmem
        · exact hall other hmem
        · rw [List.mem_singleton.mp hmem]
          exact Bool.eq_false_iff.mpr hitem
  exact hmain [] (List.forall_mem_nil _)

/-- The words of a run without separators. -/
theorem words_run {run : List Item} (hrun : ∀ item ∈ run, sep item = false) :
    words sep run = if run = [] then [] else [run] := by
  split_ifs with hempty
  · rw [hempty, words_nil]
  · exact words_of_forall hempty hrun

/-- A list of separators only has no words, and no other list. -/
theorem words_eq_nil_iff {list : List Item} :
    words sep list = [] ↔ ∀ item ∈ list, sep item = true := by
  have hone : ∀ run : List Item, (∀ item ∈ run, sep item = false) →
      (words sep run = [] ↔ ∀ item ∈ run, sep item = true) := by
    intro run hrun
    cases run with
    | nil => exact iff_of_true words_nil (List.forall_mem_nil _)
    | cons first run =>
      rw [words_of_forall (List.cons_ne_nil _ _) hrun]
      refine iff_of_false (List.cons_ne_nil _ _) fun hsep ↦ ?_
      have hfirst := hrun first List.mem_cons_self
      rw [hsep first List.mem_cons_self] at hfirst
      cases hfirst
  induction list using cut_induction sep with
  | hrun run hrun => exact hone run hrun
  | hcut run item rest hrun hitem ih =>
    rw [words_append_cons hitem, List.append_eq_nil_iff, hone run hrun, List.forall_mem_append,
      List.forall_mem_cons, and_iff_right hitem]
    exact and_congr_right fun _ ↦ ih

/-- A word is not empty and holds no separator. -/
theorem mem_words {list word : List Item} (hmem : word ∈ words sep list) :
    word ≠ [] ∧ ∀ item ∈ word, sep item = false := by
  have hone : ∀ run : List Item, (∀ item ∈ run, sep item = false) → word ∈ words sep run →
      word ≠ [] ∧ ∀ item ∈ word, sep item = false := by
    intro run hrun hword
    rw [words_run hrun] at hword
    split_ifs at hword with hempty
    · cases hword
    · obtain rfl := List.mem_singleton.mp hword
      exact ⟨hempty, hrun⟩
  induction list using cut_induction sep with
  | hrun run hrun => exact hone run hrun hmem
  | hcut run item rest hrun hitem ih =>
    rw [words_append_cons hitem, List.mem_append] at hmem
    exact hmem.elim (hone run hrun) ih

/-- The items of a word are items of the list. -/
theorem mem_of_mem_words {list word : List Item} (hmem : word ∈ words sep list) {item : Item}
    (hitem : item ∈ word) : item ∈ list := by
  have hone : ∀ run : List Item, (∀ item ∈ run, sep item = false) → word ∈ words sep run →
      item ∈ run := by
    intro run hrun hword
    rw [words_run hrun] at hword
    split_ifs at hword
    · cases hword
    · rwa [List.mem_singleton.mp hword] at hitem
  induction list using cut_induction sep with
  | hrun run hrun => exact hone run hrun hmem
  | hcut run other rest hrun hother ih =>
    rw [words_append_cons hother, List.mem_append] at hmem
    obtain hword | hword := hmem
    · exact List.mem_append_left _ (hone run hrun hword)
    · exact List.mem_append_right _ (List.mem_cons_of_mem _ (ih hword))

/-- The words of a list whose items are replaced. -/
theorem words_map (convert : Other → Item) (list : List Other) :
    words sep (list.map convert) =
      (words (fun item ↦ sep (convert item)) list).map (List.map convert) := by
  have hone : ∀ run : List Other, (∀ item ∈ run, sep (convert item) = false) →
      words sep (run.map convert) =
        (words (fun item ↦ sep (convert item)) run).map (List.map convert) := by
    intro run hrun
    rw [words_run hrun, words_run (List.forall_mem_map.mpr hrun)]
    cases run <;> rfl
  induction list using cut_induction fun item ↦ sep (convert item) with
  | hrun run hrun => exact hone run hrun
  | hcut run item rest hrun hitem ih =>
    have hcut := @words_append_cons _ (fun item ↦ sep (convert item)) item hitem run rest
    rw [List.map_append, List.map_cons, words_append_cons hitem, hone run hrun, ih,
      ← List.map_append]
    exact congrArg _ hcut.symm

end Elua.Foundation
