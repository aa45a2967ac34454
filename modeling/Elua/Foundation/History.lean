import Mathlib.Data.List.Basic
import Mathlib.Tactic.Common

/-!
# Histories and the latest version of each key

A history is the list of the values stored so far under names, oldest first. Names are compared by a
key. `latest fold key history` is what was stored last under a name with the key, and `supersede`
marks every entry that a later one of the same key supersedes. The entries that are not marked are
the latest versions (`latest_eq_some_iff`), and storing one more value marks exactly the entries of
its key (`supersede_append`).
-/

set_option autoImplicit false
set_option relaxedAutoImplicit false

namespace Elua.Foundation

variable {Name Key Value : Type*} [DecidableEq Key] (fold : Name → Key)

/-- What was stored last under a name with the key. -/
def latest (key : Key) : List (Name × Value) → Option (Name × Value)
  | [] => none
  | entry :: history =>
    (latest key history).or (if fold entry.1 = key then some entry else none)

/-- Marks the entries of which there is a later version. -/
def supersede : List (Name × Value) → List (Bool × Name × Value)
  | [] => []
  | entry :: history =>
    (history.any fun later ↦ fold later.1 = fold entry.1, entry) :: supersede history

/-- Marks an entry that has the key. -/
def markKey (key : Key) (entry : Bool × Name × Value) : Bool × Name × Value :=
  (entry.1 || decide (fold entry.2.1 = key), entry.2)

theorem map_snd_supersede (history : List (Name × Value)) :
    (supersede fold history).map Prod.snd = history := by
  induction history with
  | nil => rfl
  | cons entry history ih => rw [supersede, List.map_cons, ih]

/-- Where an entry that is not marked stands in the history: nothing of its key is stored behind
it. -/
theorem split_of_supersede {history : List (Name × Value)} {before after : List (Bool × Name × Value)}
    {entry : Name × Value} (hsplit : supersede fold history = before ++ (false, entry) :: after) :
    history = before.map Prod.snd ++ entry :: after.map Prod.snd ∧
      ∀ later ∈ after.map Prod.snd, fold later.1 ≠ fold entry.1 := by
  induction before generalizing history with
  | nil =>
    cases history with
    | nil => cases hsplit
    | cons first history =>
      obtain ⟨hfirst, hafter⟩ := List.cons.inj hsplit
      obtain ⟨hany, rfl⟩ := Prod.mk.inj hfirst
      rw [← hafter, map_snd_supersede]
      exact ⟨rfl, fun later hlater ↦ by simpa using List.any_eq_false.mp hany later hlater⟩
  | cons marked before ih =>
    cases history with
    | nil => cases hsplit
    | cons first history =>
      obtain ⟨hfirst, hrest⟩ := List.cons.inj hsplit
      obtain ⟨hhistory, hlater⟩ := ih hrest
      refine ⟨?_, hlater⟩
      rw [List.map_cons, List.cons_append, ← hhistory, ← hfirst]

/-- Storing a value marks the entries of its key. -/
theorem supersede_append (history : List (Name × Value)) (entry : Name × Value) :
    supersede fold (history ++ [entry]) =
      (supersede fold history).map (markKey fold (fold entry.1)) ++ [(false, entry)] := by
  induction history with
  | nil => rfl
  | cons first history ih =>
    rw [List.cons_append, supersede, ih, supersede, List.map_cons, List.cons_append]
    congr 1
    simp only [markKey, List.any_append, List.any_cons, List.any_nil, Bool.or_false]
    rw [decide_eq_decide.mpr (eq_comm (a := fold first.1) (b := fold entry.1))]

/-- There is no latest version exactly when nothing was stored under the key. -/
theorem latest_eq_none_iff {key : Key} {history : List (Name × Value)} :
    latest fold key history = none ↔ ∀ entry ∈ history, fold entry.1 ≠ key := by
  induction history with
  | nil => simp [latest]
  | cons entry history ih =>
    rw [latest, Option.or_eq_none_iff, ih, List.forall_mem_cons, and_comm]
    simp

/-- The latest version of a key is the entry of that key that is not superseded. -/
theorem latest_eq_some_iff {key : Key} {history : List (Name × Value)} {entry : Name × Value} :
    latest fold key history = some entry ↔
      (false, entry) ∈ supersede fold history ∧ fold entry.1 = key := by
  induction history with
  | nil => simp [latest, supersede]
  | cons first history ih =>
    rw [latest, supersede, List.mem_cons, or_and_right, ← ih]
    cases hlater : latest fold key history with
    | none =>
      have hnone := (latest_eq_none_iff fold).mp hlater
      simp only [Option.none_or, reduceCtorEq, or_false, Prod.mk.injEq]
      constructor
      · intro hfirst
        split_ifs at hfirst with hkey
        obtain rfl := Option.some.inj hfirst
        refine ⟨⟨(List.any_eq_false.mpr fun later hlater ↦ ?_).symm, rfl⟩, hkey⟩
        simpa only [hkey, decide_eq_true_eq] using hnone later hlater
      · rintro ⟨⟨-, rfl⟩, hkey⟩
        rw [if_pos hkey]
    | some later =>
      simp only [Option.some_or]
      refine ⟨.inr, fun hor ↦ hor.resolve_left ?_⟩
      rintro ⟨hfirst, hkey⟩
      obtain ⟨hany, rfl⟩ := Prod.mk.inj hfirst
      have hmem : ∃ other ∈ history, fold other.1 = key := by
        by_contra hnone
        push Not at hnone
        rw [(latest_eq_none_iff fold).mpr hnone] at hlater
        cases hlater
      obtain ⟨other, hother, hotherKey⟩ := hmem
      have hfalse := List.any_eq_false.mp hany.symm other hother
      simp [hotherKey, hkey] at hfalse

end Elua.Foundation
