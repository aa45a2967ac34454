import Mathlib.Data.List.DropRight
import Mathlib.Data.List.TakeWhile
import Mathlib.Tactic.Common

/-!
# Scanning for runs that are followed by a stop

`gmatch` finds all matches of a run of at least one item, with a stop behind it. The run is as long
as possible, and shorter runs are tried while there is no stop behind it; where nothing matches, one
item is skipped.

If a stop is no part of a run, the scan finds the same words as splitting at the stops does: each
part but the last gives the run at its end, unless that is empty (`gmatch_eq`). What stands in front
of this run is skipped.
-/

set_option autoImplicit false
set_option relaxedAutoImplicit false

namespace Elua.Foundation

variable {Item : Type*} [DecidableEq Item] (run : Item → Bool) (stop : Item)

/-! ### The scan -/

/-- The longest beginning, up to a length, that is followed by a stop. -/
def expand (s : List Item) : ℕ → Option (List Item)
  | 0 => none
  | count + 1 => if s[count + 1]? = some stop then some (s.take (count + 1)) else expand s count

/-- The run that matches at the beginning of a list. -/
def matchRun (s : List Item) : Option (List Item) := expand stop s (s.takeWhile run).length

/-- The runs of all matches. The number of items still belongs to the last match. -/
def gmatch : ℕ → List Item → List (List Item)
  | _, [] => []
  | skip + 1, _ :: s => gmatch skip s
  | 0, item :: s =>
    match matchRun run stop (item :: s) with
    | none => gmatch 0 s
    | some word => word :: gmatch word.length s

/-! ### One match -/

section Match

variable {run stop} {s word part rest : List Item}

theorem expand_eq_none {count : ℕ} (hnone : ∀ index ≤ count, s[index]? ≠ some stop) :
    expand stop s count = none := by
  induction count with
  | zero => rfl
  | succ count ih =>
    rw [expand, if_neg (hnone _ le_rfl)]
    exact ih fun index hindex ↦ hnone index (Nat.le_succ_of_le hindex)

/-- A run with a stop behind it matches. -/
theorem matchRun_of_run (hstop : run stop = false) (hne : word ≠ [])
    (hword : ∀ item ∈ word, run item = true) :
    matchRun run stop (word ++ stop :: rest) = some word := by
  have hlength : ((word ++ stop :: rest).takeWhile run).length = word.length - 1 + 1 := by
    rw [List.takeWhile_append_of_pos hword, List.takeWhile_cons_of_neg (by rw [hstop]; decide),
      List.append_nil, Nat.sub_add_cancel (List.length_pos_iff.mpr hne)]
  have hone : word.length - 1 + 1 = word.length :=
    Nat.sub_add_cancel (List.length_pos_iff.mpr hne)
  rw [matchRun, hlength, expand, hone, List.getElem?_append_right le_rfl, Nat.sub_self,
    List.getElem?_cons_zero, if_pos rfl, List.take_left]

/-- Nothing matches at the beginning of a part that is no run. -/
theorem matchRun_of_not_run (hpart : stop ∉ part) (hrun : ¬∀ item ∈ part, run item = true) :
    matchRun run stop (part ++ rest) = none := by
  have hlt : (part.takeWhile run).length < part.length := by
    refine lt_of_le_of_ne (List.takeWhile_prefix run).length_le fun hlength ↦ hrun ?_
    exact List.takeWhile_eq_self_iff.mp ((List.takeWhile_prefix run).eq_of_length hlength)
  refine expand_eq_none fun index hindex hitem ↦ hpart ?_
  rw [List.takeWhile_append, if_neg hlt.ne] at hindex
  rw [List.getElem?_append_left (hindex.trans_lt hlt)] at hitem
  exact List.mem_of_getElem? hitem

theorem matchRun_of_notMem (hnone : stop ∉ s) : matchRun run stop s = none :=
  expand_eq_none fun _ _ hitem ↦ hnone (List.mem_of_getElem? hitem)

end Match

/-! ### All matches -/

/-- The run at the end of a part, unless it is empty. -/
def lastRun (part : List Item) : Option (List Item) :=
  if part.rtakeWhile run = [] then none else some (part.rtakeWhile run)

section Scan

variable {run stop} {s part : List Item} {item : Item}

omit [DecidableEq Item] in
theorem rtakeWhile_cons_of_not_run (hrun : ¬∀ other ∈ item :: part, run other = true) :
    (item :: part).rtakeWhile run = part.rtakeWhile run := by
  induction part using List.reverseRecOn with
  | nil =>
    have hitem : ¬run item = true := fun hitem ↦ hrun fun other hmem ↦ by
      rwa [List.mem_singleton.mp hmem]
    rw [← List.nil_append [item], List.rtakeWhile_concat_neg run [] item hitem,
      List.rtakeWhile_nil]
  | append_singleton front last ih =>
    rw [← List.cons_append, List.rtakeWhile_concat, List.rtakeWhile_concat]
    split_ifs with hlast
    · rw [ih fun hfront ↦ hrun ?_]
      rw [← List.cons_append, List.forall_mem_append]
      exact ⟨hfront, fun other hmem ↦ by rwa [List.mem_singleton.mp hmem]⟩
    · rfl

/-- What belongs to the last match is skipped. -/
theorem gmatch_length (skipped s : List Item) :
    gmatch run stop skipped.length (skipped ++ s) = gmatch run stop 0 s := by
  induction skipped with
  | nil => rfl
  | cons item skipped ih => exact ih

theorem gmatch_of_match {word : List Item} (hmatch : matchRun run stop (item :: s) = some word) :
    gmatch run stop 0 (item :: s) = word :: gmatch run stop word.length s := by
  rw [gmatch, hmatch]

theorem gmatch_of_no_match (hnone : matchRun run stop (item :: s) = none) :
    gmatch run stop 0 (item :: s) = gmatch run stop 0 s := by
  rw [gmatch, hnone]

theorem gmatch_of_notMem (hnone : stop ∉ s) : gmatch run stop 0 s = [] := by
  induction s with
  | nil => rfl
  | cons item s ih =>
    rw [gmatch_of_no_match (matchRun_of_notMem hnone)]
    exact ih (List.not_mem_of_not_mem_cons hnone)

/-- The scan of a part with a stop behind it finds the run at its end. -/
theorem gmatch_part (hstop : run stop = false) (hpart : stop ∉ part) (rest : List Item) :
    gmatch run stop 0 (part ++ stop :: rest) =
      (lastRun run part).toList ++ gmatch run stop 0 rest := by
  induction part with
  | nil =>
    have hnone : matchRun run stop (stop :: rest) = none := by
      rw [matchRun, List.takeWhile_cons_of_neg (by rw [hstop]; decide)]
      rfl
    exact gmatch_of_no_match hnone
  | cons item part ih =>
    by_cases hrun : ∀ other ∈ item :: part, run other = true
    · have hself : (item :: part).rtakeWhile run = item :: part :=
        List.rtakeWhile_eq_self_iff.mpr hrun
      have hmatch : matchRun run stop (item :: (part ++ stop :: rest)) = some (item :: part) :=
        matchRun_of_run hstop (List.cons_ne_nil item part) hrun
      have hrest : gmatch run stop (part ++ [stop]).length (part ++ [stop] ++ rest) =
          gmatch run stop 0 rest := gmatch_length _ rest
      rw [List.length_append, List.append_assoc] at hrest
      rw [lastRun, hself, if_neg (List.cons_ne_nil item part), List.cons_append,
        gmatch_of_match hmatch]
      exact congrArg _ hrest
    · have hword : lastRun run (item :: part) = lastRun run part := by
        unfold lastRun
        rw [rtakeWhile_cons_of_not_run hrun]
      have hnone : matchRun run stop (item :: (part ++ stop :: rest)) = none :=
        matchRun_of_not_run hpart hrun
      rw [hword, List.cons_append, gmatch_of_no_match hnone]
      exact ih (List.not_mem_of_not_mem_cons hpart)

/-- The scan finds the runs at the ends of the parts, of all parts but the last. -/
theorem gmatch_eq (hstop : run stop = false) (s : List Item) :
    gmatch run stop 0 s = (s.splitOn stop).dropLast.filterMap (lastRun run) := by
  induction hlength : s.length using Nat.strong_induction_on generalizing s with
  | _ length ih =>
    by_cases hmem : stop ∈ s
    · obtain ⟨part, rest, rfl, hpart⟩ := List.eq_append_cons_of_mem hmem
      have hshorter : rest.length < length := by
        rw [← hlength, List.length_append, List.length_cons]
        omega
      rw [gmatch_part hstop hpart, ih _ hshorter rest rfl,
        List.splitOn_append_cons_self_of_not_mem hpart,
        List.dropLast_cons_of_ne_nil (List.splitOn_ne_nil stop rest), List.filterMap_cons]
      cases lastRun run part <;> rfl
    · rw [gmatch_of_notMem hmem, List.splitOn_eq_singleton hmem]
      rfl

end Scan

end Elua.Foundation
