import Elua.Foundation.CString
import Elua.Foundation.Wildcards

/-!
# File masks

`cmnPatternMatches` compares a name with a pattern without backtracking. A star ends at the first
occurrence of the character behind it, and the question marks that follow a star are eaten.

`cmnPatternMatches_iff` says exactly what is matched. `cmnPatternMatches_sound_and_shortest` says it
in terms of masks: what is found can always be matched by the mask without the eaten question marks,
and as long as no star follows a star, a name is found exactly if it can be matched by shortest
runs. A star that follows a star is compared with the name as any other character.
-/

set_option autoImplicit false
set_option relaxedAutoImplicit false

namespace Elua.CommonFs

open Foundation

/-- `'*'`. -/
def star : UInt8 := 42

/-- `'?'`. -/
def question : UInt8 := 63

/-- `cmn_pattern_matches`, on what is left of the string and of the pattern. -/
def cmnPatternMatches (str pattern : List UInt8) : Bool :=
  match pattern with
  | [] => str.isEmpty
  | c :: behind =>
    if c = star then
      match _heaten : behind.dropWhile (· = question) with
      -- a star in the last position matches everything
      | [] => true
      | next :: rest =>
        match str.dropWhile (· ≠ next) with
        | [] => false
        | _ :: left => cmnPatternMatches left rest
    else if c = question then
      match str with
      | [] => false
      | _ :: left => cmnPatternMatches left behind
    else
      match str with
      -- the zero byte behind the string is not in the pattern
      | [] => false
      | first :: left => if c ≠ first then false else cmnPatternMatches left behind
termination_by pattern.length
decreasing_by
  · have hlength := List.length_dropWhile_le (· = question) behind
    rw [_heaten, List.length_cons] at hlength
    exact Nat.lt_succ_of_lt (Nat.lt_of_succ_le hlength)
  · exact Nat.lt_succ_self _
  · exact Nat.lt_succ_self _

/-- The glyph of a character of a pattern. -/
def glyphOf (c : UInt8) : Glyph UInt8 :=
  if c = star then .run else if c = question then .one else .item c

/-- The mask of a pattern. -/
def maskOf (pattern : List UInt8) : List (Glyph UInt8) := pattern.map glyphOf

/-- The mask that the code compares with. A star behind a star stands for itself. -/
def comparedMask : Bool → List UInt8 → List (Glyph UInt8)
  | _, [] => []
  | behind, c :: pattern =>
    if c = star then
      if behind then .item c :: comparedMask false pattern else .run :: comparedMask true pattern
    else if c = question then
      if behind then comparedMask true pattern else .one :: comparedMask false pattern
    else .item c :: comparedMask false pattern

/-- No star follows a star directly, the question marks that follow the first one left out. -/
def StarsApart (pattern : List UInt8) : Prop :=
  ∀ before between after, pattern = before ++ star :: between ++ star :: after →
    ∃ c ∈ between, c ≠ question

/-- The name is found exactly if the pattern can match it. -/
def FindsExactly (str pattern : CString) : Prop :=
  cmnPatternMatches str.bytes pattern.bytes = true ↔ Matches (maskOf pattern.bytes) str.bytes

/-- What is found can be matched, and without stars behind stars it is what shortest runs match. The
question marks behind a star are ignored. -/
structure FindsShortest (str pattern : CString) : Prop where
  sound : cmnPatternMatches str.bytes pattern.bytes = true →
    Matches (ignoreOnes false (maskOf pattern.bytes)) str.bytes
  shortest : StarsApart pattern.bytes → (cmnPatternMatches str.bytes pattern.bytes = true ↔
    MatchesShortest (ignoreOnes false (maskOf pattern.bytes)) str.bytes)

/-! ### What the code compares with -/

/-- The question marks behind a star are eaten. -/
theorem comparedMask_dropWhile (pattern : List UInt8) :
    comparedMask true (pattern.dropWhile (· = question)) = comparedMask true pattern := by
  induction pattern with
  | nil => rfl
  | cons c pattern ih =>
    rw [List.dropWhile_cons]
    by_cases hquestion : c = question
    · rw [if_pos (decide_eq_true hquestion), ih, hquestion]
      rfl
    · rw [if_neg (by rwa [decide_eq_true_iff])]

/-- A character behind a star that is not eaten stands for itself. -/
theorem comparedMask_cons_of_ne {c : UInt8} (hquestion : c ≠ question) (pattern : List UInt8) :
    comparedMask true (c :: pattern) = .item c :: comparedMask false pattern := by
  rw [comparedMask, if_pos rfl, if_neg hquestion, ite_self]

theorem comparedMask_star (pattern : List UInt8) :
    comparedMask false (star :: pattern) = .run :: comparedMask true pattern := by
  rw [comparedMask, if_pos rfl, if_neg Bool.false_ne_true]

theorem comparedMask_question (pattern : List UInt8) :
    comparedMask false (question :: pattern) = .one :: comparedMask false pattern := by
  rw [comparedMask, if_neg (by decide), if_pos rfl, if_neg Bool.false_ne_true]

theorem comparedMask_item {c : UInt8} (hstar : c ≠ star) (hquestion : c ≠ question)
    (pattern : List UInt8) :
    comparedMask false (c :: pattern) = .item c :: comparedMask false pattern := by
  rw [comparedMask, if_neg hstar, if_neg hquestion]

/-- What is compared behind a star, from the first character that is not eaten. -/
theorem comparedMask_of_dropWhile {pattern rest : List UInt8} {next : UInt8}
    (heaten : pattern.dropWhile (· = question) = next :: rest) :
    comparedMask true pattern = .item next :: comparedMask false rest := by
  have hhead := List.head?_dropWhile_not (· = question) pattern
  rw [heaten] at hhead
  have hquestion : next ≠ question := of_decide_eq_false hhead
  rw [← comparedMask_dropWhile, heaten, comparedMask_cons_of_ne hquestion]

/-- What is found, exactly. -/
theorem cmnPatternMatches_iff (str pattern : List UInt8) :
    cmnPatternMatches str pattern = true ↔ MatchesShortest (comparedMask false pattern) str := by
  fun_induction cmnPatternMatches str pattern with
  | case1 str => rw [comparedMask, matchesShortest_nil_iff, List.isEmpty_iff]
  | case2 str behind heaten =>
    rw [comparedMask_star, ← comparedMask_dropWhile, heaten, comparedMask]
    exact iff_of_true rfl (.last str)
  | case3 str behind next rest heaten hnone =>
    rw [comparedMask_star, comparedMask_of_dropWhile heaten, matchesShortest_run_iff, hnone]
    simp
  | case4 str behind next rest heaten first left hstop ih =>
    have hhead := List.head?_dropWhile_not (· ≠ next) str
    rw [hstop] at hhead
    have hfirst : first = next := not_not.mp (of_decide_eq_false hhead)
    rw [comparedMask_star, comparedMask_of_dropWhile heaten, matchesShortest_run_iff, hstop, ih,
      hfirst]
    simp
  | case5 behind =>
    rw [comparedMask_question, matchesShortest_one_iff]
    simp
  | case6 behind first left _ ih =>
    rw [comparedMask_question, matchesShortest_one_iff, ih]
    simp
  | case7 c behind hstar hquestion =>
    rw [comparedMask_item hstar hquestion, matchesShortest_item_iff]
    simp
  | case8 c behind hstar hquestion first left hdiffers =>
    rw [comparedMask_item hstar hquestion, matchesShortest_item_iff]
    simp [hdiffers.symm]
  | case9 c behind hstar hquestion first left hequal ih =>
    rw [comparedMask_item hstar hquestion, matchesShortest_item_iff, ih, not_not.mp hequal]
    simp

/-! ### The mask of the pattern -/

@[simp] theorem maskOf_star (pattern : List UInt8) :
    maskOf (star :: pattern) = .run :: maskOf pattern := rfl

@[simp] theorem maskOf_question (pattern : List UInt8) :
    maskOf (question :: pattern) = .one :: maskOf pattern := rfl

theorem maskOf_item {c : UInt8} (hstar : c ≠ star) (hquestion : c ≠ question)
    (pattern : List UInt8) : maskOf (c :: pattern) = .item c :: maskOf pattern := by
  unfold maskOf
  rw [List.map_cons, glyphOf, if_neg hstar, if_neg hquestion]

/-- What is compared with the code's mask can be matched by the mask of the pattern. -/
theorem matches_of_comparedMask {behind : Bool} {pattern str : List UInt8}
    (hmatches : Matches (comparedMask behind pattern) str) :
    Matches (ignoreOnes behind (maskOf pattern)) str := by
  induction pattern generalizing behind str with
  | nil =>
    cases behind <;> exact hmatches
  | cons c pattern ih =>
    by_cases hstar : c = star
    · subst hstar
      rw [maskOf_star, ignoreOnes_run]
      cases behind with
      | true =>
        -- the run stands for the star and for the question marks behind it
        rw [comparedMask_cons_of_ne (by decide)] at hmatches
        obtain _ | _ | _ | ⟨_, hrest⟩ := hmatches
        exact (ih hrest).run_ignoreOnes.run_cons star
      | false =>
        rw [comparedMask_star] at hmatches
        obtain _ | _ | ⟨skipped, hrest⟩ | _ := hmatches
        exact .run skipped (ih hrest)
    by_cases hquestion : c = question
    · subst hquestion
      rw [maskOf_question]
      cases behind with
      | true => exact ih hmatches
      | false =>
        rw [comparedMask_question] at hmatches
        obtain _ | ⟨first, hrest⟩ | _ | _ := hmatches
        exact .one first (ih hrest)
    · have hcompared :
          comparedMask behind (c :: pattern) = .item c :: comparedMask false pattern := by
        rw [comparedMask, if_neg hstar, if_neg hquestion]
      rw [hcompared] at hmatches
      rw [maskOf_item hstar hquestion, ignoreOnes_item]
      obtain _ | _ | _ | ⟨_, hrest⟩ := hmatches
      exact .item c (ih hrest)

theorem StarsApart.of_cons {c : UInt8} {pattern : List UInt8} (hapart : StarsApart (c :: pattern)) :
    StarsApart pattern := by
  rintro before between after rfl
  exact hapart (c :: before) between after rfl

/-- A question mark behind a star does not keep it apart from another. -/
theorem StarsApart.of_cons_question {pattern : List UInt8}
    (hapart : StarsApart (star :: question :: pattern)) : StarsApart (star :: pattern) := by
  intro before between after heq
  cases before with
  | nil =>
    obtain ⟨c, hmem, hne⟩ := hapart [] (question :: between) after
      (by rw [(List.cons.inj heq).2]; rfl)
    obtain rfl | hmem := List.mem_cons.mp hmem
    · exact absurd rfl hne
    · exact ⟨c, hmem, hne⟩
  | cons first before =>
    exact hapart (star :: question :: before) between after (by rw [(List.cons.inj heq).2]; rfl)

/-- Without stars behind stars the code compares with the mask of the pattern. -/
theorem comparedMask_eq {behind : Bool} {pattern : List UInt8}
    (hapart : StarsApart (if behind = true then star :: pattern else pattern)) :
    comparedMask behind pattern = ignoreOnes behind (maskOf pattern) := by
  induction pattern generalizing behind with
  | nil => cases behind <;> rfl
  | cons c pattern ih =>
    by_cases hstar : c = star
    · subst hstar
      cases behind with
      | true =>
        obtain ⟨c, hmem, -⟩ := hapart [] [] pattern rfl
        cases hmem
      | false => rw [comparedMask_star, maskOf_star, ignoreOnes_run, ih hapart]
    by_cases hquestion : c = question
    · subst hquestion
      cases behind with
      | true => exact ih hapart.of_cons_question
      | false =>
        rw [comparedMask_question, maskOf_question, @ih false hapart.of_cons]
        rfl
    · have hrest : StarsApart pattern := by
        cases behind with
        | true => exact StarsApart.of_cons hapart.of_cons
        | false => exact StarsApart.of_cons hapart
      rw [maskOf_item hstar hquestion, ignoreOnes_item, comparedMask, if_neg hstar,
        if_neg hquestion, @ih false hrest]

/-! ### What is found -/

/-- Every name is compared with every pattern by shortest runs. -/
theorem findsShortest (str pattern : CString) : FindsShortest str pattern where
  sound hfound :=
    matches_of_comparedMask ((cmnPatternMatches_iff _ _).mp hfound).matches
  shortest hapart := by
    rw [cmnPatternMatches_iff, @comparedMask_eq false _ hapart]

/-- The pattern `a*b?` can match `abba`, but its star ends at the first `b`. -/
theorem not_findsExactly_abba :
    ¬ FindsExactly ⟨[97, 98, 98, 97], by decide⟩ ⟨[97, star, 98, question], by decide⟩ := by
  intro hexact
  have hmatches : Matches (maskOf [97, star, 98, question]) [97, 98, 98, 97] :=
    .item 97 (.run [98] (.item 98 (.one 97 .nil)))
  have hfound := (cmnPatternMatches_iff _ _).mp (hexact.mpr hmatches)
  have hcompared : comparedMask false [97, star, 98, question] = [.item 97, .run, .item 98, .one] :=
    rfl
  rw [hcompared, matchesShortest_item_iff] at hfound
  obtain ⟨rest, heq, hrest⟩ := hfound
  obtain rfl := (List.cons.inj heq).2
  rw [matchesShortest_run_iff] at hrest
  obtain ⟨rest, hdrop, hrest⟩ := hrest
  have hleft : ([98, 98, 97] : List UInt8).dropWhile (· ≠ 98) = [98, 98, 97] := by decide
  obtain rfl := (List.cons.inj (hleft.symm.trans hdrop)).2
  rw [matchesShortest_one_iff] at hrest
  obtain ⟨item, rest, heq, hrest⟩ := hrest
  rw [← (List.cons.inj heq).2, matchesShortest_nil_iff] at hrest
  cases hrest

end Elua.CommonFs
