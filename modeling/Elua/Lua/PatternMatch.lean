import Elua.Lua.PatternMeaning

/-!
# The matcher finds the first way

For an accepted pattern `match` comes to the first of the `ways` to match (`matchAt_eq`), and these
are the matches (`match_finds_first`). If there is none, it returns NULL, and the captures are as they
were.
-/

set_option autoImplicit false
set_option relaxedAutoImplicit false

namespace Elua.Lua.Patterns

open Tables

variable {src pat : List UInt8} {captures : List Capture} {p s : ℕ}

/-! ### The first way -/

/-- What a call comes to, by the first way to match. -/
def report (captures : List Capture) : Option (List Capture × ℕ) → Matching
  | none => .returns captures none
  | some way => .returns way.1 (some way.2)

theorem orElse_report {captures' : List Capture} {first second : Option (List Capture × ℕ)}
    {retry : List Capture → Matching} (hretry : retry captures' = report captures second) :
    orElse (report captures' first) retry = report captures (first.or second) := by
  rcases first with - | way
  · exact hretry
  · rfl

theorem orElse_undo {captures' : List Capture} {first : Option (List Capture × ℕ)}
    {undo : List Capture → Matching} (hundo : undo captures' = .returns captures none) :
    orElse (report captures' first) undo = report captures first := by
  rcases first with - | way
  · exact hundo
  · rfl

/-- From all places that an item reaches, the first way of the rest is found. -/
def Follows (search : List Capture → ℕ → Matching)
    (after : List Capture × ℕ → List (List Capture × ℕ)) (reached : List (List Capture × ℕ)) :
    Prop :=
  ∀ way ∈ reached, search way.1 way.2 = report way.1 (after way).head?

/-! ### Repetitions -/

section Repetitions

variable {test : UInt8 → Bool} {ep : ℕ} {search : List Capture → ℕ → Matching}
  {after : ℕ → List (List Capture × ℕ)}

theorem run_succ {most : ℕ} (hrun : run src test s = most + 1) : run src test (s + 1) = most := by
  rcases Nat.lt_or_ge s src.length with hless | hle
  · rw [run_of_lt hless] at hrun
    split_ifs at hrun
    exact Nat.succ.inj hrun
  · rw [run_of_le hle] at hrun
    cases hrun

theorem countSingle_eq (p ep s : ℕ) : countSingle src pat p ep (src.length - s) s =
    run src (fun c ↦ singlematch pat c p ep) s := by
  generalize hleft : src.length - s = left
  induction left generalizing s with
  | zero => rw [countSingle, run_of_le (Nat.le_of_sub_eq_zero hleft)]
  | succ left ih => rw [countSingle, run_of_lt (by omega), ih (s + 1) (by omega)]

theorem one_le_run_iff (test : UInt8 → Bool) (s : ℕ) :
    (decide (s < src.length) && test (byteAt src s)) = true ↔ 1 ≤ run src test s := by
  rcases Nat.lt_or_ge s src.length with hless | hle
  · rw [run_of_lt hless, Bool.and_eq_true, decide_eq_true_eq]
    split_ifs with hpass
    · exact iff_of_true ⟨hless, hpass⟩ (Nat.le_add_left 1 _)
    · exact iff_of_false (fun hboth ↦ hpass hboth.2) (Nat.not_succ_le_zero 0)
  · rw [run_of_le hle, decide_eq_false (Nat.not_lt.2 hle), Bool.false_and]
    exact iff_of_false Bool.false_ne_true (Nat.not_succ_le_zero 0)

theorem expandDown_eq {i : ℕ}
    (hsearch : ∀ k ≤ i, search captures (s + k) = report captures (after k).head?) :
    expandDown search s i captures =
      report captures ((List.range (i + 1)).reverse.flatMap after).head? := by
  induction i with
  | zero => simpa [expandDown] using hsearch 0 (Nat.le_refl 0)
  | succ i ih =>
    have hrange : List.range (i + 1 + 1) = List.range (i + 1) ++ [i + 1] := List.range_succ
    rw [expandDown, hsearch (i + 1) (Nat.le_refl _),
      orElse_report (ih fun k hk ↦ hsearch k (Nat.le_succ_of_le hk)), hrange, List.reverse_append,
      List.reverse_singleton, List.singleton_append, List.flatMap_cons, List.head?_append]

theorem minExpand_eq (p ep : ℕ) (hsearch : ∀ k ≤ run src (fun c ↦ singlematch pat c p ep) s,
      search captures (s + k) = report captures (after k).head?) :
    minExpand src pat search p ep (src.length - s) captures s = report captures
      ((List.range (run src (fun c ↦ singlematch pat c p ep) s + 1)).flatMap after).head? := by
  generalize hleft : src.length - s = left
  induction left generalizing s after with
  | zero =>
    rw [run_of_le (Nat.le_of_sub_eq_zero hleft)] at hsearch ⊢
    simpa [minExpand] using hsearch 0 (Nat.le_refl 0)
  | succ left ih =>
    have hrun : run src (fun c ↦ singlematch pat c p ep) s =
        if singlematch pat (byteAt src s) p ep then
          run src (fun c ↦ singlematch pat c p ep) (s + 1) + 1 else 0 := run_of_lt (by omega)
    rw [minExpand, ← Nat.add_zero s, hsearch 0 (Nat.zero_le _), Nat.add_zero, List.range_succ_eq_map,
      List.flatMap_cons, List.head?_append]
    refine orElse_report ?_
    by_cases hpass : singlematch pat (byteAt src s) p ep = true
    · rw [if_pos hpass] at hrun ⊢
      rw [hrun, List.flatMap_map]
      refine ih (fun k hk ↦ ?_) (by omega)
      rw [Nat.add_assoc, Nat.add_comm 1 k]
      exact hsearch (k + 1) (by omega)
    · rw [if_neg hpass] at hrun ⊢
      rw [hrun]
      rfl

end Repetitions

/-! ### Single characters -/

theorem matchDefault_eq {rest : ℕ → List Capture → ℕ → Matching} {item : Item} {q : ℕ}
    {after : List Capture × ℕ → List (List Capture × ℕ)}
    (hitem : parseDefault pat p = some (item, q))
    (hfollows : Follows (rest q) after (item.ways src captures s)) :
    matchDefault src pat rest captures s p =
      report captures ((item.ways src captures s).flatMap after).head? := by
  obtain ⟨ep, hend, heq⟩ := Option.map_eq_some_iff.1 hitem
  obtain ⟨rfl, rfl⟩ := Prod.mk.inj heq
  have hpass : (decide (s < src.length) && singlematch pat (byteAt src s) p ep) = true ↔
      1 ≤ run src (fun c ↦ singlematch pat c p ep) s := one_le_run_iff (fun c ↦ singlematch pat c p ep) s
  generalize hrun : run src (fun c ↦ singlematch pat c p ep) s = most at hpass
  have hat (k : ℕ) (hk : k ∈ (parseRepetition pat ep).1.counts most) :
      rest (parseRepetition pat ep).2 captures (s + k) =
        report captures (after (captures, s + k)).head? :=
    hfollows _ (List.mem_map_of_mem (hrun ▸ hk))
  rw [matchDefault, hend, Item.ways, List.flatMap_map, hrun]
  dsimp only
  rw [parseRepetition] at hat ⊢
  by_cases hoptional : byteAt pat ep = 63
  · simp only [if_pos hoptional, Repetition.counts] at hat ⊢
    by_cases hone : 1 ≤ most
    · rw [if_pos hone] at hat
      rw [if_pos (hpass.2 hone), if_pos hone, List.flatMap_cons, List.head?_append,
        List.flatMap_singleton, hat 1 (List.mem_cons_self ..)]
      exact orElse_report (hat 0 (List.mem_cons_of_mem _ (List.mem_singleton_self 0)))
    · rw [if_neg hone] at hat
      rw [if_neg fun htrue ↦ hone (hpass.1 htrue), if_neg hone, List.flatMap_singleton]
      exact hat 0 (List.mem_singleton_self 0)
  simp only [if_neg hoptional] at hat ⊢
  by_cases hstar : byteAt pat ep = 42
  · simp only [if_pos hstar, Repetition.counts] at hat ⊢
    rw [maxExpand, countSingle_eq, hrun]
    exact expandDown_eq fun k hk ↦
      hat k (List.mem_reverse.2 (List.mem_range.2 (Nat.lt_succ_of_le hk)))
  simp only [if_neg hstar] at hat ⊢
  by_cases hplus : byteAt pat ep = 43
  · simp only [if_pos hplus, Repetition.counts] at hat ⊢
    rcases most with - | most
    · rw [if_neg fun htrue ↦ absurd (hpass.1 htrue) (Nat.not_succ_le_zero 0)]
      rfl
    · rw [if_pos (hpass.2 (Nat.le_add_left 1 most)), maxExpand, countSingle_eq, run_succ hrun,
        List.flatMap_map]
      refine expandDown_eq fun k hk ↦ ?_
      rw [Nat.add_assoc, Nat.add_comm 1 k]
      refine hat (k + 1) (List.mem_map_of_mem ?_)
      exact List.mem_reverse.2 (List.mem_range.2 (Nat.lt_succ_of_le hk))
  simp only [if_neg hplus] at hat ⊢
  by_cases hminus : byteAt pat ep = 45
  · simp only [if_pos hminus, Repetition.counts, ← hrun] at hat ⊢
    exact minExpand_eq p ep fun k hk ↦ hat k (List.mem_range.2 (Nat.lt_succ_of_le hk))
  · simp only [if_neg hminus, Repetition.counts] at hat ⊢
    by_cases hone : 1 ≤ most
    · rw [if_pos hone] at hat
      rw [if_pos (hpass.2 hone), if_pos hone, List.flatMap_singleton]
      exact hat 1 (List.mem_singleton_self 1)
    · rw [if_neg fun htrue ↦ hone (hpass.1 htrue), if_neg hone]
      rfl

/-! ### Items -/

section Items

variable {search : List Capture → ℕ → Matching} {first : Option (List Capture × ℕ)}

theorem startCapture_eq {what : ℤ} (hroom : captures.length < luaMaxcaptures)
    (hsearch : search (captures ++ [⟨s, what⟩]) s = report (captures ++ [⟨s, what⟩]) first) :
    startCapture search captures s what = report captures first := by
  rw [startCapture, if_neg (Nat.not_le.2 hroom), hsearch]
  exact orElse_undo (by rw [List.dropLast_concat])

theorem endCapture_eq {l : ℕ} (hl : captureToClose captures captures.length = some l)
    (hsearch : search (setLen captures l (s - (captures.getD l ⟨0, 0⟩).init)) s =
      report (setLen captures l (s - (captures.getD l ⟨0, 0⟩).init)) first) :
    endCapture search captures s = report captures first := by
  obtain ⟨before, capture, after, rfl, rfl, hunfinished, -⟩ := captureToClose_eq_some_iff.1 hl
  rw [endCapture, hl]
  dsimp only
  rw [hsearch]
  refine orElse_undo ?_
  rw [setLen_append, setLen_append, ← hunfinished]

end Items

theorem match_option_eq {search : List Capture → ℕ → Matching}
    {after : List Capture × ℕ → List (List Capture × ℕ)} (found : Option ℕ) :
    Follows search after (found.toList.map fun s' ↦ (captures, s')) →
      (match found with
        | none => .returns captures none
        | some s => search captures s) =
        report captures ((found.toList.map fun s' ↦ (captures, s')).flatMap after).head? := by
  intro hfollows
  rcases found with - | s'
  · rfl
  · rw [Option.toList_some, List.map_singleton, List.flatMap_singleton]
    exact hfollows _ (List.mem_singleton_self _)

theorem matchAt_of_zero {fuel : ℕ} (hzero : byteAt pat p = 0) (hfuel : 0 < fuel) :
    matchAt src pat fuel p captures s = .returns captures (some s) := by
  obtain ⟨fuel, rfl⟩ := Nat.exists_eq_succ_of_ne_zero (Nat.ne_of_gt hfuel)
  rw [matchAt, hzero, if_neg (by decide), if_neg (by decide), if_neg (by decide), if_pos rfl]

theorem matchEscape_eq {rest : ℕ → List Capture → ℕ → Matching} {q : ℕ} {item : Item}
    {flags : List Bool} {after : List Capture × ℕ → List (List Capture × ℕ)}
    (hitem : parseEscape pat p = some (item, q))
    (hflags : item.unfinished (unfinishedOf captures) = some flags)
    (hfollows : Follows (rest q) after (item.ways src captures s)) :
    matchEscape src pat rest captures s p =
      report captures ((item.ways src captures s).flatMap after).head? := by
  rw [parseEscape] at hitem
  rw [matchEscape]
  by_cases hbalance : byteAt pat (p + 1) = 98
  · rw [if_pos hbalance] at hitem ⊢
    by_cases hshort : byteAt pat (p + 2) = 0 ∨ byteAt pat (p + 3) = 0
    · rw [if_pos hshort] at hitem
      cases hitem
    rw [if_neg hshort] at hitem ⊢
    obtain ⟨rfl, rfl⟩ := Prod.mk.inj (Option.some.inj hitem)
    exact match_option_eq (matchbalance src s _ _) hfollows
  rw [if_neg hbalance] at hitem ⊢
  by_cases hfrontier : byteAt pat (p + 1) = 102
  · rw [if_pos hfrontier] at hitem ⊢
    by_cases hopen : byteAt pat (p + 2) ≠ 91
    · rw [if_pos hopen] at hitem
      cases hitem
    rw [if_neg hopen] at hitem
    obtain ⟨ep, hend, heq⟩ := Option.map_eq_some_iff.1 hitem
    obtain ⟨rfl, rfl⟩ := Prod.mk.inj heq
    rw [matchFrontier, if_neg hopen, hend]
    rw [Item.ways] at hfollows ⊢
    dsimp only at hfollows ⊢
    generalize matchbracketclass pat (if s = 0 then 0 else byteAt src (s - 1)) (p + 2) (ep - 1) =
      previous at hfollows ⊢
    generalize matchbracketclass pat (byteAt src s) (p + 2) (ep - 1) = here at hfollows ⊢
    by_cases hfound : previous = false ∧ here = true
    · rw [if_pos hfound] at hfollows ⊢
      rw [List.flatMap_singleton, hfound.1, hfound.2]
      exact hfollows _ (List.mem_singleton_self _)
    · rw [if_neg hfound, if_pos]
      · rfl
      · revert hfound
        cases previous <;> cases here <;> decide
  rw [if_neg hfrontier] at hitem ⊢
  by_cases hdigit : isdigit (byteAt pat (p + 1)) = true
  · rw [if_pos hdigit] at hitem ⊢
    obtain ⟨rfl, rfl⟩ := Prod.mk.inj (Option.some.inj hitem)
    have husable : checkCapture captures (byteAt pat (p + 1)) =
        some ((byteAt pat (p + 1)).toNat - 49) := by
      rw [Item.unfinished] at hflags
      split_ifs at hflags with husable
      obtain ⟨hlow, hless, hfinished⟩ := husable
      rw [getD_unfinishedOf, decide_eq_false_iff_not] at hfinished
      rw [unfinishedOf, List.length_map] at hless
      rw [checkCapture, if_pos ⟨hlow, hless, hfinished⟩]
    rw [husable]
    exact match_option_eq (matchCapture src captures s _) hfollows
  · rw [if_neg hdigit] at hitem ⊢
    exact matchDefault_eq hitem hfollows

/-- The matcher reads the item that the parser reads. -/
theorem matchItem_eq {fuel q : ℕ} {item : Item} {flags : List Bool}
    {after : List Capture × ℕ → List (List Capture × ℕ)} (hfuel : 0 < fuel)
    (hnonzero : byteAt pat p ≠ 0) (hitem : parseItem pat p = some (item, q))
    (hflags : item.unfinished (unfinishedOf captures) = some flags)
    (hfollows : Follows (matchAt src pat fuel q) after (item.ways src captures s)) :
    matchAt src pat (fuel + 1) p captures s =
      report captures ((item.ways src captures s).flatMap after).head? := by
  have hlen : (unfinishedOf captures).length = captures.length := List.length_map _
  have hfirst {way : List Capture × ℕ} (hway : item.ways src captures s = [way]) :
      matchAt src pat fuel q way.1 way.2 =
        report way.1 ((item.ways src captures s).flatMap after).head? := by
    rw [hway, List.flatMap_singleton]
    exact hfollows way (hway ▸ List.mem_singleton_self way)
  rw [parseItem] at hitem
  rw [matchAt]
  by_cases hopening : byteAt pat p = 40
  · rw [if_pos hopening] at hitem ⊢
    by_cases hposition : byteAt pat (p + 1) = 41
    · rw [if_pos hposition] at hitem ⊢
      obtain ⟨rfl, rfl⟩ := Prod.mk.inj (Option.some.inj hitem)
      rw [Item.unfinished, hlen] at hflags
      split_ifs at hflags with hroom
      exact startCapture_eq hroom (hfirst rfl)
    · rw [if_neg hposition] at hitem ⊢
      obtain ⟨rfl, rfl⟩ := Prod.mk.inj (Option.some.inj hitem)
      rw [Item.unfinished, hlen] at hflags
      split_ifs at hflags with hroom
      exact startCapture_eq hroom (hfirst rfl)
  rw [if_neg hopening] at hitem ⊢
  by_cases hclosing : byteAt pat p = 41
  · rw [if_pos hclosing] at hitem ⊢
    obtain ⟨rfl, rfl⟩ := Prod.mk.inj (Option.some.inj hitem)
    rw [Item.unfinished, hlen, ← captureToClose_eq] at hflags
    obtain ⟨l, hl, -⟩ := Option.map_eq_some_iff.1 hflags
    have hway : Item.closing.ways src captures s =
        [(setLen captures l (s - (captures.getD l ⟨0, 0⟩).init), s)] := by
      rw [Item.ways, hl]
      rfl
    exact endCapture_eq hl (hfirst hway)
  rw [if_neg hclosing] at hitem ⊢
  by_cases hesc : byteAt pat p = lEsc
  · rw [if_pos hesc] at hitem ⊢
    exact matchEscape_eq hitem hflags hfollows
  rw [if_neg hesc] at hitem ⊢
  rw [if_neg hnonzero]
  by_cases hend : byteAt pat p = 36 ∧ byteAt pat (p + 1) = 0
  · rw [if_pos hend] at hitem ⊢
    obtain ⟨rfl, rfl⟩ := Prod.mk.inj (Option.some.inj hitem)
    rw [Item.ways] at hfollows ⊢
    by_cases hs : s = src.length
    · rw [if_pos hs] at hfollows ⊢
      rw [if_pos hs, List.flatMap_singleton, ← matchAt_of_zero hend.2 hfuel]
      exact hfollows _ (List.mem_singleton_self _)
    · rw [if_neg hs, if_neg hs]
      rfl
  · rw [if_neg hend] at hitem ⊢
    exact matchDefault_eq hitem hfollows

/-! ### The matcher -/

theorem length_parseItems {bound : ℕ} {items : List Item}
    (hparse : parseItems pat bound p = some items) : items.length < bound := by
  induction bound generalizing p items with
  | zero => cases hparse
  | succ bound ih =>
    rw [parseItems] at hparse
    by_cases hend : byteAt pat p = 0
    · rw [if_pos hend] at hparse
      obtain rfl := Option.some.inj hparse
      exact Nat.succ_pos bound
    · rw [if_neg hend] at hparse
      obtain ⟨item, -, hrest⟩ := Option.bind_eq_some_iff.1 hparse
      obtain ⟨items', hitems', rfl⟩ := Option.map_eq_some_iff.1 hrest
      exact Nat.succ_lt_succ (ih hitems')

theorem matchAt_eq {fuel bound : ℕ} {items : List Item} (hparse : parseItems pat bound p = some items)
    (hwell : wellCaptured items (unfinishedOf captures) = true) (hfits : Fits src captures s)
    (hfuel : items.length < fuel) :
    matchAt src pat fuel p captures s = report captures (ways src items captures s).head? := by
  induction fuel generalizing bound p items captures s with
  | zero => exact absurd hfuel (Nat.not_lt_zero _)
  | succ fuel ih =>
    rcases bound with - | bound
    · cases hparse
    rw [parseItems] at hparse
    by_cases hend : byteAt pat p = 0
    · rw [if_pos hend] at hparse
      obtain rfl := Option.some.inj hparse
      rw [matchAt_of_zero hend (Nat.succ_pos fuel)]
      rfl
    rw [if_neg hend] at hparse
    obtain ⟨⟨item, q⟩, hitem, hrest⟩ := Option.bind_eq_some_iff.1 hparse
    obtain ⟨items', hitems', rfl⟩ := Option.map_eq_some_iff.1 hrest
    rw [wellCaptured] at hwell
    rcases hflags : item.unfinished (unfinishedOf captures) with - | flags
    · rw [hflags] at hwell
      cases hwell
    rw [hflags] at hwell
    rw [ways]
    have hless : items'.length < fuel := Nat.lt_of_succ_lt_succ hfuel
    refine matchItem_eq (Nat.zero_lt_of_lt hless) hend hitem hflags fun way hway ↦ ?_
    obtain ⟨hkeep, hfits'⟩ := takes_keep hfits hflags ((mem_ways_item_iff hfits hflags).1 hway)
    rw [← hkeep] at hwell
    exact ih hitems' hwell hfits' hless

/-- For a pattern that is accepted, `match` always returns. It returns NULL if there is no match at
all. Else it returns the end of the one that comes first, and the captures of this one. -/
theorem match_finds_first {items : List Item} (haccepted : Accepted pat items) (hs : s ≤ src.length)
    {fuel : ℕ} (hfuel : pat.length < fuel) :
    (matchAt src pat fuel 0 [] s = .returns [] none ∧
      ∀ captures e, ¬ Matches src items [] s captures e) ∨
    ∃ captures e, matchAt src pat fuel 0 [] s = .returns captures (some e) ∧
      Matches src items [] s captures e ∧ (ways src items [] s).head? = some (captures, e) := by
  have hways {captures : List Capture} {e : ℕ} :
      (captures, e) ∈ ways src items [] s ↔ Matches src items [] s captures e :=
    mem_ways_iff haccepted.2 (fits_nil hs)
  have hmatch : matchAt src pat fuel 0 [] s = report [] (ways src items [] s).head? :=
    matchAt_eq haccepted.1 haccepted.2 (fits_nil hs)
      ((Nat.le_of_lt_succ (length_parseItems haccepted.1)).trans_lt hfuel)
  rw [hmatch]
  rcases hfirst : (ways src items [] s).head? with - | ⟨captures, e⟩
  · rw [List.head?_eq_none_iff] at hfirst
    refine .inl ⟨rfl, fun captures e hmatches ↦ ?_⟩
    rw [← hways, hfirst] at hmatches
    cases hmatches
  · exact .inr ⟨captures, e, rfl, hways.1 (List.mem_of_mem_head? hfirst), rfl⟩

/-- The pattern `a-$` and the text `a`. -/
theorem match_finds_first_lazy :
    (matchAt [97] [97, 45, 36] 4 0 [] 0 = .returns [] none ∧
      ∀ captures e, ¬ Matches [97] [.single (fun c ↦ (97 : UInt8) == c) .minus, .atEnd] [] 0
        captures e) ∨
    ∃ captures e, matchAt [97] [97, 45, 36] 4 0 [] 0 = .returns captures (some e) ∧
      Matches [97] [.single (fun c ↦ (97 : UInt8) == c) .minus, .atEnd] [] 0 captures e ∧
      (ways [97] [.single (fun c ↦ (97 : UInt8) == c) .minus, .atEnd] [] 0).head? =
        some (captures, e) := by
  have haccepted : Accepted [97, 45, 36] [.single (fun c ↦ (97 : UInt8) == c) .minus, .atEnd] :=
    ⟨rfl, by decide⟩
  exact match_finds_first haccepted (by decide) (by decide)

end Elua.Lua.Patterns
