import Elua.Lua.PatternSyntax

/-!
# The ways to match are the matches

The list `ways` has what `Matches` allows, and nothing else (`mem_ways_iff`).
-/

set_option autoImplicit false
set_option relaxedAutoImplicit false

namespace Elua.Lua.Patterns

open Tables

variable {src : List UInt8} {captures captures' : List Capture} {s s' : ℕ}

/-! ### Repetitions -/

theorem run_of_le {test : UInt8 → Bool} (hs : src.length ≤ s) : run src test s = 0 := by
  rw [run, List.drop_eq_nil_of_le hs, List.takeWhile_nil, List.length_nil]

theorem run_of_lt {test : UInt8 → Bool} (hs : s < src.length) :
    run src test s = if test (byteAt src s) then run src test (s + 1) + 1 else 0 := by
  rw [run, byteAt, List.getD_eq_getElem _ _ hs, List.drop_eq_getElem_cons hs]
  by_cases htest : test src[s] = true
  · rw [if_pos htest, List.takeWhile_cons, if_pos htest, List.length_cons, run]
  · rw [if_neg htest, List.takeWhile_cons, if_neg htest, List.length_nil]

theorem repeats_succ {test : UInt8 → Bool} {k : ℕ} :
    Repeats src test s (k + 1) ↔ test (byteAt src s) = true ∧ Repeats src test (s + 1) k := by
  simp only [Repeats, Nat.forall_lt_succ_left, Nat.add_zero, Nat.add_assoc, Nat.add_comm 1]
  exact and_left_comm

theorem le_run_iff {test : UInt8 → Bool} (hs : s ≤ src.length) (k : ℕ) :
    k ≤ run src test s ↔ Repeats src test s k := by
  induction k generalizing s with
  | zero => exact iff_of_true (Nat.zero_le _) ⟨hs, fun i hi ↦ absurd hi (Nat.not_lt_zero i)⟩
  | succ k ih =>
    rcases Nat.lt_or_ge s src.length with hless | hle
    · rw [run_of_lt hless, repeats_succ, ← ih hless]
      by_cases hpass : test (byteAt src s) = true
      · rw [if_pos hpass, Nat.succ_le_succ_iff]
        exact (and_iff_right hpass).symm
      · rw [if_neg hpass]
        exact iff_of_false (Nat.not_succ_le_zero k) fun hboth ↦ hpass hboth.1
    · rw [run_of_le hle]
      exact iff_of_false (Nat.not_succ_le_zero k) fun hrepeats ↦ by
        have := hrepeats.1
        omega

theorem Repetition.mem_counts_iff {repetition : Repetition} {most k : ℕ} :
    k ∈ repetition.counts most ↔ repetition.Allows k ∧ k ≤ most := by
  cases repetition with
  | once =>
    rw [counts, List.mem_ite_nil_right, List.mem_singleton, Allows]
    exact ⟨fun h ↦ ⟨h.2, h.2 ▸ h.1⟩, fun h ↦ ⟨h.1 ▸ h.2, h.1⟩⟩
  | optional =>
    rw [counts, Allows]
    split_ifs with hone
    · rw [List.mem_cons, List.mem_singleton]
      omega
    · rw [List.mem_singleton]
      omega
  | star =>
    rw [counts, List.mem_reverse, List.mem_range, Nat.lt_succ_iff, Allows, true_and]
  | plus =>
    rw [counts, List.mem_map, Allows]
    simp only [List.mem_reverse, List.mem_range]
    refine ⟨?_, fun h ↦ ⟨k - 1, by omega, by omega⟩⟩
    rintro ⟨j, hj, rfl⟩
    omega
  | minus => rw [counts, List.mem_range, Nat.lt_succ_iff, Allows, true_and]

/-! ### Balanced texts -/

/-- So many closing characters more than opening ones. -/
def ClosesBy (b e : UInt8) (cont : ℕ) (inner : List UInt8) : Prop :=
  inner.count e = inner.countP (fun c ↦ c = b ∧ c ≠ e) + cont

theorem text_of_le {e : ℕ} (h : e ≤ s) : text src s e = [] := by
  rw [text, Nat.sub_eq_zero_of_le h, List.take_zero]

theorem text_of_lt {e : ℕ} (hless : s < e) (hinside : s < src.length) :
    text src s e = byteAt src s :: text src (s + 1) e := by
  obtain ⟨k, rfl⟩ := Nat.exists_eq_add_of_lt hless
  rw [text, text, List.drop_eq_getElem_cons hinside, byteAt, List.getD_eq_getElem _ _ hinside]
  have hlen : s + k + 1 - s = (s + k + 1 - (s + 1)) + 1 := by omega
  rw [hlen, List.take_succ_cons]

theorem closesBy_nil {b e : UInt8} {cont : ℕ} : ClosesBy b e cont [] ↔ cont = 0 := by
  rw [ClosesBy, List.count_nil, List.countP_nil, Nat.zero_add, eq_comm]

theorem closesBy_close {b e : UInt8} {cont : ℕ} (inner : List UInt8) :
    ClosesBy b e (cont + 1) (e :: inner) ↔ ClosesBy b e cont inner := by
  rw [ClosesBy, ClosesBy, List.count_cons_self, List.countP_cons_of_neg (by simp), ← Nat.add_assoc,
    Nat.succ_inj]

theorem closesBy_open {b e : UInt8} {cont : ℕ} (hne : b ≠ e) (inner : List UInt8) :
    ClosesBy b e cont (b :: inner) ↔ ClosesBy b e (cont + 1) inner := by
  rw [ClosesBy, ClosesBy, List.count_cons_of_ne hne, List.countP_cons_of_pos (by simp [hne])]
  omega

theorem closesBy_other {b e c : UInt8} {cont : ℕ} (hclose : c ≠ e) (hopen : c ≠ b)
    (inner : List UInt8) : ClosesBy b e cont (c :: inner) ↔ ClosesBy b e cont inner := by
  rw [ClosesBy, ClosesBy, List.count_cons_of_ne hclose, List.countP_cons_of_neg (by simp [hopen])]

/-- The first place where so many more are closed than are opened. -/
def BalancedBy (src : List UInt8) (b e : UInt8) (cont s s' : ℕ) : Prop :=
  s < s' ∧ s' ≤ src.length ∧ ClosesBy b e cont (text src s s') ∧
    ∀ s'' < s', ¬ ClosesBy b e cont (text src s s'')

theorem balancedBy_step {b e : UInt8} {cont cont' : ℕ} (hs : s < src.length) (hcont : 0 < cont)
    (hcont' : 0 < cont')
    (hstep : ∀ inner, ClosesBy b e cont (byteAt src s :: inner) ↔ ClosesBy b e cont' inner) :
    BalancedBy src b e cont s s' ↔ BalancedBy src b e cont' (s + 1) s' := by
  have hempty (n e' : ℕ) (hn : e' ≤ n) (k : ℕ) (hk : 0 < k) : ¬ ClosesBy b e k (text src n e') := by
    rw [text_of_le hn, closesBy_nil]
    exact Nat.ne_of_gt hk
  constructor
  · rintro ⟨hless, hinside, hcloses, hfirst⟩
    rw [text_of_lt hless hs, hstep] at hcloses
    refine ⟨Nat.lt_of_not_le fun hle ↦ hempty _ _ hle _ hcont' hcloses, hinside, hcloses,
      fun s'' hless' hcloses' ↦ ?_⟩
    rcases Nat.lt_or_ge s s'' with hafter | hbefore
    · refine hfirst s'' hless' ?_
      rw [text_of_lt hafter hs, hstep]
      exact hcloses'
    · exact hempty _ _ (Nat.le_succ_of_le hbefore) _ hcont' hcloses'
  · rintro ⟨hless, hinside, hcloses, hfirst⟩
    refine ⟨Nat.lt_of_succ_lt hless, hinside, ?_, fun s'' hless' hcloses' ↦ ?_⟩
    · rw [text_of_lt (Nat.lt_of_succ_lt hless) hs, hstep]
      exact hcloses
    · rcases Nat.lt_or_ge s s'' with hafter | hbefore
      · rw [text_of_lt hafter hs, hstep] at hcloses'
        exact hfirst s'' hless' hcloses'
      · exact hempty _ _ hbefore _ hcont hcloses'

theorem balancedBy_one {b e : UInt8} (hs : s < src.length) (hclose : byteAt src s = e) :
    BalancedBy src b e 1 s s' ↔ s' = s + 1 := by
  have hcloses : ClosesBy b e 1 (text src s (s + 1)) := by
    rw [text_of_lt (Nat.lt_succ_self s) hs, hclose, text_of_le (Nat.le_refl _), closesBy_close,
      closesBy_nil]
  constructor
  · rintro ⟨hless, -, -, hfirst⟩
    rcases Nat.lt_or_eq_of_le (Nat.succ_le_of_lt hless) with hlater | hsame
    · exact absurd hcloses (hfirst (s + 1) hlater)
    · exact hsame.symm
  · rintro rfl
    refine ⟨Nat.lt_succ_self s, hs, hcloses, fun s'' hless hcloses' ↦ ?_⟩
    rw [text_of_le (Nat.le_of_lt_succ hless), closesBy_nil] at hcloses'
    exact absurd hcloses' (by decide)

theorem balanceLoop_eq_some_iff {b e : UInt8} {left cont : ℕ} (hcont : 0 < cont)
    (hleft : left = src.length - s) :
    balanceLoop src b e left s cont = some s' ↔ BalancedBy src b e cont s s' := by
  induction left generalizing s cont with
  | zero =>
    refine ⟨fun hnone ↦ (by cases hnone), ?_⟩
    rintro ⟨hless, hinside, -⟩
    omega
  | succ left ih =>
    have hs : s < src.length := by omega
    rw [balanceLoop]
    by_cases hclose : byteAt src s = e
    · rw [if_pos hclose]
      by_cases hlast : cont = 1
      · rw [if_pos hlast, hlast, balancedBy_one hs hclose, Option.some_inj, eq_comm]
      · obtain ⟨cont, rfl⟩ := Nat.exists_eq_succ_of_ne_zero (Nat.ne_of_gt hcont)
        rw [if_neg hlast, Nat.succ_sub_one, ih (by omega) (by omega)]
        refine (balancedBy_step hs hcont (by omega) ?_).symm
        rw [hclose]
        exact closesBy_close
    rw [if_neg hclose]
    by_cases hopen : byteAt src s = b
    · rw [if_pos hopen, ih (Nat.succ_pos cont) (by omega)]
      refine (balancedBy_step hs hcont (Nat.succ_pos cont) ?_).symm
      rw [hopen] at hclose ⊢
      exact closesBy_open hclose
    · rw [if_neg hopen, ih hcont (by omega)]
      exact (balancedBy_step hs hcont hcont (closesBy_other hclose hopen)).symm

theorem matchbalance_eq_some_iff {b e : UInt8} :
    matchbalance src s b e = some s' ↔ Balanced src b e s s' := by
  rw [matchbalance, Balanced]
  by_cases hopen : byteAt src s = b
  · rw [if_neg (not_not.2 hopen), balanceLoop_eq_some_iff Nat.one_pos rfl]
    exact ⟨fun h ↦ ⟨hopen, h⟩, fun h ↦ h.2⟩
  · rw [if_pos hopen]
    exact iff_of_false (fun h ↦ by cases h) fun h ↦ hopen h.1

/-! ### Captures -/

/-- Which captures are unfinished. -/
def unfinishedOf (captures : List Capture) : List Bool :=
  captures.map fun capture ↦ decide (capture.len = capUnfinished)

/-- The matcher is inside the subject, and the captures start before. -/
structure Fits (src : List UInt8) (captures : List Capture) (s : ℕ) : Prop where
  inside : s ≤ src.length
  starts : ∀ capture ∈ captures, capture.init ≤ s

theorem getD_unfinishedOf (captures : List Capture) (l : ℕ) :
    (unfinishedOf captures).getD l false =
      decide ((captures.getD l ⟨0, 0⟩).len = capUnfinished) :=
  List.getD_map captures (⟨0, 0⟩ : Capture) fun capture ↦ decide (capture.len = capUnfinished)

theorem captureToClose_eq (captures : List Capture) (level : ℕ) :
    captureToClose captures level = lastUnfinished (unfinishedOf captures) level := by
  induction level with
  | zero => rfl
  | succ level ih =>
    rw [captureToClose, lastUnfinished, getD_unfinishedOf, ih]
    simp only [decide_eq_true_eq]

theorem getD_append_cons (before after : List Capture) (capture : Capture) :
    (before ++ capture :: after).getD before.length ⟨0, 0⟩ = capture := by
  rw [List.getD_append_right _ _ _ _ (Nat.le_refl _), Nat.sub_self, List.getD_cons_zero]

theorem captureToClose_append (captures others : List Capture) {level : ℕ}
    (hlevel : level ≤ captures.length) :
    captureToClose (captures ++ others) level = captureToClose captures level := by
  induction level with
  | zero => rfl
  | succ level ih =>
    rw [captureToClose, captureToClose, ih (Nat.le_of_succ_le hlevel),
      List.getD_append _ _ _ _ hlevel]

theorem captureToClose_concat (captures : List Capture) (last : Capture) :
    captureToClose (captures ++ [last]) (captures ++ [last]).length =
      if last.len = capUnfinished then some captures.length
      else captureToClose captures captures.length := by
  rw [List.length_append, List.length_singleton, captureToClose, getD_append_cons,
    captureToClose_append _ _ (Nat.le_refl _)]

/-- The last unfinished capture is closed. -/
theorem captureToClose_eq_some_iff {l : ℕ} :
    captureToClose captures captures.length = some l ↔
      ∃ before capture after, captures = before ++ capture :: after ∧ before.length = l ∧
        capture.len = capUnfinished ∧ ∀ later ∈ after, later.len ≠ capUnfinished := by
  induction captures using List.reverseRecOn with
  | nil =>
    refine ⟨fun hnone ↦ (by cases hnone), ?_⟩
    rintro ⟨before, capture, after, hnil, -⟩
    cases before <;> cases hnil
  | append_singleton captures last ih =>
    rw [captureToClose_concat]
    constructor
    · intro hl
      split_ifs at hl with hlast
      · exact ⟨captures, last, [], rfl, Option.some.inj hl, hlast, fun _ hmem ↦ (by cases hmem)⟩
      · obtain ⟨before, capture, after, rfl, hlen, hunfinished, hlater⟩ := ih.1 hl
        refine ⟨before, capture, after ++ [last], List.append_assoc .., hlen, hunfinished,
          List.forall_mem_append.2 ⟨hlater, List.forall_mem_singleton.2 hlast⟩⟩
    · rintro ⟨before, capture, after, heq, hlen, hunfinished, hlater⟩
      rcases List.eq_nil_or_concat after with rfl | ⟨after, last', rfl⟩
      · obtain ⟨rfl, hlast⟩ := List.append_inj' heq rfl
        obtain rfl := List.singleton_inj.1 hlast
        rw [if_pos hunfinished, hlen]
      · rw [List.concat_eq_append] at heq hlater
        rw [← List.cons_append, ← List.append_assoc] at heq
        obtain ⟨rfl, hlast⟩ := List.append_inj' heq rfl
        obtain rfl := List.singleton_inj.1 hlast
        obtain ⟨hlater, hlast⟩ := List.forall_mem_append.1 hlater
        rw [if_neg (hlast last (List.mem_singleton_self last))]
        exact ih.2 ⟨before, capture, after, rfl, hlen, hunfinished, hlater⟩

theorem setLen_append (before after : List Capture) (capture : Capture) (len : ℤ) :
    setLen (before ++ capture :: after) before.length len =
      before ++ { capture with len := len } :: after := by
  rw [setLen]
  induction before with
  | nil => rfl
  | cons first before ih =>
    rw [List.cons_append, List.length_cons, List.modify_succ_cons, ih, List.cons_append]

theorem Fits.mono {s' : ℕ} (hfits : Fits src captures s) (hle : s ≤ s') (hinside : s' ≤ src.length) :
    Fits src captures s' :=
  ⟨hinside, fun capture hmem ↦ (hfits.starts capture hmem).trans hle⟩

theorem Fits.append (hfits : Fits src captures s) (len : ℤ) : Fits src (captures ++ [⟨s, len⟩]) s := by
  refine ⟨hfits.inside, fun capture hmem ↦ ?_⟩
  rcases List.mem_append.1 hmem with hold | hnew
  · exact hfits.starts capture hold
  · rw [List.mem_singleton.1 hnew]

theorem unfinishedOf_append_cons (before after : List Capture) (capture : Capture) :
    unfinishedOf (before ++ capture :: after) =
      unfinishedOf before ++ decide (capture.len = capUnfinished) :: unfinishedOf after := by
  rw [unfinishedOf, List.map_append, List.map_cons]
  rfl

/-! ### Items -/

theorem matchCapture_eq_some_iff {l : ℕ} {capture : Capture} (hl : captures[l]? = some capture)
    (hs : s ≤ src.length) :
    matchCapture src captures s l = some s' ↔ 0 ≤ capture.len ∧ (s' : ℤ) = s + capture.len ∧
      s' ≤ src.length ∧
        text src s s' = text src capture.init (capture.init + capture.len.toNat) := by
  have hget : captures.getD l ⟨0, 0⟩ = capture := by
    rw [List.getD_eq_getElem?_getD, hl, Option.getD_some]
  rw [matchCapture, hget]
  constructor
  · intro hsome
    split_ifs at hsome with hmatch
    obtain ⟨hpos, hfits, hsame⟩ := hmatch
    obtain rfl := Option.some.inj hsome
    refine ⟨hpos, by omega, by omega, ?_⟩
    rw [text, text, Nat.add_sub_cancel_left, Nat.add_sub_cancel_left, hsame]
  · rintro ⟨hpos, hend, hinside, hsame⟩
    have hend' : s' = s + capture.len.toNat := by omega
    rw [text, text, hend', Nat.add_sub_cancel_left, Nat.add_sub_cancel_left] at hsame
    rw [if_pos ⟨hpos, by omega, hsame.symm⟩, hend']

theorem mem_ways_item_iff {item : Item} {flags : List Bool} (hfits : Fits src captures s)
    (hflags : item.unfinished (unfinishedOf captures) = some flags) :
    (captures', s') ∈ item.ways src captures s ↔ item.Takes src captures s captures' s' := by
  cases item with
  | single test repetition =>
    rw [Item.ways, Item.Takes, List.mem_map]
    constructor
    · rintro ⟨k, hk, heq⟩
      obtain ⟨rfl, rfl⟩ := Prod.mk.inj heq
      obtain ⟨hallows, hle⟩ := Repetition.mem_counts_iff.1 hk
      exact ⟨rfl, k, rfl, hallows, (le_run_iff hfits.inside k).1 hle⟩
    · rintro ⟨rfl, k, rfl, hallows, hrepeats⟩
      exact ⟨k, Repetition.mem_counts_iff.2 ⟨hallows, (le_run_iff hfits.inside k).2 hrepeats⟩, rfl⟩
  | balance b e =>
    rw [Item.ways, Item.Takes, List.mem_map]
    constructor
    · rintro ⟨s'', hs'', heq⟩
      obtain ⟨rfl, rfl⟩ := Prod.mk.inj heq
      exact ⟨rfl, matchbalance_eq_some_iff.1 (Option.mem_toList.1 hs'')⟩
    · rintro ⟨rfl, hbalanced⟩
      exact ⟨s', Option.mem_toList.2 (matchbalance_eq_some_iff.2 hbalanced), rfl⟩
  | frontier test =>
    rw [Item.ways, Item.Takes, List.mem_ite_nil_right, List.mem_singleton, Prod.mk.injEq, and_comm,
      and_assoc]
  | back l =>
    rw [Item.ways, Item.Takes, List.mem_map]
    have hless : l.toNat - 49 < captures.length := by
      rw [Item.unfinished] at hflags
      split_ifs at hflags with husable
      have hless := husable.2.1
      rwa [unfinishedOf, List.length_map] at hless
    have hl : captures[l.toNat - 49]? = some captures[l.toNat - 49] := List.getElem?_eq_getElem hless
    constructor
    · rintro ⟨s'', hs'', heq⟩
      obtain ⟨rfl, rfl⟩ := Prod.mk.inj heq
      exact ⟨rfl, _, hl, (matchCapture_eq_some_iff hl hfits.inside).1 (Option.mem_toList.1 hs'')⟩
    · rintro ⟨rfl, capture, hl', htakes⟩
      exact ⟨s', Option.mem_toList.2 ((matchCapture_eq_some_iff hl' hfits.inside).2 htakes), rfl⟩
  | opening => rw [Item.ways, Item.Takes, List.mem_singleton, Prod.mk.injEq]
  | position => rw [Item.ways, Item.Takes, List.mem_singleton, Prod.mk.injEq]
  | closing =>
    rw [Item.ways, Item.Takes, List.mem_map]
    constructor
    · rintro ⟨l, hl, heq⟩
      obtain ⟨rfl, rfl⟩ := Prod.mk.inj heq
      obtain ⟨before, capture, after, rfl, rfl, hunfinished, hlater⟩ :=
        captureToClose_eq_some_iff.1 (Option.mem_toList.1 hl)
      rw [getD_append_cons, setLen_append]
      exact ⟨rfl, before, capture, after, rfl, hunfinished, hlater, rfl⟩
    · rintro ⟨rfl, before, capture, after, rfl, hunfinished, hlater, rfl⟩
      refine ⟨before.length, Option.mem_toList.2 (captureToClose_eq_some_iff.2
        ⟨before, capture, after, rfl, rfl, hunfinished, hlater⟩), ?_⟩
      rw [getD_append_cons, setLen_append]
  | atEnd =>
    rw [Item.ways, Item.Takes, List.mem_ite_nil_right, List.mem_singleton, Prod.mk.injEq, and_comm,
      and_assoc]

/-- Whether captures are unfinished after an item does not depend on how it has matched. -/
theorem takes_keep {item : Item} {flags : List Bool} (hfits : Fits src captures s)
    (hflags : item.unfinished (unfinishedOf captures) = some flags)
    (htakes : item.Takes src captures s captures' s') :
    unfinishedOf captures' = flags ∧ Fits src captures' s' := by
  cases item with
  | single test repetition =>
    obtain rfl := Option.some.inj hflags
    obtain ⟨rfl, k, rfl, -, hinside, -⟩ := htakes
    exact ⟨rfl, hfits.mono (Nat.le_add_right s k) hinside⟩
  | balance b e =>
    obtain rfl := Option.some.inj hflags
    obtain ⟨rfl, -, hless, hinside, -⟩ := htakes
    exact ⟨rfl, hfits.mono (by omega) hinside⟩
  | frontier test =>
    obtain rfl := Option.some.inj hflags
    obtain ⟨rfl, rfl, -⟩ := htakes
    exact ⟨rfl, hfits⟩
  | back l =>
    rw [Item.unfinished] at hflags
    split_ifs at hflags
    obtain rfl := Option.some.inj hflags
    obtain ⟨rfl, capture, -, hlen, hend, hinside, -⟩ := htakes
    exact ⟨rfl, hfits.mono (by omega) hinside⟩
  | opening =>
    rw [Item.unfinished] at hflags
    split_ifs at hflags
    obtain rfl := Option.some.inj hflags
    obtain ⟨rfl, rfl⟩ := htakes
    exact ⟨List.map_append, hfits.append _⟩
  | position =>
    rw [Item.unfinished] at hflags
    split_ifs at hflags
    obtain rfl := Option.some.inj hflags
    obtain ⟨rfl, rfl⟩ := htakes
    exact ⟨List.map_append, hfits.append _⟩
  | closing =>
    obtain ⟨rfl, before, capture, after, rfl, hunfinished, hlater, rfl⟩ := htakes
    have hlen : (unfinishedOf (before ++ capture :: after)).length =
        (before ++ capture :: after).length := List.length_map _
    have hstart : capture.init ≤ s' := hfits.starts capture (List.mem_append_cons_self ..)
    rw [Item.unfinished, hlen, ← captureToClose_eq, captureToClose_eq_some_iff.2
      ⟨before, capture, after, rfl, rfl, hunfinished, hlater⟩, Option.map_some] at hflags
    obtain rfl := Option.some.inj hflags
    refine ⟨?_, hfits.inside, fun later hmem ↦ ?_⟩
    · have hfinished : ¬ (s' - capture.init : ℤ) = capUnfinished := by
        rw [capUnfinished]
        omega
      have hbefore : (unfinishedOf before).length = before.length := List.length_map _
      rw [unfinishedOf_append_cons, unfinishedOf_append_cons, decide_eq_false hfinished, ← hbefore,
        List.set_append_right _ _ (Nat.le_refl _), Nat.sub_self, List.set_cons_zero]
    · rcases List.mem_append.1 hmem with hold | hmem
      · exact hfits.starts later (List.mem_append_left _ hold)
      · rcases List.mem_cons.1 hmem with rfl | hold
        · exact hstart
        · exact hfits.starts later (List.mem_append_right _ (List.mem_cons_of_mem _ hold))
  | atEnd =>
    obtain rfl := Option.some.inj hflags
    obtain ⟨rfl, rfl, -⟩ := htakes
    exact ⟨rfl, hfits⟩

theorem mem_ways_iff {items : List Item} (hwell : wellCaptured items (unfinishedOf captures) = true)
    (hfits : Fits src captures s) :
    (captures', s') ∈ ways src items captures s ↔ Matches src items captures s captures' s' := by
  induction items generalizing captures s with
  | nil => rw [ways, Matches, List.mem_singleton, Prod.mk.injEq]
  | cons item items ih =>
    rw [wellCaptured] at hwell
    rcases hflags : item.unfinished (unfinishedOf captures) with - | flags
    · rw [hflags] at hwell
      cases hwell
    rw [hflags] at hwell
    rw [ways, Matches, List.mem_flatMap]
    have hnext {way : List Capture × ℕ} (hway : way ∈ item.ways src captures s) :
        (captures', s') ∈ ways src items way.1 way.2 ↔
          Matches src items way.1 way.2 captures' s' := by
      obtain ⟨hkeep, hfits'⟩ := takes_keep hfits hflags ((mem_ways_item_iff hfits hflags).1 hway)
      refine ih ?_ hfits'
      rw [hkeep]
      exact hwell
    constructor
    · rintro ⟨way, hway, hrest⟩
      exact ⟨way.1, way.2, (mem_ways_item_iff hfits hflags).1 hway, (hnext hway).1 hrest⟩
    · rintro ⟨captures'', s'', htakes, hmatches⟩
      have hway := (mem_ways_item_iff hfits hflags).2 htakes
      exact ⟨_, hway, (hnext hway).2 hmatches⟩

theorem fits_nil (hs : s ≤ src.length) : Fits src [] s :=
  ⟨hs, fun _ hmem ↦ (by cases hmem)⟩

end Elua.Lua.Patterns
