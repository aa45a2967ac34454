import Elua.CommonFs.WalkRuns
import Mathlib.Data.List.Flatten
import Mathlib.Data.List.Nodup
import Mathlib.Data.List.Perm.Subperm
import Mathlib.Logic.Relation

/-!
# When the directory walker is complete

A recursive walk is to pass every entry that matches, in every directory at any depth, exactly once,
to stop when the callback returns 0, and to close every directory that it opens.

`walksCompletely_iff` says when it does. The walk descends from a directory only if one of its
subdirectories matches the pattern itself, or if the flag for that happens to be set before. So it
is complete if every directory with entries that match further below has a subdirectory that
matches. The stops and the closed directories are never at fault.
-/

set_option autoImplicit false
set_option relaxedAutoImplicit false

namespace Elua.CommonFs

open Foundation

/-! ### What is expected -/

/-- A walk can come to a directory: there is memory for the paths, and the directories can be
opened. -/
inductive Visits (tree : DirectoryTree) (around : Surroundings) (dir : Path) : Path → Prop
  | start (hopens : around.opens dir = true) : Visits tree around dir dir
  | step {path child : Path} (hvisits : Visits tree around dir path)
      (hreopens : around.reopens path = true)
      (hchild : child ∈ subpaths around.allocates path (tree.listing path))
      (hopens : around.opens child = true) : Visits tree around dir child

/-- An entry of a directory matches. -/
def Found (tree : DirectoryTree) (pattern path : Path) (ent : DmDirent) : Prop :=
  ent ∈ tree.listing path ∧ cmnPatternMatches ent.fname pattern = true

/-- What is expected of a walk. -/
structure Walked (tree : DirectoryTree) (around : Surroundings) (dir pattern : Path)
    (events : List Event) : Prop where
  once : (passed events).Nodup
  sound : ∀ path ent, (path, ent) ∈ passed events →
    Visits tree around dir path ∧ Found tree pattern path ent
  complete : GoesOn events → ∀ path ent, Visits tree around dir path → Found tree pattern path ent →
    (path, ent) ∈ passed events
  stops : ∀ before call after, events = before ++ .called call 0 :: after → Quiet after
  closes : liveDirs [] events = some []

/-- Every recursive walk of a path does what is expected. -/
def WalksCompletely (tree : DirectoryTree) (path : CString) : Prop :=
  ∀ (around : Surroundings) (Data : Type) (cb : Callback Data) (pdata : Data) (dir pattern : Path),
    cmnFsSplitPath tree.opensFile around.duplicates path.bytes = some (dir, pattern) →
      Walked tree around dir pattern (cmnFsWalkdir tree around path cb pdata true).2

/-- A directory is at or below another. -/
def Below (tree : DirectoryTree) : Path → Path → Prop :=
  Relation.ReflTransGen (IsChild tree.listing)

/-- Every directory at or below a directory, with a match further below, has a subdirectory that
matches. -/
def LeadsDownFrom (tree : DirectoryTree) (pattern dir : Path) : Prop :=
  ∀ inner, Below tree dir inner →
    (∃ child found ent, IsChild tree.listing inner child ∧ Below tree child found ∧
      Found tree pattern found ent) →
    ∃ sub, sub.isDir = true ∧ Found tree pattern inner sub

/-- The subdirectories that match lead down to all matches below the directory of a path. -/
def LeadsDown (tree : DirectoryTree) (path : CString) : Prop :=
  ∀ dir pattern, cmnFsSplitPath tree.opensFile true path.bytes = some (dir, pattern) →
    LeadsDownFrom tree pattern dir

/-! ### All entries -/

variable {tree : DirectoryTree} {around : Surroundings} {pattern : Path}

/-- All entries that a walk can come to. -/
def allListed (tree : DirectoryTree) (around : Surroundings) (pattern : Path) :
    Path → List (Path × DmDirent) :=
  listed tree around pattern fun _ ↦ true

/-- The entries that the code's walk passes. -/
def codeListed (tree : DirectoryTree) (around : Surroundings) (pattern : Path) :
    Path → List (Path × DmDirent) :=
  listed tree around pattern (flagged tree around pattern)

theorem mem_matching {entries : List DmDirent} {ent : DmDirent} :
    ent ∈ matching entries pattern ↔
      ent ∈ entries ∧ cmnPatternMatches ent.fname pattern = true :=
  List.mem_filter

/-- What can be reached from a subdirectory can be reached from the directory. -/
theorem Visits.of_child {dir child path : Path} (hopens : around.opens dir = true)
    (hreopens : around.reopens dir = true)
    (hchild : child ∈ subpaths around.allocates dir (tree.listing dir))
    (hvisits : Visits tree around child path) : Visits tree around dir path := by
  induction hvisits with
  | start hopens' => exact .step (.start hopens) hreopens hchild hopens'
  | step _ hreopens' hchild' hopens' ih => exact .step ih hreopens' hchild' hopens'

theorem Visits.opens {dir path : Path} (hvisits : Visits tree around dir path) :
    around.opens dir = true := by
  induction hvisits with
  | start hopens => exact hopens
  | step _ _ _ _ ih => exact ih

/-- What can be reached is the directory, or can be reached from a subdirectory. -/
theorem Visits.eq_or_child {dir path : Path} (hvisits : Visits tree around dir path) :
    path = dir ∨ around.reopens dir = true ∧
      ∃ child ∈ subpaths around.allocates dir (tree.listing dir),
        Visits tree around child path := by
  induction hvisits with
  | start _ => exact .inl rfl
  | step _ hreopens hchild hopens ih =>
    refine .inr ?_
    obtain rfl | ⟨hreopens', child', hchild', hvisits'⟩ := ih
    · exact ⟨hreopens, _, hchild, .start hopens⟩
    · exact ⟨hreopens', child', hchild', .step hvisits' hreopens hchild hopens⟩

/-- All entries are the matches in the directories that can be reached. -/
theorem mem_allListed_iff {dir path : Path} {ent : DmDirent} :
    (path, ent) ∈ allListed tree around pattern dir ↔
      Visits tree around dir path ∧ Found tree pattern path ent := by
  induction dir using tree.induction with
  | hstep dir ih =>
    unfold allListed at ih ⊢
    rw [listed_eq, Bool.true_and]
    by_cases hopens : around.opens dir = true
    · rw [if_pos hopens, List.mem_append, List.mem_map]
      constructor
      · rintro (⟨ent, hmem, heq⟩ | hbelow)
        · obtain ⟨rfl, rfl⟩ := Prod.mk.inj heq
          exact ⟨.start hopens, mem_matching.mp hmem⟩
        · split_ifs at hbelow with hreopens
          · obtain ⟨child, hchild, hmem⟩ := List.mem_flatMap.mp hbelow
            obtain ⟨hvisits, hfound⟩ := (ih child (isChild_of_mem_subpaths hchild)).mp hmem
            exact ⟨hvisits.of_child hopens hreopens hchild, hfound⟩
          · cases hbelow
      · rintro ⟨hvisits, hfound⟩
        obtain rfl | ⟨hreopens, child, hchild, hvisits⟩ := hvisits.eq_or_child
        · exact .inl ⟨ent, mem_matching.mpr hfound, rfl⟩
        · rw [if_pos hreopens]
          exact .inr (List.mem_flatMap.mpr
            ⟨child, hchild, (ih child (isChild_of_mem_subpaths hchild)).mpr ⟨hvisits, hfound⟩⟩)
    · rw [if_neg hopens]
      exact iff_of_false List.not_mem_nil fun hboth ↦ hopens hboth.1.opens

/-- The code passes some of all entries, in the same order. -/
theorem codeListed_sublist (dir : Path) :
    (codeListed tree around pattern dir).Sublist (allListed tree around pattern dir) := by
  induction dir using tree.induction with
  | hstep dir ih =>
    unfold codeListed allListed at ih ⊢
    rw [listed_eq, listed_eq, Bool.true_and]
    by_cases hopens : around.opens dir = true
    · rw [if_pos hopens, if_pos hopens]
      refine (List.Sublist.refl _).append ?_
      by_cases hboth : (flagged tree around pattern dir && around.reopens dir) = true
      · rw [if_pos hboth, if_pos (Bool.and_eq_true_iff.mp hboth).2]
        exact List.Sublist.flatMap_right _ fun child hchild ↦
          ih child (isChild_of_mem_subpaths hchild)
      · rw [if_neg hboth]
        exact List.nil_sublist _
    · rw [if_neg hopens]
      exact List.nil_sublist _

/-! ### No entry twice -/

/-- The path of a subdirectory. -/
theorem exists_of_isChild {path child : Path} (hchild : IsChild tree.listing path child) :
    ∃ ent ∈ tree.listing path, IsName ent.fname ∧ child = base path ++ ent.fname := by
  obtain ⟨ent, hmem, -, rfl⟩ := hchild
  have hname := tree.isName path ent hmem
  exact ⟨ent, hmem, hname, joined_name hname path⟩

/-- What can be reached is the directory, or begins with it. -/
theorem Visits.eq_or_begins {dir path : Path} (hvisits : Visits tree around dir path) :
    path = dir ∨ base dir <+: path := by
  induction hvisits with
  | start _ => exact .inl rfl
  | step _ _ hchild _ ih =>
    obtain ⟨ent, -, -, rfl⟩ := exists_of_isChild (isChild_of_mem_subpaths hchild)
    refine .inr ?_
    obtain rfl | ⟨rest, rfl⟩ := ih
    · exact List.prefix_append _ _
    · obtain ⟨first, hfirst, -⟩ := exists_base_eq_cons dir
      have hlonger : base dir ++ rest <+: base (base dir ++ rest) := by
        rw [hfirst, List.cons_append, base_cons_slash]
        exact prefix_withSlash _
      exact (List.prefix_append _ _).trans (hlonger.trans (List.prefix_append _ _))

/-- What can be reached from a subdirectory tells its name. -/
theorem Visits.firstName_eq {dir path name : Path} (hname : IsName name)
    (hvisits : Visits tree around (base dir ++ name) path) : firstName dir path = name := by
  obtain rfl | hbegins := hvisits.eq_or_begins
  · exact firstName_name hname dir
  · rw [base_append_name hname] at hbegins
    exact firstName_of_prefix hname hbegins

/-- What can be reached from a subdirectory is not the directory. -/
theorem Visits.length_lt {dir path name : Path} (hname : IsName name)
    (hvisits : Visits tree around (base dir ++ name) path) : dir.length < path.length := by
  refine (length_lt_of_name hname dir).trans_le ?_
  obtain rfl | hbegins := hvisits.eq_or_begins
  · exact Nat.le_refl _
  · rw [base_append_name hname] at hbegins
    exact (List.prefix_append _ _).length_le.trans hbegins.length_le

/-- Different subdirectories have no entries in common. -/
theorem pairwise_subpaths (dir : Path) :
    (subpaths around.allocates dir (tree.listing dir)).Pairwise
      (Function.onFun List.Disjoint (allListed tree around pattern)) := by
  have hlisting : (tree.listing dir).Pairwise fun first second ↦ first.fname ≠ second.fname :=
    List.pairwise_map.mp (tree.nodup dir)
  refine List.pairwise_map.mpr ((hlisting.imp_of_mem ?_).filter _)
  rintro first second hfirst hsecond hdiffer ⟨path, ent⟩ hmem hmem'
  have hname := tree.isName dir first hfirst
  have hname' := tree.isName dir second hsecond
  rw [joined_name hname] at hmem
  rw [joined_name hname'] at hmem'
  refine hdiffer ?_
  rw [← (mem_allListed_iff.mp hmem).1.firstName_eq hname,
    (mem_allListed_iff.mp hmem').1.firstName_eq hname']

/-- No entry is listed twice. -/
theorem nodup_allListed (dir : Path) : (allListed tree around pattern dir).Nodup := by
  induction dir using tree.induction with
  | hstep dir ih =>
    have hown : ((matching (tree.listing dir) pattern).map fun ent ↦ (dir, ent)).Nodup :=
      ((List.Nodup.of_map _ (tree.nodup dir)).filter _).map fun _ _ heq ↦ (Prod.mk.inj heq).2
    unfold allListed at ih ⊢
    rw [listed_eq, Bool.true_and]
    split_ifs
    · refine List.nodup_append'.mpr ⟨hown, List.nodup_flatMap.mpr ⟨fun child hchild ↦
        ih child (isChild_of_mem_subpaths hchild), pairwise_subpaths dir⟩, ?_⟩
      rintro ⟨path, ent⟩ hmem hbelow
      obtain ⟨ent, -, heq⟩ := List.mem_map.mp hmem
      obtain ⟨rfl, -⟩ := Prod.mk.inj heq
      obtain ⟨child, hchild, hmem⟩ := List.mem_flatMap.mp hbelow
      obtain ⟨sub, -, hname, rfl⟩ := exists_of_isChild (isChild_of_mem_subpaths hchild)
      exact Nat.lt_irrefl _ ((mem_allListed_iff.mp hmem).1.length_lt hname)
    · rw [List.append_nil]
      exact hown
    · exact List.nodup_nil

/-! ### The entries of the code -/

/-- What a walk can come to is at or below the directory. -/
theorem Visits.isBelow {dir path : Path} (hvisits : Visits tree around dir path) :
    Below tree dir path := by
  induction hvisits with
  | start _ => exact .refl
  | step _ _ hchild _ ih => exact ih.tail (isChild_of_mem_subpaths hchild)

theorem any_matching_iff {path : Path} :
    (matching (tree.listing path) pattern).any DmDirent.isDir = true ↔
      ∃ sub, sub.isDir = true ∧ Found tree pattern path sub := by
  rw [List.any_eq_true]
  constructor
  · rintro ⟨sub, hmem, hdir⟩
    exact ⟨sub, hdir, mem_matching.mp hmem⟩
  · rintro ⟨sub, hdir, hfound⟩
    exact ⟨sub, mem_matching.mpr hfound, hdir⟩

/-- The code passes all entries if the matches lead down to them. -/
theorem codeListed_eq {dir : Path} (hleads : LeadsDownFrom tree pattern dir) :
    codeListed tree around pattern dir = allListed tree around pattern dir := by
  induction dir using tree.induction with
  | hstep dir ih =>
    have hchildren : ∀ child ∈ subpaths around.allocates dir (tree.listing dir),
        codeListed tree around pattern child = allListed tree around pattern child := by
      intro child hchild
      have hstep := isChild_of_mem_subpaths hchild
      exact ih child hstep fun inner hinner ↦ hleads inner (hinner.head hstep)
    unfold codeListed allListed at hchildren ⊢
    rw [listed_eq, listed_eq, Bool.true_and]
    by_cases hopens : around.opens dir = true
    · rw [if_pos hopens, if_pos hopens]
      refine congrArg _ ?_
      by_cases hreopens : around.reopens dir = true
      · by_cases hflag : flagged tree around pattern dir = true
        · rw [hflag, hreopens]
          exact List.flatMap_congr hchildren
        · rw [if_neg fun hboth ↦ hflag (Bool.and_eq_true_iff.mp hboth).1, if_pos hreopens]
          -- the walk does not descend, but nothing matches below
          refine (List.flatMap_eq_nil_iff.mpr fun child hchild ↦ ?_).symm
          refine List.eq_nil_iff_forall_not_mem.mpr ?_
          rintro ⟨path, ent⟩ hmem
          obtain ⟨hvisits, hfound⟩ := mem_allListed_iff.mp hmem
          have hsub := hleads dir .refl ⟨child, path, ent, isChild_of_mem_subpaths hchild,
            hvisits.isBelow, hfound⟩
          exact hflag (Bool.or_eq_true_iff.mpr (.inr (any_matching_iff.mpr hsub)))
      · rw [if_neg hreopens, if_neg fun hboth ↦ hreopens (Bool.and_eq_true_iff.mp hboth).2]
    · rw [if_neg hopens, if_neg hopens]

/-- Lists that are built alike from parts of which each is shorter have the same parts. -/
theorem eq_of_flatMap_eq {First Second : Type} {list : List First}
    {some all : First → List Second} (hsub : ∀ item ∈ list, (some item).Sublist (all item))
    (heq : list.flatMap some = list.flatMap all) : ∀ item ∈ list, some item = all item := by
  induction list with
  | nil => exact List.forall_mem_nil _
  | cons item list ih =>
    obtain ⟨hfirst, hrest⟩ := List.forall_mem_cons.mp hsub
    rw [List.flatMap_cons, List.flatMap_cons] at heq
    have hlength := congrArg List.length heq
    have hle := (List.Sublist.flatMap_right list hrest).length_le
    rw [List.length_append, List.length_append] at hlength
    have hitem := hfirst.eq_of_length_le (by omega)
    rw [hitem] at heq
    exact List.forall_mem_cons.mpr ⟨hitem, ih hrest (List.append_cancel_left heq)⟩

/-- Everything succeeds, and the flag is never set before. -/
def undisturbed : Surroundings where
  opens _ := true
  reopens _ := true
  allocates _ := true
  duplicates := true
  hasdirs _ := false

theorem mem_subpaths_of_isChild {path child : Path} (hchild : IsChild tree.listing path child) :
    child ∈ subpaths undisturbed.allocates path (tree.listing path) := by
  obtain ⟨ent, hmem, hdir, rfl⟩ := hchild
  exact List.mem_map_of_mem (List.mem_filter.mpr ⟨hmem, by rw [hdir]; rfl⟩)

theorem visits_undisturbed {dir path : Path} (hbelow : Below tree dir path) :
    Visits tree undisturbed dir path := by
  induction hbelow with
  | refl => exact .start rfl
  | tail _ hchild ih => exact .step ih rfl (mem_subpaths_of_isChild hchild) rfl

/-- If the code passes all entries even so, the matches lead down to them. -/
theorem leadsDownFrom_of_codeListed_eq {dir : Path}
    (heq : codeListed tree undisturbed pattern dir = allListed tree undisturbed pattern dir) :
    LeadsDownFrom tree pattern dir := by
  induction dir using tree.induction with
  | hstep dir ih =>
    have hsub : ∀ child, (codeListed tree undisturbed pattern child).Sublist
        (allListed tree undisturbed pattern child) := codeListed_sublist
    have hparts : ((if flagged tree undisturbed pattern dir = true then
          (subpaths undisturbed.allocates dir (tree.listing dir)).flatMap
            (codeListed tree undisturbed pattern) else []) =
        (subpaths undisturbed.allocates dir (tree.listing dir)).flatMap
          (allListed tree undisturbed pattern)) := by
      unfold codeListed allListed at heq ⊢
      rw [listed_eq, listed_eq] at heq
      have hbelow := List.append_cancel_left heq
      rw [show undisturbed.reopens dir = true from rfl, Bool.and_true] at hbelow
      exact hbelow
    by_cases hflag : flagged tree undisturbed pattern dir = true
    · rw [if_pos hflag] at hparts
      intro inner hinner hmatch
      obtain rfl | ⟨child, hchild, hinner⟩ := hinner.cases_head
      · exact any_matching_iff.mp hflag
      · have hmem := mem_subpaths_of_isChild hchild
        exact ih child hchild (eq_of_flatMap_eq (fun child _ ↦ hsub child) hparts child hmem)
          inner hinner hmatch
    · rw [if_neg hflag] at hparts
      -- without a flag nothing may match below
      have hnone := List.flatMap_eq_nil_iff.mp hparts.symm
      rintro inner hinner ⟨child, found, ent, hchild, hfound, hmatch⟩
      exfalso
      have hbelow : Below tree inner found := hfound.head hchild
      obtain rfl | ⟨first, hfirst, hinner⟩ := hinner.cases_head
      · have hmem := mem_allListed_iff.mpr ⟨visits_undisturbed hfound, hmatch⟩
        rw [hnone child (mem_subpaths_of_isChild hchild)] at hmem
        cases hmem
      · have hmem := mem_allListed_iff.mpr ⟨visits_undisturbed (hinner.trans hbelow), hmatch⟩
        rw [hnone first (mem_subpaths_of_isChild hfirst)] at hmem
        cases hmem

/-! ### Complete walks -/

/-- A run of the code does what is expected if it passes all entries. -/
theorem walked_of_codeListed_eq {dir : Path} {Data : Type} (cb : Callback Data) (pdata : Data)
    (heq : codeListed tree around pattern dir = allListed tree around pattern dir) :
    Walked tree around dir pattern
      (cmnFsActualWalkdir tree around pattern cb true dir ⟨[], pdata, 0⟩).2.events := by
  obtain ⟨events, hevents, -, -, hpart⟩ :=
    walks_cmnFsActualWalkdir tree around pattern cb dir ⟨[], pdata, 0⟩
  rw [hevents]
  change Walked tree around dir pattern events
  have hsome : passed events <+: allListed tree around pattern dir := by
    rw [← heq]
    exact hpart.passed_isPrefix
  refine ⟨(nodup_allListed dir).sublist hsome.sublist,
    fun path ent hmem ↦ mem_allListed_iff.mp (hsome.subset hmem), ?_, ?_,
    hpart.live [] (List.forall_mem_nil _)⟩
  · intro hon path ent hvisits hfound
    have hall : passed events = allListed tree around pattern dir := by
      rw [← heq]
      exact hpart.passed_eq hon
    rw [hall]
    exact mem_allListed_iff.mpr ⟨hvisits, hfound⟩
  · rintro before call after rfl
    exact hpart.quiet

/-- The memory for the directory of a path does not change it. -/
theorem cmnFsSplitPath_of_duplicates {opensFile : Path → Bool} {duplicates : Bool}
    {path dir : Path} (hsplit : cmnFsSplitPath opensFile duplicates path = some (dir, pattern)) :
    cmnFsSplitPath opensFile true path = some (dir, pattern) := by
  cases duplicates with
  | true => exact hsplit
  | false =>
    simp only [cmnFsSplitPath, Bool.false_eq_true, if_false, ite_self] at hsplit
    cases hsplit

/-- The matches lead down if every walk does what is expected. -/
theorem leadsDown_of_walksCompletely {tree : DirectoryTree} {path : CString}
    (hcompletely : WalksCompletely tree path) : LeadsDown tree path := by
  intro dir pattern hsplit
  -- the callback always goes on
  let cb : Callback Unit := fun _ _ ↦ (1, ())
  have hwalked := hcompletely undisturbed Unit cb () dir pattern hsplit
  unfold cmnFsWalkdir at hwalked
  rw [show undisturbed.duplicates = true from rfl, hsplit] at hwalked
  dsimp only at hwalked
  obtain ⟨events, hevents, -, hanswered, hpart⟩ :=
    walks_cmnFsActualWalkdir tree undisturbed pattern cb dir ⟨[], (), 0⟩
  rw [hevents] at hwalked
  have hon : GoesOn events := by
    intro call result hmem
    obtain ⟨_, rfl⟩ := hanswered call result hmem
    exact Int.one_ne_zero
  have hpassed : passed events = codeListed tree undisturbed pattern dir := hpart.passed_eq hon
  have hall : allListed tree undisturbed pattern dir ⊆ codeListed tree undisturbed pattern dir := by
    rintro ⟨found, ent⟩ hmem
    obtain ⟨hvisits, hfound⟩ := mem_allListed_iff.mp hmem
    rw [← hpassed]
    exact hwalked.complete hon found ent hvisits hfound
  exact leadsDownFrom_of_codeListed_eq ((codeListed_sublist dir).eq_of_length_le
    (List.Nodup.subperm (nodup_allListed dir) hall).length_le)

/-- Every recursive walk of a path does what is expected exactly if, from every directory with
matches further below, a subdirectory leads down that matches itself. -/
theorem walksCompletely_iff (tree : DirectoryTree) (path : CString) :
    WalksCompletely tree path ↔ LeadsDown tree path := by
  constructor
  · exact leadsDown_of_walksCompletely
  · intro hleads around Data cb pdata dir pattern hsplit
    unfold cmnFsWalkdir
    rw [hsplit]
    exact walked_of_codeListed_eq cb pdata
      (codeListed_eq (hleads dir pattern (cmnFsSplitPath_of_duplicates hsplit)))

/-- The directory `/f` with the directory `d`, in which there is a file `a`. -/
def nestedFile : DirectoryTree where
  listing path :=
    if path = [47, 102] then [⟨[100], true⟩]
    else if path = [47, 102, 47, 100] then [⟨[97], false⟩] else []
  opensFile _ := false
  height path := if path = [47, 102] then 1 else 0
  height_lt := by
    rintro path child ⟨ent, hmem, hdir, rfl⟩
    dsimp only at hmem
    split_ifs at hmem with hroot hinner
    · obtain rfl := List.mem_singleton.mp hmem
      rw [hroot]
      decide
    · obtain rfl := List.mem_singleton.mp hmem
      cases hdir
    · cases hmem
  isName := by
    intro path ent hmem
    split_ifs at hmem with hroot hinner
    · obtain rfl := List.mem_singleton.mp hmem
      exact ⟨by decide, by decide⟩
    · obtain rfl := List.mem_singleton.mp hmem
      exact ⟨by decide, by decide⟩
    · cases hmem
  nodup := by
    intro path
    split_ifs <;> decide

/-- The walk of `/f/a*` does not descend to `d`, as `d` does not match. -/
theorem not_walksCompletely_nestedFile :
    ¬ WalksCompletely nestedFile ⟨[47, 102, 47, 97, 42], by decide⟩ := by
  intro hcompletely
  have hleads := leadsDown_of_walksCompletely hcompletely [47, 102] [97, 42] (by decide)
  have hchild : IsChild nestedFile.listing [47, 102] [47, 102, 47, 100] :=
    ⟨⟨[100], true⟩, by decide, rfl, by decide⟩
  have hfound : Found nestedFile [97, 42] [47, 102, 47, 100] ⟨[97], false⟩ := by
    refine ⟨by decide, (cmnPatternMatches_iff _ _).mpr ?_⟩
    exact .item 97 (.last [])
  obtain ⟨sub, -, hmem, hmatches⟩ := hleads [47, 102] .refl ⟨_, _, _, hchild, .refl, hfound⟩
  obtain rfl := List.mem_singleton.mp hmem
  obtain ⟨rest, heq, -⟩ := matchesShortest_item_iff.mp ((cmnPatternMatches_iff _ _).mp hmatches)
  exact absurd (List.cons.inj heq).1 (by decide)

end Elua.CommonFs
