import Elua.CommonFs.Walkdir

/-!
# Runs of the directory walker

`Part` says what a part of a walk does: it closes the directories that it opens, it passes the given
entries if the callback goes on, and otherwise it passes the first of them and calls nothing after
the callback returned 0. Parts are put together by `Walks.andThen`, and `Walks.within` puts a part
between the opening and the closing of a directory.

`walks_cmnFsActualWalkdir` is the result: a recursive walk passes the entries that `listed` gives,
where the subdirectories of a directory count only if the flag is set.
-/

set_option autoImplicit false
set_option relaxedAutoImplicit false

namespace Elua.CommonFs

variable {Data : Type}

/-! ### Events -/

/-- The open directories after some events. There is no result if an open directory is opened again,
or if one is closed that is not open. -/
def liveDirs : List ℕ → List Event → Option (List ℕ)
  | live, [] => some live
  | live, .opened d :: events => if d ∈ live then none else liveDirs (d :: live) events
  | live, .closed d :: events => if d ∈ live then liveDirs (live.erase d) events else none
  | live, .called _ _ :: events => liveDirs live events

/-- The entry that a call passes as an entry inside a directory. -/
def Call.entry : Call → Option (Path × DmDirent)
  | ⟨path, some ent, .insideReaddir⟩ => some (path, ent)
  | _ => none

/-- The entry that an event passes to the callback. -/
def Event.entry : Event → Option (Path × DmDirent)
  | .called call _ => call.entry
  | _ => none

/-- The entries that are passed to the callback. -/
def passed (events : List Event) : List (Path × DmDirent) := events.filterMap Event.entry

/-- Something holds of every call and its result. -/
def EveryCall (holds : Call → ℤ → Prop) (events : List Event) : Prop :=
  ∀ call result, .called call result ∈ events → holds call result

/-- The callback never returns 0. -/
def GoesOn (events : List Event) : Prop := EveryCall (fun _ result ↦ result ≠ 0) events

/-- The callback is not called. -/
def Quiet (events : List Event) : Prop := EveryCall (fun _ _ ↦ False) events

/-- The results of the calls are those of the callback. -/
def Answered (cb : Callback Data) (events : List Event) : Prop :=
  EveryCall (fun call result ↦ ∃ pdata, (cb call pdata).1 = result) events

theorem liveDirs_append (live : List ℕ) (before after : List Event) :
    liveDirs live (before ++ after) =
      (liveDirs live before).bind fun live ↦ liveDirs live after := by
  induction before generalizing live with
  | nil => rfl
  | cons event before ih =>
    cases event with
    | opened d =>
      rw [List.cons_append, liveDirs, liveDirs]
      split_ifs
      · rfl
      · exact ih _
    | closed d =>
      rw [List.cons_append, liveDirs, liveDirs]
      split_ifs
      · exact ih _
      · rfl
    | called call result => exact ih live

theorem passed_append (before after : List Event) :
    passed (before ++ after) = passed before ++ passed after := List.filterMap_append

theorem EveryCall.append {holds : Call → ℤ → Prop} {before after : List Event}
    (hbefore : EveryCall holds before) (hafter : EveryCall holds after) :
    EveryCall holds (before ++ after) := by
  intro call result hmem
  obtain hmem | hmem := List.mem_append.mp hmem
  · exact hbefore call result hmem
  · exact hafter call result hmem

theorem Quiet.everyCall {events : List Event} (hquiet : Quiet events) (holds : Call → ℤ → Prop) :
    EveryCall holds events :=
  fun call result hmem ↦ (hquiet call result hmem).elim

theorem everyCall_nil (holds : Call → ℤ → Prop) : EveryCall holds [] :=
  fun _ _ hmem ↦ absurd hmem List.not_mem_nil

theorem everyCall_singleton {holds : Call → ℤ → Prop} {call : Call} {result : ℤ}
    (hcall : holds call result) : EveryCall holds [.called call result] := by
  intro other value hmem
  obtain ⟨rfl, rfl⟩ := Event.called.inj (List.mem_singleton.mp hmem)
  exact hcall

theorem quiet_opened (d : ℕ) : Quiet [.opened d] := by
  intro call result hmem
  cases List.mem_singleton.mp hmem

theorem quiet_closed (d : ℕ) : Quiet [.closed d] := by
  intro call result hmem
  cases List.mem_singleton.mp hmem

/-! ### Parts of a walk -/

/-- The callback is called until it returns 0, and the entries that are passed begin the given
ones. -/
structure StopsAt (entries : List (Path × DmDirent)) (events : List Event) : Prop where
  split : ∃ before call after, events = before ++ .called call 0 :: after ∧ GoesOn before ∧
    Quiet after
  passes : passed events <+: entries

/-- What a part of a walk does that would pass the given entries. -/
structure Part (entries : List (Path × DmDirent)) (dirs : ℕ) (goesOn : Bool)
    (events : List Event) : Prop where
  live : ∀ live, (∀ d ∈ live, d < dirs) → liveDirs live events = some live
  completes : goesOn = true → GoesOn events ∧ passed events = entries
  stops : goesOn = false → StopsAt entries events

/-- A part of a walk goes from a state to a result. -/
def Walks (cb : Callback Data) (entries : List (Path × DmDirent)) (walk : WalkState Data)
    (result : Bool × WalkState Data) : Prop :=
  ∃ events, result.2.events = walk.events ++ events ∧ walk.dirs ≤ result.2.dirs ∧
    Answered cb events ∧ Part entries walk.dirs result.1 events

/-- One part of a walk after another, if the callback goes on. -/
def andThen (first : Bool × WalkState Data)
    (next : WalkState Data → Bool × WalkState Data) : Bool × WalkState Data :=
  if first.1 = true then next first.2 else (false, first.2)

/-- A part of a walk, between the opening and the closing of a directory. -/
def within (inside : WalkState Data → Bool × WalkState Data) (walk : WalkState Data) :
    Bool × WalkState Data :=
  ((inside walk.dmOpendir.2).1, (inside walk.dmOpendir.2).2.dmClosedir walk.dmOpendir.1)

/-- A call, after which a walk goes on if the result is not 0. -/
def calling (cb : Callback Data) (call : Call) (walk : WalkState Data) : Bool × WalkState Data :=
  (decide ((walk.call cb call).1 ≠ 0), (walk.call cb call).2)

theorem Part.append {first second : List (Path × DmDirent)} {dirs dirs' : ℕ} {goesOn : Bool}
    {before after : List Event} (hle : dirs ≤ dirs') (hbefore : Part first dirs true before)
    (hafter : Part second dirs' goesOn after) :
    Part (first ++ second) dirs goesOn (before ++ after) where
  live live hlive := by
    rw [liveDirs_append, hbefore.live live hlive, Option.bind_some]
    exact hafter.live live fun d hmem ↦ (hlive d hmem).trans_le hle
  completes hgoes := by
    obtain ⟨hfirst, hpassed⟩ := hbefore.completes rfl
    obtain ⟨hsecond, hpassed'⟩ := hafter.completes hgoes
    rw [passed_append, hpassed, hpassed']
    exact ⟨hfirst.append hsecond, rfl⟩
  stops hstops := by
    obtain ⟨hfirst, hpassed⟩ := hbefore.completes rfl
    obtain ⟨⟨early, call, late, rfl, hearly, hlate⟩, hbegins⟩ := hafter.stops hstops
    refine ⟨⟨before ++ early, call, late, ?_, hfirst.append hearly, hlate⟩, ?_⟩
    · rw [List.append_assoc]
    · rw [passed_append, hpassed]
      exact List.prefix_append_right_inj first |>.mpr hbegins

/-- A part that stops passes the first of more entries as well. -/
theorem Part.of_stops {first : List (Path × DmDirent)} {dirs : ℕ} {events : List Event}
    (hpart : Part first dirs false events) (second : List (Path × DmDirent)) :
    Part (first ++ second) dirs false events where
  live := hpart.live
  completes hgoes := absurd hgoes Bool.false_ne_true
  stops _ := ⟨(hpart.stops rfl).split, (hpart.stops rfl).passes.trans (List.prefix_append _ _)⟩

theorem Part.nil (dirs : ℕ) : Part [] dirs true [] where
  live _ _ := rfl
  completes _ := ⟨everyCall_nil _, rfl⟩
  stops hstops := absurd hstops.symm Bool.false_ne_true

/-- A part inside of a directory. -/
theorem Part.within {entries : List (Path × DmDirent)} {dirs : ℕ} {goesOn : Bool}
    {events : List Event} (hpart : Part entries (dirs + 1) goesOn events) :
    Part entries dirs goesOn ([.opened dirs] ++ events ++ [.closed dirs]) where
  live live hlive := by
    have hnew : dirs ∉ live := fun hmem ↦ Nat.lt_irrefl dirs (hlive dirs hmem)
    have hall : ∀ d ∈ dirs :: live, d < dirs + 1 := by
      rintro d (_ | ⟨_, hmem⟩)
      · exact Nat.lt_succ_self dirs
      · exact (hlive d hmem).trans (Nat.lt_succ_self dirs)
    rw [List.append_assoc, List.singleton_append, liveDirs, if_neg hnew, liveDirs_append,
      hpart.live _ hall, Option.bind_some, liveDirs, if_pos List.mem_cons_self,
      List.erase_cons_head]
    rfl
  completes hgoes := by
    obtain ⟨hon, hpassed⟩ := hpart.completes hgoes
    refine ⟨(((quiet_opened dirs).everyCall _).append hon).append
      ((quiet_closed dirs).everyCall _), ?_⟩
    rw [passed_append, passed_append, hpassed]
    exact List.append_nil entries
  stops hstops := by
    obtain ⟨⟨before, call, after, rfl, hbefore, hafter⟩, hbegins⟩ := hpart.stops hstops
    refine ⟨⟨[Event.opened dirs] ++ before, call, after ++ [Event.closed dirs], ?_,
      ((quiet_opened dirs).everyCall _).append hbefore, hafter.append (quiet_closed dirs)⟩, ?_⟩
    · simp
    · rw [passed_append, passed_append]
      change [] ++ passed _ ++ [] <+: entries
      rwa [List.nil_append, List.append_nil]

/-- The events of a call. -/
theorem Part.call (call : Call) (result : ℤ) (dirs : ℕ) :
    Part call.entry.toList dirs (decide (result ≠ 0)) [.called call result] where
  live _ _ := rfl
  completes hgoes := by
    refine ⟨everyCall_singleton (of_decide_eq_true hgoes), ?_⟩
    unfold passed
    rw [List.filterMap_cons, Event.entry]
    cases call.entry <;> rfl
  stops hstops := by
    have hzero : result = 0 := not_not.mp (of_decide_eq_false hstops)
    refine ⟨⟨[], call, [], by rw [hzero]; rfl, everyCall_nil _, everyCall_nil _⟩, ?_⟩
    unfold passed
    rw [List.filterMap_cons, Event.entry]
    cases call.entry <;> exact List.prefix_rfl

/-- A part passes its entries if the callback goes on. -/
theorem Part.passed_eq {entries : List (Path × DmDirent)} {dirs : ℕ} {goesOn : Bool}
    {events : List Event} (hpart : Part entries dirs goesOn events) (hon : GoesOn events) :
    passed events = entries := by
  cases goesOn with
  | true => exact (hpart.completes rfl).2
  | false =>
    obtain ⟨before, call, after, rfl, -, -⟩ := (hpart.stops rfl).split
    exact absurd rfl (hon call 0 (List.mem_append_right _ List.mem_cons_self))

/-- A part passes the first of its entries in any case. -/
theorem Part.passed_isPrefix {entries : List (Path × DmDirent)} {dirs : ℕ} {goesOn : Bool}
    {events : List Event} (hpart : Part entries dirs goesOn events) :
    passed events <+: entries := by
  cases goesOn with
  | true => exact ⟨[], by rw [(hpart.completes rfl).2, List.append_nil]⟩
  | false => exact (hpart.stops rfl).passes

/-- Nothing is called after the callback returned 0. -/
theorem Part.quiet {entries : List (Path × DmDirent)} {dirs : ℕ} {goesOn : Bool}
    {before after : List Event} {call : Call}
    (hpart : Part entries dirs goesOn (before ++ .called call 0 :: after)) : Quiet after := by
  cases goesOn with
  | true =>
    exact absurd rfl ((hpart.completes rfl).1 call 0 (List.mem_append_right _ List.mem_cons_self))
  | false =>
    obtain ⟨early, other, late, heq, hearly, hlate⟩ := (hpart.stops rfl).split
    obtain ⟨middle, rfl, hcut⟩ | ⟨middle, rfl, hcut⟩ := List.append_eq_append_iff.mp heq
    · obtain _ | ⟨event, middle⟩ := middle
      · obtain ⟨-, rfl⟩ := List.cons.inj hcut
        exact hlate
      · obtain ⟨rfl, -⟩ := List.cons.inj hcut
        exact absurd rfl (hearly call 0 (List.mem_append_right _ List.mem_cons_self))
    · obtain _ | ⟨event, middle⟩ := middle
      · obtain ⟨-, rfl⟩ := List.cons.inj hcut
        exact hlate
      · obtain ⟨-, rfl⟩ := List.cons.inj hcut
        exact (hlate call 0 (List.mem_append_right _ List.mem_cons_self)).elim

/-! ### Putting parts together -/

theorem Walks.refl (cb : Callback Data) (walk : WalkState Data) : Walks cb [] walk (true, walk) :=
  ⟨[], (List.append_nil _).symm, Nat.le_refl _, everyCall_nil _, .nil _⟩

theorem Walks.andThen {cb : Callback Data} {first second : List (Path × DmDirent)}
    {walk : WalkState Data} {result : Bool × WalkState Data}
    {next : WalkState Data → Bool × WalkState Data} (hfirst : Walks cb first walk result)
    (hsecond : ∀ walk, Walks cb second walk (next walk)) :
    Walks cb (first ++ second) walk (andThen result next) := by
  obtain ⟨before, hevents, hdirs, hanswered, hpart⟩ := hfirst
  obtain ⟨goesOn, walk'⟩ := result
  unfold CommonFs.andThen
  cases goesOn with
  | false => exact ⟨before, hevents, hdirs, hanswered, hpart.of_stops second⟩
  | true =>
    obtain ⟨after, hevents', hdirs', hanswered', hpart'⟩ := hsecond walk'
    refine ⟨before ++ after, ?_, hdirs.trans hdirs', hanswered.append hanswered',
      hpart.append hdirs hpart'⟩
    rw [← List.append_assoc, ← hevents]
    exact hevents'

theorem Walks.within {cb : Callback Data} {entries : List (Path × DmDirent)}
    {walk : WalkState Data} {inside : WalkState Data → Bool × WalkState Data}
    (hinside : ∀ walk, Walks cb entries walk (inside walk)) :
    Walks cb entries walk (within inside walk) := by
  obtain ⟨events, hevents, hdirs, hanswered, hpart⟩ := hinside walk.dmOpendir.2
  have hopened : walk.dmOpendir.2.events = walk.events ++ [.opened walk.dirs] := rfl
  refine ⟨[Event.opened walk.dirs] ++ events ++ [Event.closed walk.dirs], ?_,
    (Nat.le_succ _).trans hdirs,
    (((quiet_opened _).everyCall _).append hanswered).append ((quiet_closed _).everyCall _),
    hpart.within⟩
  change (inside walk.dmOpendir.2).2.events ++ [.closed walk.dirs] = _
  rw [hevents, hopened]
  simp only [List.append_assoc]

theorem walks_calling (cb : Callback Data) (call : Call) (walk : WalkState Data) :
    Walks cb call.entry.toList walk (calling cb call walk) :=
  ⟨[.called call (cb call walk.pdata).1], rfl, Nat.le_refl _,
    everyCall_singleton ⟨walk.pdata, rfl⟩, .call call _ _⟩

/-! ### The loops -/

/-- The entries of a directory that match. -/
def matching (entries : List DmDirent) (pattern : Path) : List DmDirent :=
  entries.filter fun ent ↦ cmnPatternMatches ent.fname pattern

/-- The first listing of a directory, as a part of the walk. -/
def reading (cb : Callback Data) (path pattern : Path) (entries : List DmDirent) (hasdirs : Bool)
    (walk : WalkState Data) : Bool × WalkState Data :=
  ((readEntries cb path pattern entries hasdirs walk).1.isSome,
    (readEntries cb path pattern entries hasdirs walk).2)

theorem reading_cons (cb : Callback Data) (path pattern : Path) (ent : DmDirent)
    (entries : List DmDirent) (hasdirs : Bool) (walk : WalkState Data) :
    reading cb path pattern (ent :: entries) hasdirs walk =
      if cmnPatternMatches ent.fname pattern = true then
        andThen (calling cb ⟨path, some ent, .insideReaddir⟩ walk)
          (reading cb path pattern entries (if ent.isDir then true else hasdirs))
      else reading cb path pattern entries hasdirs walk := by
  unfold reading andThen calling
  rw [readEntries]
  by_cases hmatches : cmnPatternMatches ent.fname pattern = true
  · rw [if_pos hmatches, if_pos hmatches]
    dsimp only
    by_cases hzero : (walk.call cb ⟨path, some ent, .insideReaddir⟩).1 = 0
    · rw [if_pos hzero, if_neg (by rwa [decide_eq_true_iff, not_not])]
      rfl
    · rw [if_neg hzero, if_pos (decide_eq_true hzero)]
  · rw [if_neg hmatches, if_neg hmatches]

/-- The entries that match are passed. -/
theorem walks_reading (cb : Callback Data) (path pattern : Path) (entries : List DmDirent)
    (hasdirs : Bool) (walk : WalkState Data) :
    Walks cb ((matching entries pattern).map fun ent ↦ (path, ent)) walk
      (reading cb path pattern entries hasdirs walk) := by
  induction entries generalizing hasdirs walk with
  | nil => exact .refl cb walk
  | cons ent entries ih =>
    rw [reading_cons, matching, List.filter_cons]
    by_cases hmatches : cmnPatternMatches ent.fname pattern = true
    · rw [if_pos hmatches, if_pos hmatches]
      exact (walks_calling cb _ walk).andThen fun walk ↦ ih _ walk
    · rw [if_neg hmatches, if_neg hmatches]
      exact ih hasdirs walk

/-- The flag after the first listing. -/
theorem readEntries_fst {cb : Callback Data} {path pattern : Path} {entries : List DmDirent}
    {hasdirs flag : Bool} {walk : WalkState Data}
    (hflag : (readEntries cb path pattern entries hasdirs walk).1 = some flag) :
    flag = (hasdirs || (matching entries pattern).any DmDirent.isDir) := by
  induction entries generalizing hasdirs walk with
  | nil =>
    rw [matching, List.filter_nil, List.any_nil, Bool.or_false]
    exact (Option.some.inj hflag).symm
  | cons ent entries ih =>
    rw [readEntries] at hflag
    rw [matching, List.filter_cons]
    by_cases hmatches : cmnPatternMatches ent.fname pattern = true
    · rw [if_pos hmatches] at hflag ⊢
      dsimp only at hflag
      by_cases hzero : (walk.call cb ⟨path, some ent, .insideReaddir⟩).1 = 0
      · rw [if_pos hzero] at hflag
        cases hflag
      · rw [if_neg hzero] at hflag
        rw [ih hflag, List.any_cons]
        cases ent.isDir
        · rfl
        · exact (Bool.or_true _).symm
    · rw [if_neg hmatches] at hflag ⊢
      exact ih hflag

/-- The paths of the subdirectories for which there is memory. -/
def subpaths (allocates : Path → Bool) (path : Path) (entries : List DmDirent) : List Path :=
  (entries.filter fun ent ↦ ent.isDir && allocates (joined [path, ent.fname])).map
    fun ent ↦ joined [path, ent.fname]

theorem isChild_of_mem_subpaths {listing : Path → List DmDirent} {allocates : Path → Bool}
    {path child : Path} (hmem : child ∈ subpaths allocates path (listing path)) :
    IsChild listing path child := by
  obtain ⟨ent, hent, rfl⟩ := List.mem_map.mp hmem
  obtain ⟨hent, hdir⟩ := List.mem_filter.mp hent
  exact ⟨ent, hent, (Bool.and_eq_true_iff.mp hdir).1, rfl⟩

/-- A path with a name is joined if there is memory. -/
theorem cmnFsPathJoin_name {name : Path} (hname : IsName name) (allocates : Path → Bool)
    (path : Path) : cmnFsPathJoin allocates [path, name] =
      if allocates (joined [path, name]) = true then some (joined [path, name]) else none := by
  have hpos := List.length_pos_iff.mpr hname.1
  have hlength : elementLength name = name.length + 1 := by
    have hlast : lastchar name ≠ slash := lastchar_append_name hname []
    unfold elementLength
    rw [if_neg hname.1, if_neg (firstchar_name hname), if_neg hlast, Nat.sub_zero]
  have htotal : [path, name].foldl (fun total tmp ↦ total + elementLength tmp) 0 ≠ 0 := by
    rw [List.foldl_cons, List.foldl_cons, List.foldl_nil, hlength]
    omega
  unfold cmnFsPathJoin
  cases allocates (joined [path, name])
  · exact if_pos (.inr rfl)
  · exact if_neg (not_or.mpr ⟨htotal, Bool.noConfusion⟩)

theorem andThen_eq (first : Bool × WalkState Data)
    (next : WalkState Data → Bool × WalkState Data) :
    (if first.1 = false then (false, first.2) else next first.2) = andThen first next := by
  unfold andThen
  cases first.1 <;> rfl

theorem andThen_calling (cb : Callback Data) (call : Call) (walk : WalkState Data)
    (next : WalkState Data → Bool × WalkState Data) :
    (if (walk.call cb call).1 = 0 then (false, (walk.call cb call).2)
      else next (walk.call cb call).2) = andThen (calling cb call walk) next := by
  unfold andThen calling
  by_cases hzero : (walk.call cb call).1 = 0
  · rw [if_pos hzero, if_neg (by rwa [decide_eq_true_iff, not_not])]
  · rw [if_neg hzero, if_pos (decide_eq_true hzero)]

theorem calling_eq (cb : Callback Data) (call : Call) (walk : WalkState Data) :
    (if (walk.call cb call).1 = 0 then (false, (walk.call cb call).2)
      else (true, (walk.call cb call).2)) = calling cb call walk := by
  unfold calling
  by_cases hzero : (walk.call cb call).1 = 0
  · rw [if_pos hzero, decide_eq_false (not_not.mpr hzero)]
  · rw [if_neg hzero, decide_eq_true hzero]

/-- The subdirectories are walked one after the other. -/
theorem walks_walkSubdirectories {listing : Path → List DmDirent} {allocates : Path → Bool}
    {cb : Callback Data} {path : Path}
    {actualWalkdir : ∀ fullname, IsChild listing path fullname → WalkState Data →
      Bool × WalkState Data} {below : Path → List (Path × DmDirent)}
    (hwalk : ∀ fullname hchild walk, Walks cb (below fullname) walk
      (actualWalkdir fullname hchild walk)) {entries : List DmDirent}
    (hnames : ∀ ent ∈ entries, IsName ent.fname) (hentries : ∀ ent ∈ entries, ent ∈ listing path)
    (walk : WalkState Data) :
    Walks cb ((subpaths allocates path entries).flatMap below) walk
      (walkSubdirectories listing allocates cb path actualWalkdir entries hentries walk) := by
  induction entries generalizing walk with
  | nil => exact .refl cb walk
  | cons ent entries ih =>
    have hnext := ih (fun other hother ↦ hnames other (List.mem_cons_of_mem ent hother))
      fun other hother ↦ hentries other (List.mem_cons_of_mem ent hother)
    have hjoined := cmnFsPathJoin_name (hnames ent List.mem_cons_self) allocates path
    rw [walkSubdirectories, subpaths, List.filter_cons]
    by_cases hdir : ent.isDir = true
    · rw [dif_pos hdir, hdir, Bool.true_and]
      by_cases hmemory : allocates (joined [path, ent.fname]) = true
      · rw [if_pos hmemory] at hjoined ⊢
        split
        next fullname hjoin =>
          obtain rfl := Option.some.inj (hjoined.symm.trans hjoin)
          have hchild : IsChild listing path (joined [path, ent.fname]) :=
            ⟨ent, hentries ent List.mem_cons_self, hdir, rfl⟩
          have hboth := (hwalk _ hchild walk).andThen hnext
          rwa [← andThen_eq] at hboth
        next hjoin =>
          rw [hjoined] at hjoin
          cases hjoin
      · rw [if_neg hmemory] at hjoined ⊢
        split
        next fullname hjoin =>
          rw [hjoined] at hjoin
          cases hjoin
        next =>
          have hboth := (walks_calling cb ⟨path, none, .memoryError⟩ walk).andThen hnext
          rwa [← andThen_calling] at hboth
    · rw [dif_neg hdir, if_neg (fun hboth ↦ hdir (Bool.and_eq_true_iff.mp hboth).1)]
      exact hnext walk

/-! ### The walk -/

/-- The entries at and below a directory, in the order of a walk. Below a directory only those
count whose directories can be opened, and nothing does where the walk does not descend. -/
def listed (tree : DirectoryTree) (around : Surroundings) (pattern : Path) (descends : Path → Bool)
    (path : Path) : List (Path × DmDirent) :=
  if around.opens path then
    ((matching (tree.listing path) pattern).map fun ent ↦ (path, ent)) ++
      if descends path && around.reopens path then
        (subpaths around.allocates path (tree.listing path)).attach.flatMap fun child ↦
          listed tree around pattern descends child.1
      else []
  else []
termination_by tree.height path
decreasing_by exact tree.height_lt path child.1 (isChild_of_mem_subpaths child.2)

theorem listed_eq (tree : DirectoryTree) (around : Surroundings) (pattern : Path)
    (descends : Path → Bool) (path : Path) : listed tree around pattern descends path =
      if around.opens path = true then
        ((matching (tree.listing path) pattern).map fun ent ↦ (path, ent)) ++
          if (descends path && around.reopens path) = true then
            (subpaths around.allocates path (tree.listing path)).flatMap
              (listed tree around pattern descends)
          else []
      else [] := by
  rw [listed]
  simp

/-- The flag of a directory after its first listing. -/
def flagged (tree : DirectoryTree) (around : Surroundings) (pattern path : Path) : Bool :=
  around.hasdirs path || (matching (tree.listing path) pattern).any DmDirent.isDir

/-- The first listing of a directory, from its opening to its closing. -/
def firstListing (tree : DirectoryTree) (around : Surroundings) (pattern : Path)
    (cb : Callback Data) (path : Path) (walk : WalkState Data) : Bool × WalkState Data :=
  within (fun walk ↦ andThen (calling cb ⟨path, none, .beforeReaddir⟩ walk)
    (reading cb path pattern (tree.listing path) (around.hasdirs path))) walk

/-- The second listing of a directory, if its flag is set. -/
def secondListing (tree : DirectoryTree) (around : Surroundings) (pattern : Path)
    (cb : Callback Data) (path : Path) (walk : WalkState Data) : Bool × WalkState Data :=
  if flagged tree around pattern path = true then
    if around.reopens path = true then
      within (walkSubdirectories tree.listing around.allocates cb path
        (fun fullname _ ↦ cmnFsActualWalkdir tree around pattern cb true fullname)
        (tree.listing path) fun _ hmem ↦ hmem) walk
    else calling cb ⟨path, none, .opendirFailed⟩ walk
  else (true, walk)

/-- The code up to the closing of the directory is its first listing. -/
theorem firstListing_eq {tree : DirectoryTree} {around : Surroundings} {pattern : Path}
    {cb : Callback Data} {path : Path} {walk walk' : WalkState Data} {flag : Option Bool}
    (hread : readEntries cb path pattern (tree.listing path) (around.hasdirs path)
      (walk.dmOpendir.2.call cb ⟨path, none, .beforeReaddir⟩).2 = (flag, walk')) :
    firstListing tree around pattern cb path walk =
      if (walk.dmOpendir.2.call cb ⟨path, none, .beforeReaddir⟩).1 = 0 then
        abort (some walk.dmOpendir.1) (walk.dmOpendir.2.call cb ⟨path, none, .beforeReaddir⟩).2
      else (flag.isSome, walk'.dmClosedir walk.dmOpendir.1) := by
  unfold firstListing within reading
  dsimp only
  rw [← andThen_calling, hread]
  split_ifs <;> rfl

/-- The walk of a directory in parts. -/
theorem cmnFsActualWalkdir_eq (tree : DirectoryTree) (around : Surroundings) (pattern : Path)
    (cb : Callback Data) (path : Path) (walk : WalkState Data) :
    cmnFsActualWalkdir tree around pattern cb true path walk =
      if around.opens path = true then
        andThen (firstListing tree around pattern cb path walk) fun walk ↦
          andThen (calling cb ⟨path, none, .afterClosedir⟩ walk) fun walk ↦
            andThen (secondListing tree around pattern cb path walk)
              (calling cb ⟨path, none, .directoryDone⟩)
      else calling cb ⟨path, none, .opendirFailed⟩ walk := by
  rw [cmnFsActualWalkdir]
  by_cases hopens : around.opens path = true
  · rw [if_pos hopens, if_pos hopens]
    dsimp only
    rcases hread : readEntries cb path pattern (tree.listing path) (around.hasdirs path)
      (walk.dmOpendir.2.call cb ⟨path, none, .beforeReaddir⟩).2 with ⟨flag, walk'⟩
    rw [firstListing_eq hread]
    by_cases hbefore : (walk.dmOpendir.2.call cb ⟨path, none, .beforeReaddir⟩).1 = 0
    · rw [if_pos hbefore, if_pos hbefore]
      rfl
    · rw [if_neg hbefore, if_neg hbefore]
      cases flag with
      | none => rfl
      | some flag =>
        have hflag : flag = flagged tree around pattern path := readEntries_fst (by rw [hread])
        have hsome : andThen ((some flag).isSome, walk'.dmClosedir walk.dmOpendir.1) =
            fun next ↦ next (walk'.dmClosedir walk.dmOpendir.1) := rfl
        rw [hsome]
        unfold secondListing
        rw [← hflag]
        dsimp only [abort]
        -- the directory is closed: what follows starts from there
        generalize walk'.dmClosedir walk.dmOpendir.1 = walk
        simp only [calling_eq, Bool.true_and]
        rw [← andThen_calling cb ⟨path, none, .afterClosedir⟩]
        by_cases hafter : (walk.call cb ⟨path, none, .afterClosedir⟩).1 = 0
        · rw [if_pos hafter, if_pos hafter]
        rw [if_neg hafter, if_neg hafter]
        cases flag
        · rfl
        · rw [if_pos rfl, if_pos rfl]
          by_cases hreopens : around.reopens path = true
          · rw [if_pos hreopens, if_pos hreopens]
            exact andThen_eq (within _ _) _
          · rw [if_neg hreopens, if_neg hreopens]
            exact andThen_calling cb _ _ _
  · rw [if_neg hopens, if_neg hopens]
    dsimp only
    exact calling_eq cb _ walk

theorem walks_firstListing (tree : DirectoryTree) (around : Surroundings) (pattern : Path)
    (cb : Callback Data) (path : Path) (walk : WalkState Data) :
    Walks cb ((matching (tree.listing path) pattern).map fun ent ↦ (path, ent)) walk
      (firstListing tree around pattern cb path walk) :=
  Walks.within fun walk ↦ (walks_calling cb ⟨path, none, .beforeReaddir⟩ walk).andThen
    (walks_reading cb path pattern (tree.listing path) (around.hasdirs path))

theorem walks_secondListing {tree : DirectoryTree} {around : Surroundings} {pattern : Path}
    {cb : Callback Data} {path : Path} {below : Path → List (Path × DmDirent)}
    (hbelow : ∀ child walk, IsChild tree.listing path child → Walks cb (below child) walk
      (cmnFsActualWalkdir tree around pattern cb true child walk)) (walk : WalkState Data) :
    Walks cb (if (flagged tree around pattern path && around.reopens path) = true then
        (subpaths around.allocates path (tree.listing path)).flatMap below else []) walk
      (secondListing tree around pattern cb path walk) := by
  unfold secondListing
  cases flagged tree around pattern path
  · exact .refl cb walk
  · rw [Bool.true_and, if_pos rfl]
    by_cases hreopens : around.reopens path = true
    · rw [if_pos hreopens, if_pos hreopens]
      exact Walks.within (walks_walkSubdirectories
        (fun child hchild walk ↦ hbelow child walk hchild) (tree.isName path) fun _ hmem ↦ hmem)
    · rw [if_neg hreopens, if_neg hreopens]
      exact walks_calling cb ⟨path, none, .opendirFailed⟩ walk

/-- A recursive walk passes the entries below the directories for which the flag is set. -/
theorem walks_cmnFsActualWalkdir (tree : DirectoryTree) (around : Surroundings) (pattern : Path)
    (cb : Callback Data) (path : Path) (walk : WalkState Data) :
    Walks cb (listed tree around pattern (flagged tree around pattern) path) walk
      (cmnFsActualWalkdir tree around pattern cb true path walk) := by
  induction path using tree.induction generalizing walk with
  | hstep path ih =>
    rw [cmnFsActualWalkdir_eq, listed_eq]
    by_cases hopens : around.opens path = true
    · rw [if_pos hopens, if_pos hopens]
      have hrest : ∀ walk, Walks cb _ walk _ := fun walk ↦
        (walks_calling cb ⟨path, none, .afterClosedir⟩ walk).andThen fun walk ↦
          (walks_secondListing (fun child walk hchild ↦ ih child hchild walk) walk).andThen
            (walks_calling cb ⟨path, none, .directoryDone⟩)
      have hall := (walks_firstListing tree around pattern cb path walk).andThen hrest
      rwa [show (Call.entry ⟨path, none, .afterClosedir⟩).toList = [] from rfl,
        show (Call.entry ⟨path, none, .directoryDone⟩).toList = [] from rfl, List.nil_append,
        List.append_nil] at hall
    · rw [if_neg hopens, if_neg hopens]
      exact walks_calling cb _ walk

end Elua.CommonFs
