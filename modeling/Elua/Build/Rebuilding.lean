import Elua.Build.Targets
import Elua.Foundation.DepthFirst

/-!
# Which targets a build rebuilds

A build calls targets in the order of a depth-first walk over their dependencies, whatever the
modification times are. A target is due for a cause of its own (`OwnCause`) or because of the files
(`FileCause`), and it passes this on (`Relays`) to a target that depends on it and has called it
first, and between files also by the modification time that its command leaves. `Rebuilt` is the
closure of the causes under passing on.

`build_follows` says that a build follows the walk, and that it executes the commands of the targets
that are rebuilt, in the order in which the walk finishes them. -/

set_option autoImplicit false
set_option relaxedAutoImplicit false

namespace Elua.Build

open Foundation

/-- One path is newer than another. -/
def Newer (files : Files) (path target : String) : Prop :=
  getFtime files target < getFtime files path

/-- The path that a dependency names. -/
def Dep.path : Dep → String
  | .fbuilder dep => dep
  | .target dep => dep.target

/-- A dependency that is a file. -/
def Dep.OnDisk : Dep → Prop
  | .fbuilder _ => True
  | .target dep => isPhony dep.target = false

/-- A target is rebuilt whatever the files are. -/
def OwnCause (b : Builder) (self : Target) : Prop :=
  b.globalForceRebuild = true ∨ self.forceRebuild = true ∨
    (isPhony self.target = true ∧ ∃ path, .fbuilder path ∈ b.buildDependencies self)

/-- A file is missing, or a file it depends on is newer. -/
def FileCause (b : Builder) (start : Files) (self : Target) : Prop :=
  isPhony self.target = false ∧ (isFile start self.target = false ∨
    ∃ dep ∈ b.buildDependencies self, dep.OnDisk ∧ Newer start dep.path self.target)

/-- Whether a target was rebuilt reaches a target that depends on it: the first call of it returns
so, and a file that a command makes is newer than the files that were there. -/
def Relays (b : Builder) (firsts : Target → Target → Prop) (self dep : Target) : Prop :=
  dep ∈ b.targetDeps self ∧ (firsts self dep ∨
    (isPhony self.target = false ∧ isPhony dep.target = false ∧ dep.command.isSome = true))

/-- A cause reaches a target. -/
def Rebuilt (b : Builder) (start : Files) (firsts : Target → Target → Prop) (self : Target) :
    Prop :=
  ∃ cause, Relation.ReflTransGen (Relays b firsts) self cause ∧
    (OwnCause b cause ∨ FileCause b start cause)

/-- A command of a target is executed. -/
def Executed (b : Builder) (start : Files) (firsts : Target → Target → Prop) (self : Target) :
    Prop :=
  Rebuilt b start firsts self ∧ self.command.isSome = true

/-- Commands report execution, and what they make is newer than every file that was there. -/
structure Ordinary (start : Files) (commands : Commands) : Prop where
  reports : ∀ name, commands.code name = .executed
  later : ∀ name path attributes, start path = some attributes →
    attributes.modification < commands.stamp name

/-- The first calls of a walk. -/
def firstCalls (walk : Traversal Target) (self dep : Target) : Prop := (self, dep) ∈ walk.firsts

section Following

variable {b : Builder} {start : Files} {firsts others : Target → Target → Prop}

/-- A target is rebuilt for a cause of its own, or because of one it depends on. -/
theorem rebuilt_iff {self : Target} :
    Rebuilt b start firsts self ↔ OwnCause b self ∨ FileCause b start self ∨
      ∃ dep, Relays b firsts self dep ∧ Rebuilt b start firsts dep := by
  constructor
  · rintro ⟨cause, hpath, hcause⟩
    rcases hpath.cases_head with rfl | ⟨dep, hrelays, hrest⟩
    · exact hcause.imp_right .inl
    · exact .inr (.inr ⟨dep, hrelays, cause, hrest, hcause⟩)
  · rintro (hown | hfile | ⟨dep, hrelays, cause, hrest, hcause⟩)
    · exact ⟨self, .refl, .inl hown⟩
    · exact ⟨self, .refl, .inr hfile⟩
    · exact ⟨cause, .head hrelays hrest, hcause⟩

/-- Whether a finished target is rebuilt depends on the calls of finished targets only. -/
theorem rebuilt_congr {walk : Traversal Target} (hordered : walk.Ordered b.targetDeps)
    (hsame : ∀ self ∈ walk.finished, ∀ dep, firsts self dep ↔ others self dep) {self : Target}
    (hself : self ∈ walk.finished) :
    Rebuilt b start firsts self ↔ Rebuilt b start others self := by
  have hpath : ∀ firsts others : Target → Target → Prop,
      (∀ self ∈ walk.finished, ∀ dep, firsts self dep ↔ others self dep) →
        ∀ cause, Relation.ReflTransGen (Relays b firsts) self cause →
          cause ∈ walk.finished ∧ Relation.ReflTransGen (Relays b others) self cause := by
    intro firsts others hsame cause hpath
    induction hpath with
    | refl => exact ⟨hself, .refl⟩
    | tail _ hrelays ih =>
      refine ⟨hordered.mem_of_reaches ih.1 (.single hrelays.1), ih.2.tail ⟨hrelays.1, ?_⟩⟩
      exact hrelays.2.imp_left (hsame _ ih.1 _).mp
  constructor
  · rintro ⟨cause, hrelays, hcause⟩
    exact ⟨cause, (hpath _ _ hsame cause hrelays).2, hcause⟩
  · rintro ⟨cause, hrelays, hcause⟩
    exact ⟨cause, (hpath _ _ (fun other hother dep ↦ (hsame other hother dep).symm) cause
      hrelays).2, hcause⟩

end Following

/-! ### A build follows the walk -/

section Following

variable (b : Builder) (commands : Commands) (start : Files)

/-- A build has come as far as a walk: the targets that ran are those that are finished, and the
commands that were executed are those of the finished targets that are rebuilt. -/
structure Follows (walk : Traversal Target) (state : BuildState) : Prop where
  runlist_eq : state.runlist = walk.finished.map (·.target)
  registered : ∀ self ∈ walk.finished, self ∈ b.tlist
  ordered : walk.Ordered b.targetDeps
  nodup : walk.finished.Nodup
  files_eq : ∀ name, state.files name =
    if name ∈ state.log ∧ isPhony name = false then some ⟨.file, commands.stamp name⟩
    else start name
  log_eq : ∃ executed : Target → Bool, (∀ self ∈ walk.finished,
      executed self = true ↔ Executed b start (firstCalls walk) self) ∧
    state.log = (walk.finished.filter executed).map (·.target)
  expanded : ∀ self ∈ walk.finished, Rebuilt b start (firstCalls walk) self →
    self.command = some .line → self.origdep ≠ []

/-- The calls that a walk has recorded come from finished targets, or from targets above. -/
def CallsAbove (rank : Target → ℕ) (bound : ℕ) (walk : Traversal Target) : Prop :=
  ∀ caller child, (caller, child) ∈ walk.firsts → caller ∈ walk.finished ∨ bound < rank caller

variable {b commands start} {walk : Traversal Target} {state : BuildState}

/-- A registered target is in the list of those that ran when it is finished. -/
theorem Follows.mem_runlist_iff (hfollows : Follows b commands start walk state) {self : Target}
    (hself : self ∈ b.tlist) : self.target ∈ state.runlist ↔ self ∈ walk.finished := by
  rw [hfollows.runlist_eq, List.mem_map]
  constructor
  · rintro ⟨other, hother, hname⟩
    obtain rfl := b.eq_of_target_eq (hfollows.registered other hother) hself hname
    exact hother
  · exact fun hfinished ↦ ⟨self, hfinished, rfl⟩

/-- A registered target is in the log when it is finished and its command was executed. -/
theorem Follows.mem_log_iff (hfollows : Follows b commands start walk state) {self : Target}
    (hself : self ∈ b.tlist) :
    self.target ∈ state.log ↔
      self ∈ walk.finished ∧ Executed b start (firstCalls walk) self := by
  obtain ⟨executed, hexecuted, hlog⟩ := hfollows.log_eq
  rw [hlog, List.mem_map]
  constructor
  · rintro ⟨other, hother, hname⟩
    obtain ⟨hfinished, hrun⟩ := List.mem_filter.mp hother
    obtain rfl := b.eq_of_target_eq (hfollows.registered other hfinished) hself hname
    exact ⟨hfinished, (hexecuted other hfinished).mp hrun⟩
  · rintro ⟨hfinished, hrun⟩
    exact ⟨self, List.mem_filter.mpr ⟨hfinished, (hexecuted self hfinished).mpr hrun⟩, rfl⟩

/-- The log names finished targets. -/
theorem Follows.exists_of_mem_log (hfollows : Follows b commands start walk state) {name : String}
    (hname : name ∈ state.log) : ∃ self ∈ walk.finished, self.target = name := by
  obtain ⟨executed, -, hlog⟩ := hfollows.log_eq
  rw [hlog] at hname
  obtain ⟨self, hself, hname⟩ := List.mem_map.mp hname
  exact ⟨self, (List.mem_filter.mp hself).1, hname⟩

/-- A file that no executed command made is as it was. -/
theorem Follows.getFtime_eq (hfollows : Follows b commands start walk state) {name : String}
    (hname : name ∉ state.log) : getFtime state.files name = getFtime start name := by
  rw [getFtime, getFtime, hfollows.files_eq, if_neg fun hmade ↦ hname hmade.1]

/-- The modification time of a file that an executed command made. -/
theorem Follows.getFtime_of_executed (hfollows : Follows b commands start walk state)
    {self : Target} (hself : self ∈ b.tlist) (hfile : isPhony self.target = false)
    (hfinished : self ∈ walk.finished) (hrun : Executed b start (firstCalls walk) self) :
    getFtime state.files self.target = commands.stamp self.target := by
  rw [getFtime, hfollows.files_eq,
    if_pos ⟨(hfollows.mem_log_iff hself).mpr ⟨hfinished, hrun⟩, hfile⟩]
  rfl

/-- A call changes nothing for the finished targets. -/
theorem Follows.call (hfollows : Follows b commands start walk state) {caller child : Target}
    (hcaller : caller ∉ walk.finished) :
    Follows b commands start (walk.call caller child) state := by
  have hsame : ∀ self ∈ walk.finished, ∀ dep,
      firstCalls (walk.call caller child) self dep ↔ firstCalls walk self dep := by
    intro self hself dep
    rw [firstCalls, Traversal.mem_firsts_call]
    refine or_iff_left fun hedge ↦ hcaller ?_
    obtain rfl : self = caller := congrArg Prod.fst hedge.2
    exact hself
  have hrebuilt : ∀ self ∈ walk.finished,
      (Rebuilt b start (firstCalls (walk.call caller child)) self ↔
        Rebuilt b start (firstCalls walk) self) := fun self hself ↦
    rebuilt_congr hfollows.ordered hsame hself
  obtain ⟨executed, hexecuted, hlog⟩ := hfollows.log_eq
  refine ⟨?_, ?_, ?_, ?_, hfollows.files_eq, ⟨executed, ?_, ?_⟩, ?_⟩
  · rw [Traversal.finished_call]
    exact hfollows.runlist_eq
  · rw [Traversal.finished_call]
    exact hfollows.registered
  · unfold Traversal.Ordered
    rw [Traversal.finished_call]
    exact hfollows.ordered
  · rw [Traversal.finished_call]
    exact hfollows.nodup
  · rw [Traversal.finished_call]
    intro self hself
    rw [hexecuted self hself, Executed, Executed, hrebuilt self hself]
  · rw [Traversal.finished_call]
    exact hlog
  · rw [Traversal.finished_call]
    intro self hself hrun
    exact hfollows.expanded self hself ((hrebuilt self hself).mp hrun)

/-- A target is finished whose command was executed or not. -/
theorem Follows.finish (hfollows : Follows b commands start walk state) {self : Target}
    (hself : self ∈ b.tlist) (hunfinished : self ∉ walk.finished)
    (hdeps : ∀ dep ∈ b.targetDeps self, dep ∈ walk.finished) {ran : Bool} {files : Files}
    (hran : ran = true ↔ Executed b start (firstCalls walk) self)
    (hfiles : files = if ran = true ∧ isPhony self.target = false then
        Function.update state.files self.target (some ⟨.file, commands.stamp self.target⟩)
      else state.files)
    (hexpanded : Rebuilt b start (firstCalls walk) self → self.command = some .line →
      self.origdep ≠ []) :
    Follows b commands start (walk.finish self)
      ⟨state.runlist ++ [self.target], files,
        state.log ++ if ran then [self.target] else []⟩ := by
  obtain ⟨executed, hexecuted, hlog⟩ := hfollows.log_eq
  have hne : ∀ other ∈ walk.finished, other ≠ self := fun other hother heq ↦
    hunfinished (heq ▸ hother)
  refine ⟨?_, ?_, hfollows.ordered.finish hdeps, ?_, ?_, ?_, ?_⟩
  · rw [hfollows.runlist_eq, Traversal.finish, List.map_append, List.map_singleton]
  · intro other hother
    rcases List.mem_append.mp hother with hold | hnew
    · exact hfollows.registered other hold
    · rwa [List.mem_singleton.mp hnew]
  · refine List.nodup_append.mpr ⟨hfollows.nodup, List.pairwise_singleton _ _, ?_⟩
    intro other hother new hnew
    rw [List.mem_singleton.mp hnew]
    exact hne other hother
  · intro name
    simp only
    rw [hfiles]
    cases ran with
    | false => simpa using hfollows.files_eq name
    | true =>
      by_cases hname : name = self.target
      · subst hname
        cases hphony : isPhony self.target with
        | false => simp [Function.update_self]
        | true => simpa [hphony] using hfollows.files_eq self.target
      · have hold := hfollows.files_eq name
        have hmem : name ∈ state.log ++ [self.target] ↔ name ∈ state.log := by simp [hname]
        simp only [if_true, hmem]
        rw [← hold]
        split_ifs
        · exact Function.update_of_ne hname _ _
        · rfl
  · refine ⟨fun other ↦ if other = self then ran else executed other, ?_, ?_⟩
    · intro other hother
      rcases List.mem_append.mp hother with hold | hnew
      · simp only [hne other hold, if_false]
        exact hexecuted other hold
      · obtain rfl := List.mem_singleton.mp hnew
        simp only [if_true]
        exact hran
    · have hfilter : (walk.finished.filter fun other ↦
            if other = self then ran else executed other) = walk.finished.filter executed :=
        List.filter_congr fun other hother ↦ if_neg (hne other hother)
      simp only [Traversal.finish, List.filter_append, hfilter, List.map_append, hlog]
      cases ran <;> simp
  · intro other hother hrebuilt
    rcases List.mem_append.mp hother with hold | hnew
    · exact hfollows.expanded other hold hrebuilt
    · obtain rfl := List.mem_singleton.mp hnew
      exact hexpanded hrebuilt

/-! ### The loop over the dependencies -/

/-- A dependency makes a target due. -/
def DueFor (b : Builder) (start : Files) (firsts : Target → Target → Prop) (self : Target) :
    Dep → Prop
  | .fbuilder path => isPhony self.target = true ∨ Newer start path self.target
  | .target dep => (Relays b firsts self dep ∧ Rebuilt b start firsts dep) ∨
      (isPhony self.target = false ∧ isPhony dep.target = false ∧
        Newer start dep.target self.target)

/-- What makes a target due before its dependencies are looked at. -/
def InitiallyDue (b : Builder) (start : Files) (self : Target) : Prop :=
  (isPhony self.target = false ∧ isFile start self.target = false) ∨ b.globalForceRebuild = true

/-- A target is rebuilt when it is due initially, forced, or due for a dependency. -/
theorem rebuilt_iff_due {firsts : Target → Target → Prop} {self : Target} :
    Rebuilt b start firsts self ↔
      (InitiallyDue b start self ∨
        ∃ dep ∈ b.buildDependencies self, DueFor b start firsts self dep) ∨
        self.forceRebuild = true := by
  rw [rebuilt_iff]
  constructor
  · rintro ((hglobal | hforce | ⟨hphony, path, hpath⟩) | ⟨hfile, hmissing | ⟨dep, hdep, hdisk,
      hnewer⟩⟩ | ⟨dep, hrelays, hrebuilt⟩)
    · exact .inl (.inl (.inr hglobal))
    · exact .inr hforce
    · exact .inl (.inr ⟨_, hpath, .inl hphony⟩)
    · exact .inl (.inl (.inl ⟨hfile, hmissing⟩))
    · refine .inl (.inr ⟨dep, hdep, ?_⟩)
      cases dep with
      | fbuilder path => exact .inr hnewer
      | target dep => exact .inr ⟨hfile, hdisk, hnewer⟩
    · exact .inl (.inr ⟨_, mem_targetDeps.mp hrelays.1, .inl ⟨hrelays, hrebuilt⟩⟩)
  · rintro (((⟨hfile, hmissing⟩ | hglobal) | ⟨dep, hdep, hdue⟩) | hforce)
    · exact .inr (.inl ⟨hfile, .inl hmissing⟩)
    · exact .inl (.inl hglobal)
    · cases dep with
      | fbuilder path =>
        cases hphony : isPhony self.target with
        | true => exact .inl (.inr (.inr ⟨hphony, path, hdep⟩))
        | false =>
          refine .inr (.inl ⟨hphony, .inr ⟨_, hdep, trivial, ?_⟩⟩)
          exact hdue.resolve_left (by rw [hphony]; exact Bool.false_ne_true)
      | target dep =>
        rcases hdue with ⟨hrelays, hrebuilt⟩ | ⟨hfile, hdisk, hnewer⟩
        · exact .inr (.inr ⟨dep, hrelays, hrebuilt⟩)
        · exact .inr (.inl ⟨hfile, .inr ⟨_, hdep, hdisk, hnewer⟩⟩)
    · exact .inl (.inr (.inl hforce))

/-- The loop of a target has looked at some of its dependencies. -/
structure Progress (b : Builder) (commands : Commands) (start : Files) (rank : Target → ℕ)
    (owner : Target) (done : List Dep) (docmd : Bool) (walk : Traversal Target)
    (state : BuildState) : Prop where
  follows : Follows b commands start walk state
  unfinished : owner ∉ walk.finished
  calls : ∀ caller child, (caller, child) ∈ walk.firsts →
    caller ∈ walk.finished ∨ rank owner < rank caller ∨ caller = owner
  done_finished : ∀ dep, .target dep ∈ done → dep ∈ walk.finished
  done_calls : ∀ dep, (owner, dep) ∈ walk.firsts → .target dep ∈ done
  docmd_iff : docmd = true ↔
    InitiallyDue b start owner ∨ ∃ dep ∈ done, DueFor b start (firstCalls walk) owner dep

section Loop

variable {rank : Target → ℕ} (hrank : ∀ self, ∀ dep ∈ b.targetDeps self, rank dep < rank self)
  (hordinary : Ordinary start commands)

theorem exists_mem_concat {Item : Type*} {holds : Item → Prop} {items : List Item} {last : Item} :
    (∃ item ∈ items ++ [last], holds item) ↔ (∃ item ∈ items, holds item) ∨ holds last := by
  simp only [List.mem_append, List.mem_singleton, or_and_right, exists_or, exists_eq_left]

/-- The time of the file of a target whose loop is running is the one at the start. -/
theorem Progress.getFtime_self {self : Target} {done : List Dep} {docmd : Bool}
    (hprogress : Progress b commands start rank self done docmd walk state)
    (hself : self ∈ b.tlist) :
    getFtime state.files self.target = getFtime start self.target :=
  hprogress.follows.getFtime_eq fun hmem ↦
    hprogress.unfinished ((hprogress.follows.mem_log_iff hself).mp hmem).1

/-- A pass over a plain file. -/
theorem Progress.fbuilder {self : Target} {done : List Dep} {docmd : Bool} {path : String}
    (hprogress : Progress b commands start rank self done docmd walk state)
    (hself : self ∈ b.tlist) (hpath : .fbuilder path ∈ b.buildDependencies self) :
    Progress b commands start rank self (done ++ [.fbuilder path])
      (docmd || fbuilderBuild state.files self.target path) walk state := by
  have hplain : getFtime state.files path = getFtime start path :=
    hprogress.follows.getFtime_eq fun hmem ↦ by
      obtain ⟨other, hother, hname⟩ := hprogress.follows.exists_of_mem_log hmem
      exact target_ne_of_fbuilder hpath (hprogress.follows.registered other hother) hname
  refine ⟨hprogress.follows, hprogress.unfinished, hprogress.calls, fun dep hdep ↦ ?_,
    fun dep hcall ↦ List.mem_append_left _ (hprogress.done_calls dep hcall), ?_⟩
  · refine hprogress.done_finished dep ((List.mem_append.mp hdep).resolve_right fun hlast ↦ ?_)
    cases List.mem_singleton.mp hlast
  · rw [Bool.or_eq_true, hprogress.docmd_iff, exists_mem_concat, or_assoc, fbuilderBuild,
      hprogress.getFtime_self hself, hplain, Bool.or_eq_true, decide_eq_true_eq]
    rfl

include hordinary in
/-- A file that an executed command made is newer than any other, unless the other is missing. -/
theorem initiallyDue_or_lt_stamp {self : Target} (hfile : isPhony self.target = false)
    (name : String) :
    InitiallyDue b start self ∨ getFtime start self.target < commands.stamp name := by
  cases hattributes : start self.target with
  | none =>
    refine .inl (.inl ⟨hfile, ?_⟩)
    rw [isFile, hattributes]
    rfl
  | some attributes =>
    refine .inr ?_
    rw [getFtime, hattributes]
    exact hordinary.later name self.target attributes hattributes

include hordinary in
/-- What a pass over a target makes of whether its owner is due, after the target was built: the
owner is due if it was before, or for the target. -/
theorem due_iff_of_target {self dep : Target} {docmd res : Bool} (hself : self ∈ b.tlist)
    (hdep : dep ∈ b.targetDeps self) (hfollows : Follows b commands start walk state)
    (hunfinished : self ∉ walk.finished) (hfinished : dep ∈ walk.finished)
    (hinitial : InitiallyDue b start self → docmd = true)
    (hcalled : firstCalls walk self dep → Rebuilt b start (firstCalls walk) dep →
      docmd = true ∨ res = true)
    (hreturned : res = true → DueFor b start (firstCalls walk) self (.target dep)) :
    (if !isPhony dep.target && !isPhony self.target then
        (docmd || res) ||
          decide (getFtime state.files self.target < getFtime state.files dep.target)
      else docmd || res) = true ↔
      docmd = true ∨ DueFor b start (firstCalls walk) self (.target dep) := by
  have hregistered := registered_of_mem_targetDeps hdep
  by_cases hfiles : isPhony dep.target = false ∧ isPhony self.target = false
  · have htime : getFtime state.files self.target = getFtime start self.target :=
      hfollows.getFtime_eq fun hmem ↦ hunfinished ((hfollows.mem_log_iff hself).mp hmem).1
    rw [hfiles.1, hfiles.2, htime]
    simp only [Bool.not_false, Bool.and_true, if_true, Bool.or_eq_true, decide_eq_true_eq]
    by_cases hrun : Executed b start (firstCalls walk) dep
    · rw [hfollows.getFtime_of_executed hregistered hfiles.1 hfinished hrun]
      constructor
      · rintro ((hdocmd | hreturn) | -)
        · exact .inl hdocmd
        · exact .inr (hreturned hreturn)
        · exact .inr (.inl ⟨⟨hdep, .inr ⟨hfiles.2, hfiles.1, hrun.2⟩⟩, hrun.1⟩)
      · intro _
        rcases initiallyDue_or_lt_stamp (b := b) hordinary hfiles.2 dep.target with hdue | hlater
        · exact .inl (.inl (hinitial hdue))
        · exact .inr hlater
    · rw [hfollows.getFtime_eq fun hmem ↦ hrun ((hfollows.mem_log_iff hregistered).mp hmem).2]
      constructor
      · rintro ((hdocmd | hreturn) | hnewer)
        · exact .inl hdocmd
        · exact .inr (hreturned hreturn)
        · exact .inr (.inr ⟨hfiles.2, hfiles.1, hnewer⟩)
      · rintro (hdocmd | ⟨⟨-, hcall | ⟨-, -, hcommand⟩⟩, hrebuilt⟩ | ⟨-, -, hnewer⟩)
        · exact .inl (.inl hdocmd)
        · exact .inl (hcalled hcall hrebuilt)
        · exact absurd ⟨hrebuilt, hcommand⟩ hrun
        · exact .inr hnewer
  · rw [if_neg fun hboth ↦ hfiles (by simpa using hboth), Bool.or_eq_true]
    constructor
    · exact Or.imp_right hreturned
    · rintro (hdocmd | ⟨⟨-, hcall | ⟨hself, hdep, -⟩⟩, hrebuilt⟩ | ⟨hself, hdep, -⟩)
      · exact .inl hdocmd
      · exact hcalled hcall hrebuilt
      · exact absurd ⟨hdep, hself⟩ hfiles
      · exact absurd ⟨hdep, hself⟩ hfiles

include hrank hordinary in
/-- A pass over a target, which is built first. -/
theorem Progress.target {self dep : Target} {done : List Dep} {docmd res : Bool}
    {walk' : Traversal Target} {state' : BuildState}
    (hprogress : Progress b commands start rank self done docmd walk state)
    (hself : self ∈ b.tlist) (hdep : dep ∈ b.targetDeps self)
    (hspec : VisitSpec b.targetDeps dep (walk.call self dep) walk')
    (hfollows : Follows b commands start walk' state')
    (hres : res = true ↔ dep ∉ walk.finished ∧ Rebuilt b start (firstCalls walk') dep) :
    Progress b commands start rank self (done ++ [.target dep])
      (if !isPhony dep.target && !isPhony self.target then
        (docmd || res) ||
          decide (getFtime state'.files self.target < getFtime state'.files dep.target)
      else docmd || res) walk' state' := by
  have hunfinished : self ∉ walk'.finished := hspec.caller_unfinished hrank hdep (by
    rw [Traversal.finished_call]
    exact hprogress.unfinished)
  have hkept : ∀ other ∈ walk.finished, other ∈ walk'.finished := fun other hother ↦
    hspec.finished_prefix.subset (by rwa [Traversal.finished_call])
  have hedges : ∀ child, firstCalls walk' self child ↔
      firstCalls walk self child ∨ (dep ∉ walk.finished ∧ child = dep) := fun child ↦ by
    rw [firstCalls, hspec.firsts_iff self child (.inr hunfinished), Traversal.mem_firsts_call,
      Prod.mk.injEq, eq_self_iff_true, true_and]
    rfl
  have hsame : ∀ other ∈ walk.finished, ∀ child,
      firstCalls walk' other child ↔ firstCalls walk other child := fun other hother child ↦ by
    rw [firstCalls, hspec.firsts_iff other child (.inl (by rwa [Traversal.finished_call])),
      Traversal.mem_firsts_call]
    refine or_iff_left fun hedge ↦ hprogress.unfinished ?_
    obtain rfl : other = self := congrArg Prod.fst hedge.2
    exact hother
  have hdone : (∃ other ∈ done, DueFor b start (firstCalls walk') self other) ↔
      ∃ other ∈ done, DueFor b start (firstCalls walk) self other := by
    refine exists_congr fun other ↦ and_congr_right fun hother ↦ ?_
    cases other with
    | fbuilder path => rfl
    | target other =>
      have hfinished := hprogress.done_finished other hother
      have hcall : firstCalls walk' self other ↔ firstCalls walk self other := by
        rw [hedges]
        refine or_iff_left fun hnew ↦ hnew.1 ?_
        rwa [← hnew.2]
      rw [DueFor, DueFor, Relays, Relays, hcall,
        rebuilt_congr hprogress.follows.ordered hsame hfinished]
  refine ⟨hfollows, hunfinished, ?_, ?_, ?_, ?_⟩
  · intro caller child hcall
    by_cases hcaller : caller ∈ walk'.finished
    · exact .inl hcaller
    · rw [hspec.firsts_iff caller child (.inr hcaller), Traversal.mem_firsts_call] at hcall
      rcases hcall with hold | ⟨-, hnew⟩
      · exact (hprogress.calls caller child hold).imp_left (hkept caller)
      · exact .inr (.inr (congrArg Prod.fst hnew))
  · intro other hother
    rcases List.mem_append.mp hother with hold | hnew
    · exact hkept other (hprogress.done_finished other hold)
    · obtain rfl := Dep.target.inj (List.mem_singleton.mp hnew)
      exact hspec.node_finished
  · intro other hcall
    rcases (hedges other).mp hcall with hold | ⟨-, rfl⟩
    · exact List.mem_append_left _ (hprogress.done_calls other hold)
    · exact List.mem_append_right _ (List.mem_singleton.mpr rfl)
  · rw [exists_mem_concat, hdone, ← or_assoc, ← hprogress.docmd_iff]
    refine due_iff_of_target hordinary hself hdep hfollows hunfinished hspec.node_finished
      (fun hdue ↦ hprogress.docmd_iff.mpr (.inl hdue)) (fun hcall hrebuilt ↦ ?_) fun hrun ↦ ?_
    · rcases (hedges dep).mp hcall with hold | ⟨hnew, -⟩
      · refine .inl (hprogress.docmd_iff.mpr (.inr (hdone.mp ⟨.target dep, ?_, ?_⟩)))
        · exact hprogress.done_calls dep hold
        · exact .inl ⟨⟨hdep, .inl hcall⟩, hrebuilt⟩
      · exact .inr (hres.mpr ⟨hnew, hrebuilt⟩)
    · obtain ⟨hnew, hrebuilt⟩ := hres.mp hrun
      exact .inl ⟨⟨hdep, .inl ((hedges dep).mpr (.inr ⟨hnew, rfl⟩))⟩, hrebuilt⟩

/-- The build of a target follows the walk from it. -/
def BuildFollows (b : Builder) (commands : Commands) (start : Files) (rank : Target → ℕ)
    (fuel : ℕ) : Prop :=
  ∀ self ∈ b.tlist, ∀ walk state res state', Follows b commands start walk state →
    CallsAbove rank (rank self) walk → b.build commands fuel self state = some (res, state') →
      ∃ walk', visit b.targetDeps fuel self walk = some walk' ∧
        Follows b commands start walk' state' ∧
          (res = true ↔ self ∉ walk.finished ∧ Rebuilt b start (firstCalls walk') self)

include hrank hordinary in
/-- The loop of a target follows its calls. -/
theorem Progress.loop {fuel : ℕ} (hbuild : BuildFollows b commands start rank fuel) {self : Target}
    (hself : self ∈ b.tlist) {deps done : List Dep} {docmd docmd' : Bool} {state' : BuildState}
    (hdeps : ∀ dep ∈ deps, dep ∈ b.buildDependencies self)
    (hprogress : Progress b commands start rank self done docmd walk state)
    (hfold : deps.foldlM (depRunner (b.build commands fuel) self) (docmd, state) =
      some (docmd', state')) :
    ∃ walk', (deps.filterMap Dep.target?).foldlM
        (fun walk child ↦ visit b.targetDeps fuel child (walk.call self child)) walk = some walk' ∧
      Progress b commands start rank self (done ++ deps) docmd' walk' state' := by
  induction deps generalizing done docmd walk state with
  | nil =>
    obtain ⟨rfl, rfl⟩ := Prod.mk.inj (Option.some.inj hfold)
    exact ⟨walk, rfl, by rwa [List.append_nil]⟩
  | cons dep deps ih =>
    obtain ⟨hdep, hrest⟩ := List.forall_mem_cons.mp hdeps
    rw [List.foldlM_cons] at hfold
    obtain ⟨⟨docmd₁, state₁⟩, hstep, hfold⟩ := Option.bind_eq_some_iff.mp hfold
    rw [List.append_cons]
    cases dep with
    | fbuilder path =>
      obtain ⟨rfl, rfl⟩ := Prod.mk.inj (Option.some.inj hstep)
      exact ih hrest (hprogress.fbuilder hself hdep) hfold
    | target dep =>
      obtain ⟨⟨res, state₂⟩, hcall, heq⟩ := Option.map_eq_some_iff.mp hstep
      obtain ⟨rfl, rfl⟩ := Prod.mk.inj heq
      have hmem := mem_targetDeps.mpr hdep
      have hlower := hrank self dep hmem
      have habove : CallsAbove rank (rank dep) (walk.call self dep) := by
        intro caller child hedge
        rw [Traversal.finished_call]
        rcases Traversal.mem_firsts_call.mp hedge with hold | ⟨-, hnew⟩
        · rcases hprogress.calls caller child hold with hfinished | hhigher | rfl
          · exact .inl hfinished
          · exact .inr (Nat.lt_trans hlower hhigher)
          · exact .inr hlower
        · obtain rfl : caller = self := congrArg Prod.fst hnew
          exact .inr hlower
      obtain ⟨middle, hvisit, hfollows, hres⟩ := hbuild dep (registered_of_mem_targetDeps hmem)
        _ _ _ _ (hprogress.follows.call hprogress.unfinished) habove hcall
      rw [Traversal.finished_call] at hres
      obtain ⟨walk', hwalk, hlast⟩ := ih hrest (hprogress.target hrank hordinary hself hmem
        (visit_spec hrank hvisit) hfollows hres) hfold
      refine ⟨walk', ?_, hlast⟩
      rw [List.filterMap_cons_some (show (Dep.target dep).target? = some dep from rfl),
        List.foldlM_cons]
      exact Option.bind_eq_some_iff.mpr ⟨middle, hvisit, hwalk⟩

/-- The end of a build follows the end of the walk. -/
theorem Progress.finish {self : Target} {docmd res : Bool} {state' : BuildState}
    (hordinary : Ordinary start commands) (hself : self ∈ b.tlist)
    (hprogress : Progress b commands start rank self (b.buildDependencies self) docmd walk state)
    (hrun : runTarget commands self docmd state = some (res, state')) :
    Follows b commands start (walk.finish self) state' ∧
      (res = true ↔ Rebuilt b start (firstCalls (walk.finish self)) self) := by
  have hrebuilt : (docmd || self.forceRebuild) = true ↔
      Rebuilt b start (firstCalls (walk.finish self)) self := by
    rw [Bool.or_eq_true, hprogress.docmd_iff]
    exact rebuilt_iff_due.symm
  have hdeps : ∀ dep ∈ b.targetDeps self, dep ∈ walk.finished := fun dep hdep ↦
    hprogress.done_finished dep (mem_targetDeps.mp hdep)
  obtain ⟨⟨keepFlag, middle⟩, hran, heq⟩ := Option.map_eq_some_iff.mp hrun
  obtain ⟨rfl, rfl⟩ := Prod.mk.inj heq
  split at hran
  case h_1 command hdocmd hcommand =>
    have hexpand : ¬(command = .line ∧ self.origdep = []) := fun hline ↦ by
      rw [execute, if_pos hline] at hran
      cases hran
    rw [execute, if_neg hexpand, hordinary.reports] at hran
    simp only [Option.some.injEq, Prod.mk.injEq] at hran
    obtain ⟨rfl, rfl⟩ := hran
    rw [Bool.and_true]
    refine ⟨?_, hrebuilt⟩
    have hexecuted : Executed b start (firstCalls walk) self :=
      ⟨hrebuilt.mp hdocmd, by rw [hcommand]; rfl⟩
    refine hprogress.follows.finish hself hprogress.unfinished hdeps
      (iff_of_true rfl hexecuted) ?_ ?_
    · cases hphony : isPhony self.target <;> simp
    · intro _ hline hnone
      exact hexpand ⟨Option.some.inj (hcommand.symm.trans hline), hnone⟩
  case h_2 hskip =>
    obtain ⟨rfl, rfl⟩ := Prod.mk.inj (Option.some.inj hran)
    rw [Bool.and_true]
    refine ⟨?_, hrebuilt⟩
    have hexecuted : ¬Executed b start (firstCalls walk) self := by
      rintro ⟨hself, hsome⟩
      obtain ⟨command, hcommand⟩ := Option.isSome_iff_exists.mp hsome
      exact hskip command (hrebuilt.mpr hself) hcommand
    have hfinish := hprogress.follows.finish hself hprogress.unfinished hdeps
      (iff_of_false Bool.false_ne_true hexecuted)
      (if_neg fun hran ↦ Bool.false_ne_true hran.1).symm ?_
    · simpa using hfinish
    · intro hself hline
      exact absurd ⟨hself, by rw [hline]; rfl⟩ hexecuted

include hrank hordinary in
/-- A build follows the walk, and returns whether its target was rebuilt. -/
theorem build_follows (fuel : ℕ) : BuildFollows b commands start rank fuel := by
  induction fuel with
  | zero => exact fun _ _ _ _ _ _ _ _ hbuild ↦ nomatch hbuild
  | succ fuel ih =>
    intro self hself walk state res state' hfollows habove hbuild
    rw [Builder.build] at hbuild
    rw [visit]
    by_cases hfinished : self ∈ walk.finished
    · rw [if_pos ((hfollows.mem_runlist_iff hself).mpr hfinished)] at hbuild
      obtain ⟨rfl, rfl⟩ := Prod.mk.inj (Option.some.inj hbuild)
      refine ⟨walk, if_pos hfinished, hfollows, ?_⟩
      exact iff_of_false Bool.false_ne_true fun hnew ↦ hnew.1 hfinished
    · rw [if_neg fun hmem ↦ hfinished ((hfollows.mem_runlist_iff hself).mp hmem)] at hbuild
      obtain ⟨⟨docmd, middle⟩, hfold, hrun⟩ := Option.bind_eq_some_iff.mp hbuild
      have hlog : self.target ∉ state.log := fun hmem ↦
        hfinished ((hfollows.mem_log_iff hself).mp hmem).1
      have hstart : Progress b commands start rank self []
          ((!isPhony self.target && !isFile state.files self.target) || b.globalForceRebuild)
          walk state := by
        refine ⟨hfollows, hfinished, fun caller child hcall ↦ ?_,
          fun dep hdep ↦ absurd hdep List.not_mem_nil, fun dep hcall ↦ ?_, ?_⟩
        · exact (habove caller child hcall).imp_right .inl
        · exact absurd ((habove self dep hcall).resolve_left hfinished) (Nat.lt_irrefl _)
        · have hfile : isFile state.files self.target = isFile start self.target := by
            rw [isFile, isFile, hfollows.files_eq, if_neg fun hmade ↦ hlog hmade.1]
          rw [hfile, InitiallyDue]
          simp
      obtain ⟨walk', hwalk, hprogress⟩ := hstart.loop hrank hordinary ih hself (fun _ ↦ id) hfold
      rw [List.nil_append] at hprogress
      obtain ⟨hlast, hres⟩ := hprogress.finish hordinary hself hrun
      refine ⟨walk'.finish self, ?_, hlast, ?_⟩
      · rw [if_neg hfinished]
        exact Option.map_eq_some_iff.mpr ⟨walk', hwalk, rfl⟩
      · rw [hres]
        exact (and_iff_right hfinished).symm

/-- At the start nothing has happened. -/
theorem follows_start : Follows b commands start .empty (.start start) where
  runlist_eq := rfl
  registered := fun _ hself ↦ absurd hself List.not_mem_nil
  ordered := fun before self rest hsplit ↦ by
    have hlength := congrArg List.length hsplit
    simp [Traversal.empty] at hlength
  nodup := List.nodup_nil
  files_eq := fun name ↦ (if_neg fun hmade ↦ absurd hmade.1 List.not_mem_nil).symm
  log_eq := ⟨fun _ ↦ false, fun _ hself ↦ absurd hself List.not_mem_nil, rfl⟩
  expanded := fun _ hself ↦ absurd hself List.not_mem_nil

include hrank hordinary in
/-- The build of a list of roots follows the walk from them. -/
theorem buildAll_follows {fuel : ℕ} {roots : List Target} (hroots : ∀ root ∈ roots, root ∈ b.tlist)
    {state' : BuildState} (hfollows : Follows b commands start walk state)
    (hcalls : ∀ caller child, (caller, child) ∈ walk.firsts → caller ∈ walk.finished)
    (hbuild : b.buildAll commands fuel roots state = some state') :
    ∃ walk', visitAll b.targetDeps fuel roots walk = some walk' ∧
      Follows b commands start walk' state' := by
  induction roots generalizing walk state with
  | nil =>
    obtain rfl := Option.some.inj hbuild
    exact ⟨walk, rfl, hfollows⟩
  | cons root roots ih =>
    obtain ⟨hroot, hrest⟩ := List.forall_mem_cons.mp hroots
    rw [Builder.buildAll, List.foldlM_cons] at hbuild
    obtain ⟨middle, hfirst, hbuild⟩ := Option.bind_eq_some_iff.mp hbuild
    obtain ⟨result, hresult, rfl⟩ := Option.map_eq_some_iff.mp hfirst
    obtain ⟨walk₁, hvisit, hfollows₁, -⟩ := build_follows hrank hordinary fuel root hroot walk state
      result.1 result.2 hfollows (fun caller child hcall ↦ .inl (hcalls caller child hcall)) hresult
    have hspec := visit_spec hrank hvisit
    have hcalls₁ : ∀ caller child, (caller, child) ∈ walk₁.firsts → caller ∈ walk₁.finished := by
      intro caller child hcall
      by_contra hcaller
      rw [hspec.firsts_iff caller child (.inr hcaller)] at hcall
      exact hcaller (hspec.finished_prefix.subset (hcalls caller child hcall))
    obtain ⟨walk', hwalk, hlast⟩ := ih hrest hfollows₁ hcalls₁ hbuild
    refine ⟨walk', ?_, hlast⟩
    rw [visitAll, List.foldlM_cons]
    exact Option.bind_eq_some_iff.mpr ⟨walk₁, hvisit, hwalk⟩

include hrank in
/-- With enough fuel a build has a result if commands report execution and command lines can be
expanded. -/
theorem exists_build (hreports : ∀ name, commands.code name = .executed) {fuel : ℕ} {self : Target}
    (hfuel : rank self < fuel)
    (hexpand : ∀ other, Reaches b.targetDeps self other → other.command = some .line →
      other.origdep ≠ []) (state : BuildState) :
    ∃ result, b.build commands fuel self state = some result := by
  induction fuel generalizing self state with
  | zero => cases hfuel
  | succ fuel ih =>
    rw [Builder.build]
    split_ifs
    · exact ⟨_, rfl⟩
    · obtain ⟨⟨docmd, middle⟩, hfold⟩ : ∃ result, (b.buildDependencies self).foldlM
          (depRunner (b.build commands fuel) self)
          ((!isPhony self.target && !isFile state.files self.target) || b.globalForceRebuild,
            state) = some result := by
        refine exists_foldlM (fun dep hdep progress ↦ ?_) _
        cases dep with
        | fbuilder path => exact ⟨_, rfl⟩
        | target dep =>
          have hmem := mem_targetDeps.mpr hdep
          have hlower := hrank self dep hmem
          obtain ⟨result, hresult⟩ := ih (by omega)
            (fun other hreaches ↦ hexpand other (.head hmem hreaches)) progress.2
          exact ⟨_, Option.map_eq_some_iff.mpr ⟨result, hresult, rfl⟩⟩
      simp only [hfold, Option.bind_some]
      rw [runTarget]
      simp only
      split
      case h_1 command hdocmd hcommand =>
        rw [execute, if_neg, hreports]
        · exact ⟨_, rfl⟩
        · rintro ⟨rfl, hnone⟩
          exact hexpand self .refl hcommand hnone
      case h_2 => exact ⟨_, rfl⟩

end Loop

end Following

end Elua.Build
