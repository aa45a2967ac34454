import Elua.Build.Rebuilding
import Mathlib.Algebra.Order.BigOperators.Group.List
import Mathlib.Algebra.Order.Group.Nat

/-!
# Incremental builds

`RebuildsAll` is what an incremental build has to do: the command of every target is executed that
is missing, or older than a file it depends on, directly or not, or that depends on a target whose
command was executed; no command is executed twice, or before those of its dependencies.

The return value of a target gets lost when the target is reached a second time, and only a file
has a modification time beside it, so a target that depends on a phony target may be left out.
`rebuildsAll_iff_relayed` says for which targets and roots a build does what it has to do whatever
the modification times at its start are: those where every cause below a target reaches it
(`Relayed`). -/

set_option autoImplicit false
set_option relaxedAutoImplicit false

namespace Elua.Build

open Foundation Relation

/-- The targets do not depend on each other in a circle. -/
def Builder.Acyclic (b : Builder) : Prop :=
  ∃ rank : Target → ℕ, ∀ self ∈ b.tlist, ∀ dep ∈ b.targetDeps self, rank dep < rank self

/-- A target depends on something, directly or not. -/
def Below (b : Builder) (self : Target) (dep : Dep) : Prop :=
  ∃ last, Reaches b.targetDeps self last ∧ dep ∈ b.buildDependencies last

/-- A target has to be rebuilt in a build that executes certain commands. -/
def Stale (b : Builder) (start : Files) (log : List String) (self : Target) : Prop :=
  (isPhony self.target = false ∧ isFile start self.target = false) ∨
    (isPhony self.target = false ∧
      ∃ dep, Below b self dep ∧ dep.OnDisk ∧ Newer start dep.path self.target) ∨
    ∃ dep, Below b self (.target dep) ∧ dep.target ∈ log

/-- A build of some roots executes the commands that it has to, each once and in order. -/
structure RebuildsAll (b : Builder) (roots : List Target) (start : Files) (log : List String) :
    Prop where
  complete : ∀ root ∈ roots, ∀ self, Reaches b.targetDeps root self →
    self.command.isSome = true → Stale b start log self → self.target ∈ log
  once : log.Nodup
  after_deps : ∀ self ∈ b.tlist, ∀ dep, Below b self (.target dep) → self.target ∈ log →
    dep.target ∈ log → [dep.target, self.target].Sublist log

/-! ### What reaches a target -/

/-- A target is the first to call another one when some roots are built. -/
def FirstCall (b : Builder) (roots : List Target) (self dep : Target) : Prop :=
  ∃ fuel walk, visitAll b.targetDeps fuel roots .empty = some walk ∧ firstCalls walk self dep

/-- What one target passes on reaches another. -/
def Passes (b : Builder) (roots : List Target) : Target → Target → Prop :=
  ReflTransGen (Relays b (FirstCall b roots))

/-- A file is reached from a target through files that pass on to it. -/
def FileReaches (b : Builder) (roots : List Target) (owner : Target) (dep : Dep) : Prop :=
  ∃ last, ReflTransGen (fun self next ↦ next ∈ b.targetDeps self ∧
    isPhony next.target = false ∧ Passes b roots owner next) owner last ∧
      dep ∈ b.buildDependencies last

/-- Every file below a file reaches it through files, and what makes a command below a target run
reaches the target. -/
structure RelayedAt (b : Builder) (roots : List Target) (owner : Target) : Prop where
  files : isPhony owner.target = false → ∀ dep, Below b owner dep → dep.OnDisk →
    FileReaches b roots owner dep
  targets : ∀ dep, Below b owner (.target dep) → dep.command.isSome = true →
    ∀ cause, Passes b roots dep cause → OwnCause b cause ∨ isPhony cause.target = false →
      Passes b roots owner cause

/-- Every command line that is executed can be expanded, and every target with a command is always
rebuilt, or reached by every cause below it. -/
structure Relayed (b : Builder) (roots : List Target) : Prop where
  expands : ∀ root ∈ roots, ∀ self, Reaches b.targetDeps root self →
    self.command = some .line → self.origdep ≠ []
  relayed : ∀ root ∈ roots, ∀ self, Reaches b.targetDeps root self → self.command.isSome = true →
    (∃ cause, Passes b roots self cause ∧ OwnCause b cause) ∨ RelayedAt b roots self

section Runs

variable {b : Builder} {roots : List Target} {start : Files} {commands : Commands}

/-- A rank of the registered targets is one of all. -/
theorem Builder.Acyclic.exists_rank (hacyclic : b.Acyclic) :
    ∃ rank : Target → ℕ, ∀ self, ∀ dep ∈ b.targetDeps self, rank dep < rank self := by
  classical
  obtain ⟨rank, hrank⟩ := hacyclic
  refine ⟨fun self ↦ if self ∈ b.tlist then rank self
    else ((b.targetDeps self).map rank).sum + 1, fun self dep hdep ↦ ?_⟩
  simp only [registered_of_mem_targetDeps hdep, if_true]
  split_ifs with hself
  · exact hrank self hself dep hdep
  · exact Nat.lt_succ_of_le (List.le_sum_of_mem (List.mem_map_of_mem hdep))

/-- What a registered target reaches is registered. -/
theorem registered_of_reaches {self other : Target} (hself : self ∈ b.tlist)
    (hreaches : Reaches b.targetDeps self other) : other ∈ b.tlist := by
  rcases hreaches.cases_tail with rfl | ⟨last, -, hdep⟩
  · exact hself
  · exact registered_of_mem_targetDeps hdep

/-- What passes on to a registered target is registered. -/
theorem registered_of_passes {self cause : Target} (hself : self ∈ b.tlist)
    (hpasses : Passes b roots self cause) : cause ∈ b.tlist :=
  registered_of_reaches hself (ReflTransGen.lift id (fun _ _ hrelays ↦ hrelays.1) _ _ hpasses)

/-- Dependencies of one path are the same. -/
theorem dep_eq_of_path_eq {first second : Target} {dep other : Dep}
    (hdep : dep ∈ b.buildDependencies first) (hother : other ∈ b.buildDependencies second)
    (hpath : dep.path = other.path) : dep = other := by
  cases dep with
  | fbuilder path =>
    cases other with
    | fbuilder otherPath => exact congrArg Dep.fbuilder hpath
    | target other =>
      have hregistered := registered_of_mem_targetDeps (mem_targetDeps.mpr hother)
      exact absurd hpath.symm (target_ne_of_fbuilder hdep hregistered)
  | target dep =>
    have hregistered := registered_of_mem_targetDeps (mem_targetDeps.mpr hdep)
    cases other with
    | fbuilder path => exact absurd hpath (target_ne_of_fbuilder hother hregistered)
    | target other =>
      exact congrArg Dep.target (b.eq_of_target_eq hregistered
        (registered_of_mem_targetDeps (mem_targetDeps.mpr hother)) hpath)

/-- A target without circles does not stand below itself. -/
theorem path_ne_of_below (hacyclic : b.Acyclic) {owner : Target} (howner : owner ∈ b.tlist)
    {dep : Dep} (hbelow : Below b owner dep) : dep.path ≠ owner.target := by
  obtain ⟨rank, hrank⟩ := hacyclic.exists_rank
  obtain ⟨last, hreaches, hdep⟩ := hbelow
  intro hname
  cases dep with
  | fbuilder path => exact target_ne_of_fbuilder hdep howner hname.symm
  | target dep =>
    have hmem := mem_targetDeps.mpr hdep
    obtain rfl := b.eq_of_target_eq (registered_of_mem_targetDeps hmem) howner hname
    have hle := rank_le_of_reaches hrank hreaches
    have hlt := hrank last dep hmem
    omega

/-- What a build leaves behind. -/
theorem exists_walk_of_run (hacyclic : b.Acyclic) (hordinary : Ordinary start commands)
    (hroots : ∀ root ∈ roots, root ∈ b.tlist) {fuel : ℕ} {state : BuildState}
    (hbuild : b.buildAll commands fuel roots (.start start) = some state) :
    ∃ walk, Follows b commands start walk state ∧ firstCalls walk = FirstCall b roots ∧
      ∀ root ∈ roots, ∀ self, Reaches b.targetDeps root self → self ∈ walk.finished := by
  obtain ⟨rank, hrank⟩ := hacyclic.exists_rank
  obtain ⟨walk, hwalk, hfollows⟩ := buildAll_follows hrank hordinary hroots follows_start
    (fun _ _ hcall ↦ absurd hcall List.not_mem_nil) hbuild
  obtain ⟨-, hfinished, -⟩ := visitAll_spec hrank hwalk
  refine ⟨walk, hfollows, ?_, fun root hroot self hreaches ↦
    hfollows.ordered.mem_of_reaches (hfinished root hroot) hreaches⟩
  ext self dep
  constructor
  · exact fun hcall ↦ ⟨fuel, walk, hwalk, hcall⟩
  · rintro ⟨more, other, hother, hcall⟩
    rwa [visitAll_unique hwalk hother]

/-- A build with enough fuel has a result. -/
theorem exists_run (hacyclic : b.Acyclic) (hreports : ∀ name, commands.code name = .executed)
    (hexpand : ∀ root ∈ roots, ∀ self, Reaches b.targetDeps root self →
      self.command = some .line → self.origdep ≠ []) :
    ∃ fuel state, b.buildAll commands fuel roots (.start start) = some state := by
  obtain ⟨rank, hrank⟩ := hacyclic.exists_rank
  refine ⟨(roots.map rank).sum + 1, exists_foldlM (fun root hroot state ↦ ?_) _⟩
  have hfuel : rank root < (roots.map rank).sum + 1 :=
    Nat.lt_succ_of_le (List.le_sum_of_mem (List.mem_map_of_mem hroot))
  obtain ⟨result, hresult⟩ := exists_build hrank hreports hfuel (hexpand root hroot) state
  exact ⟨result.2, Option.map_eq_some_iff.mpr ⟨result, hresult, rfl⟩⟩

/-! ### A build does what it has to -/

/-- A file is rebuilt when a file that it is reached from is newer. -/
theorem rebuilt_of_newer {owner : Target} {dep : Dep} (howner : isPhony owner.target = false)
    (hreaches : FileReaches b roots owner dep) (hdisk : dep.OnDisk)
    (hnewer : Newer start dep.path owner.target) :
    Rebuilt b start (FirstCall b roots) owner := by
  by_contra hnot
  have hcause : ∀ cause, Passes b roots owner cause → ¬FileCause b start cause :=
    fun cause hpasses hcause ↦ hnot ⟨cause, hpasses, .inr hcause⟩
  obtain ⟨last, hchain, hdep⟩ := hreaches
  -- along the chain nothing is newer than what depends on it, so nothing is newer than the owner
  have hold : isPhony last.target = false ∧ Passes b roots owner last ∧
      getFtime start last.target ≤ getFtime start owner.target := by
    clear hdep
    induction hchain with
    | refl => exact ⟨howner, .refl, le_refl _⟩
    | @tail middle next _ hnext ih =>
      obtain ⟨hmem, hfile, hpasses⟩ := hnext
      obtain ⟨hmiddle, hpassed, hle⟩ := ih
      refine ⟨hfile, hpasses, not_lt.mp fun hlater ↦ hcause middle hpassed ⟨hmiddle, .inr ?_⟩⟩
      exact ⟨.target next, mem_targetDeps.mp hmem, hfile, hle.trans_lt hlater⟩
  exact hcause last hold.2.1 ⟨hold.1, .inr ⟨dep, hdep, hdisk, hold.2.2.trans_lt hnewer⟩⟩

/-- A target that every cause below reaches is rebuilt when it has to be. -/
theorem rebuilt_of_stale {owner : Target} {state : BuildState} {walk : Traversal Target}
    (hfollows : Follows b commands start walk state) (hcalls : firstCalls walk = FirstCall b roots)
    (hrelayed : RelayedAt b roots owner) (hstale : Stale b start state.log owner) :
    Rebuilt b start (FirstCall b roots) owner := by
  rcases hstale with ⟨hfile, hmissing⟩ | ⟨hfile, dep, hbelow, hdisk, hnewer⟩ | ⟨dep, hbelow, hlog⟩
  · exact ⟨owner, .refl, .inr ⟨hfile, .inl hmissing⟩⟩
  · exact rebuilt_of_newer hfile (hrelayed.files hfile dep hbelow hdisk) hdisk hnewer
  · obtain ⟨last, -, hdep⟩ := id hbelow
    have hregistered := registered_of_mem_targetDeps (mem_targetDeps.mpr hdep)
    obtain ⟨-, ⟨cause, hpasses, hcause⟩, hcommand⟩ := (hfollows.mem_log_iff hregistered).mp hlog
    rw [hcalls] at hpasses
    exact ⟨cause, hrelayed.targets dep hbelow hcommand cause hpasses (hcause.imp_right And.left),
      hcause⟩

/-- The log of a build has no command twice, and every command behind those of its dependencies. -/
theorem Follows.ordered_log {state : BuildState} {walk : Traversal Target}
    (hfollows : Follows b commands start walk state) :
    state.log.Nodup ∧ ∀ self ∈ b.tlist, ∀ dep, Below b self (.target dep) →
      self.target ∈ state.log → dep.target ∈ state.log →
        [dep.target, self.target].Sublist state.log := by
  obtain ⟨executed, hexecuted, hlog⟩ := hfollows.log_eq
  constructor
  · rw [hlog]
    refine (hfollows.nodup.filter _).map_on fun first hfirst second hsecond hname ↦ ?_
    exact b.eq_of_target_eq (hfollows.registered first (List.mem_filter.mp hfirst).1)
      (hfollows.registered second (List.mem_filter.mp hsecond).1) hname
  · rintro self hself dep ⟨last, hreaches, hdep⟩ hselfLog hdepLog
    have hmem := mem_targetDeps.mpr hdep
    obtain ⟨hfinished, hrun⟩ := (hfollows.mem_log_iff hself).mp hselfLog
    obtain ⟨hdepFinished, hdepRun⟩ :=
      (hfollows.mem_log_iff (registered_of_mem_targetDeps hmem)).mp hdepLog
    have hsublist := ((hfollows.ordered.sublist_of_reaches hfinished hreaches hmem).filter
      executed).map (·.target)
    rw [hlog]
    simpa only [List.filter_cons, (hexecuted _ hdepFinished).mpr hdepRun,
      (hexecuted _ hfinished).mpr hrun, if_true, List.filter_nil, List.map_cons, List.map_nil]
      using hsublist

/-- Where every cause below a target reaches it, a build does what it has to. -/
theorem rebuildsAll_of_relayed (hacyclic : b.Acyclic) (hordinary : Ordinary start commands)
    (hroots : ∀ root ∈ roots, root ∈ b.tlist) (hrelayed : Relayed b roots) :
    ∃ fuel state, b.buildAll commands fuel roots (.start start) = some state ∧
      RebuildsAll b roots start state.log := by
  obtain ⟨fuel, state, hbuild⟩ := @exists_run b roots start commands hacyclic hordinary.reports
    hrelayed.expands
  obtain ⟨walk, hfollows, hcalls, hfinished⟩ := exists_walk_of_run hacyclic hordinary hroots hbuild
  refine ⟨fuel, state, hbuild, ?_, hfollows.ordered_log.1, hfollows.ordered_log.2⟩
  intro root hroot self hreaches hcommand hstale
  have hself := registered_of_reaches (hroots root hroot) hreaches
  refine (hfollows.mem_log_iff hself).mpr ⟨hfinished root hroot self hreaches, ?_, hcommand⟩
  rw [hcalls]
  rcases hrelayed.relayed root hroot self hreaches hcommand with ⟨cause, hpasses, hown⟩ | hself
  · exact ⟨cause, hpasses, .inl hown⟩
  · exact rebuilt_of_stale hfollows hcalls hself hstale

/-! ### A build that always does what it has to -/

/-- Every build of some roots does what it has to, whatever the modification times are. -/
def AlwaysRebuilds (b : Builder) (roots : List Target) : Prop :=
  ∀ start commands, Ordinary start commands →
    ∃ fuel state, b.buildAll commands fuel roots (.start start) = some state ∧
      RebuildsAll b roots start state.log

/-- Commands whose files are dated with a given time. -/
def stampedCommands (stamp : ℤ) : Commands := ⟨fun _ ↦ .executed, fun _ ↦ stamp⟩

/-- A target that has to be rebuilt is. -/
theorem AlwaysRebuilds.rebuilt (halways : AlwaysRebuilds b roots) (hacyclic : b.Acyclic)
    (hroots : ∀ root ∈ roots, root ∈ b.tlist) (hordinary : Ordinary start commands) :
    ∃ log, (∀ root ∈ roots, ∀ self, Reaches b.targetDeps root self →
      (self.target ∈ log ↔ Executed b start (FirstCall b roots) self) ∧
      (self.command.isSome = true → Stale b start log self → self.target ∈ log) ∧
      (Rebuilt b start (FirstCall b roots) self → self.command = some .line →
        self.origdep ≠ [])) := by
  obtain ⟨fuel, state, hbuild, hrebuilds⟩ := halways start commands hordinary
  obtain ⟨walk, hfollows, hcalls, hfinished⟩ := exists_walk_of_run hacyclic hordinary hroots hbuild
  refine ⟨state.log, fun root hroot self hreaches ↦ ⟨?_, ?_, ?_⟩⟩
  · rw [hfollows.mem_log_iff (registered_of_reaches (hroots root hroot) hreaches), hcalls]
    exact and_iff_right (hfinished root hroot self hreaches)
  · exact hrebuilds.complete root hroot self hreaches
  · rw [← hcalls]
    exact hfollows.expanded self (hfinished root hroot self hreaches)

/-- Where a build always does what it has to, every command line can be expanded. -/
theorem AlwaysRebuilds.expands (halways : AlwaysRebuilds b roots) (hacyclic : b.Acyclic)
    (hroots : ∀ root ∈ roots, root ∈ b.tlist) {root self : Target} (hroot : root ∈ roots)
    (hreaches : Reaches b.targetDeps root self) (hline : self.command = some .line) :
    self.origdep ≠ [] := by
  -- nothing exists, so every target is rebuilt
  have hordinary : Ordinary (fun _ ↦ none) (stampedCommands 0) :=
    ⟨fun _ ↦ rfl, fun _ _ _ hnone ↦ nomatch hnone⟩
  obtain ⟨log, hlog⟩ := halways.rebuilt hacyclic hroots hordinary
  intro hnone
  refine (hlog root hroot self hreaches).2.2 ⟨self, .refl, ?_⟩ hline hnone
  cases hphony : isPhony self.target with
  | true =>
    have hself := registered_of_reaches (hroots root hroot) hreaches
    exact .inl (.inr (.inl (b.forced self hself hnone)))
  | false => exact .inr ⟨hphony, .inl rfl⟩

/-- Where a build always does what it has to, every file below a file that is not always rebuilt
reaches it. -/
theorem AlwaysRebuilds.files (halways : AlwaysRebuilds b roots) (hacyclic : b.Acyclic)
    (hroots : ∀ root ∈ roots, root ∈ b.tlist) {root owner : Target} (hroot : root ∈ roots)
    (hreaches : Reaches b.targetDeps root owner) (hcommand : owner.command.isSome = true)
    (hnever : ¬∃ cause, Passes b roots owner cause ∧ OwnCause b cause)
    (hfile : isPhony owner.target = false) {dep : Dep} (hbelow : Below b owner dep)
    (hdisk : dep.OnDisk) : FileReaches b roots owner dep := by
  classical
  by_contra hnot
  have howner := registered_of_reaches (hroots root hroot) hreaches
  -- the owner and the files that reach it are older than all the others
  let Older : String → Prop := fun name ↦ name = owner.target ∨
    ∃ other, FileReaches b roots owner other ∧ other.OnDisk ∧ other.path = name
  let start : Files := fun name ↦ some ⟨.file, if Older name then 0 else 1⟩
  have htime : ∀ name, getFtime start name = if Older name then 0 else 1 := fun _ ↦ rfl
  have hordinary : Ordinary start (stampedCommands 2) := by
    refine ⟨fun _ ↦ rfl, fun name path attributes hattributes ↦ ?_⟩
    obtain rfl := Option.some.inj hattributes
    simp only [stampedCommands]
    split_ifs <;> omega
  have hcause : ∀ cause ∈ b.tlist, Passes b roots owner cause → ¬FileCause b start cause := by
    rintro cause hregistered hpasses ⟨hcauseFile, hmissing | ⟨next, hnext, hnextDisk, hnewer⟩⟩
    · cases hmissing
    rw [Newer, htime, htime] at hnewer
    have hyounger : ¬Older next.path := fun holder ↦ by
      rw [if_pos holder] at hnewer
      split_ifs at hnewer <;> omega
    have holder : Older cause.target := by
      by_contra hlater
      rw [if_neg hlater, if_neg hyounger] at hnewer
      omega
    rcases holder with hname | ⟨other, ⟨last, hchain, hother⟩, hotherDisk, hname⟩
    · obtain rfl := b.eq_of_target_eq hregistered howner hname
      exact hyounger (.inr ⟨next, ⟨cause, .refl, hnext⟩, hnextDisk, rfl⟩)
    · cases other with
      | fbuilder path => exact target_ne_of_fbuilder hother hregistered hname.symm
      | target other =>
        have hmem := mem_targetDeps.mpr hother
        obtain rfl := b.eq_of_target_eq (registered_of_mem_targetDeps hmem) hregistered hname
        have hlonger := hchain.tail ⟨hmem, hotherDisk, hpasses⟩
        exact hyounger (.inr ⟨next, ⟨other, hlonger, hnext⟩, hnextDisk, rfl⟩)
  obtain ⟨log, hlog⟩ := halways.rebuilt hacyclic hroots hordinary
  obtain ⟨hmem, hcomplete, -⟩ := hlog root hroot owner hreaches
  have hnewer : Newer start dep.path owner.target := by
    have hyoung : ¬Older dep.path := by
      rintro (hname | ⟨other, hother, hotherDisk, hname⟩)
      · exact path_ne_of_below hacyclic howner hbelow hname
      · obtain ⟨first, -, hdep⟩ := hbelow
        obtain ⟨second, -, hotherDep⟩ := id hother
        obtain rfl := dep_eq_of_path_eq hotherDep hdep hname
        exact hnot hother
    rw [Newer, htime, htime, if_pos (.inl rfl), if_neg hyoung]
    omega
  obtain ⟨⟨cause, hpasses, hown | hfileCause⟩, -⟩ :=
    hmem.mp (hcomplete hcommand (.inr (.inl ⟨hfile, dep, hbelow, hdisk, hnewer⟩)))
  · exact hnever ⟨cause, hpasses, hown⟩
  · exact hcause cause (registered_of_passes howner hpasses) hpasses hfileCause

/-- Where a build always does what it has to, what makes a command below a target run that is not
always rebuilt reaches the target. -/
theorem AlwaysRebuilds.targets (halways : AlwaysRebuilds b roots) (hacyclic : b.Acyclic)
    (hroots : ∀ root ∈ roots, root ∈ b.tlist) {root owner : Target} (hroot : root ∈ roots)
    (hreaches : Reaches b.targetDeps root owner) (hcommand : owner.command.isSome = true)
    (hnever : ¬∃ cause, Passes b roots owner cause ∧ OwnCause b cause) {dep : Target}
    (hbelow : Below b owner (.target dep)) (hdepCommand : dep.command.isSome = true)
    {cause : Target} (hpasses : Passes b roots dep cause)
    (hcause : OwnCause b cause ∨ isPhony cause.target = false) : Passes b roots owner cause := by
  have howner := registered_of_reaches (hroots root hroot) hreaches
  -- the cause is missing, and all other files are of one age
  let start : Files := fun name ↦ if name = cause.target then none else some ⟨.file, 0⟩
  have hordinary : Ordinary start (stampedCommands 1) := by
    refine ⟨fun _ ↦ rfl, fun name path attributes hattributes ↦ ?_⟩
    simp only [start] at hattributes
    split_ifs at hattributes
    obtain rfl := Option.some.inj hattributes
    exact Int.zero_lt_one
  have hfileCause : ∀ other, FileCause b start other → other.target = cause.target := by
    rintro other ⟨hfile, hcases⟩
    by_contra hne
    have hstart : start other.target = some ⟨.file, 0⟩ := if_neg hne
    rcases hcases with hmissing | ⟨next, -, -, hnewer⟩
    · rw [isFile, hstart] at hmissing
      cases hmissing
    · rw [Newer, getFtime, getFtime, hstart] at hnewer
      simp only [start, Option.map_some, Option.getD_some] at hnewer
      split_ifs at hnewer <;> simp at hnewer
  obtain ⟨log, hlog⟩ := halways.rebuilt hacyclic hroots hordinary
  obtain ⟨last, hlast, hdep⟩ := id hbelow
  have hdepReaches : Reaches b.targetDeps root dep :=
    (hreaches.trans hlast).tail (mem_targetDeps.mpr hdep)
  have hdepRegistered := registered_of_mem_targetDeps (mem_targetDeps.mpr hdep)
  have hexecuted : dep.target ∈ log := by
    refine (hlog root hroot dep hdepReaches).1.mpr ⟨⟨cause, hpasses, ?_⟩, hdepCommand⟩
    refine hcause.imp_right fun hfile ↦ ⟨hfile, .inl ?_⟩
    rw [isFile, show start cause.target = none from if_pos rfl]
    rfl
  obtain ⟨hmem, hcomplete, -⟩ := hlog root hroot owner hreaches
  obtain ⟨⟨other, hother, hown | hfile⟩, -⟩ :=
    hmem.mp (hcomplete hcommand (.inr (.inr ⟨dep, hbelow, hexecuted⟩)))
  · exact absurd ⟨other, hother, hown⟩ hnever
  · obtain rfl := b.eq_of_target_eq (registered_of_passes howner hother)
      (registered_of_passes hdepRegistered hpasses) (hfileCause other hfile)
    exact hother

/-- For targets that do not depend on each other in a circle, and roots among them: a build does
what it has to for all modification times at its start if and only if every command line can be
expanded, and every target with a command is always rebuilt, or reached by every cause below it. -/
theorem rebuildsAll_iff_relayed (b : Builder) (hacyclic : b.Acyclic) (roots : List Target)
    (hroots : ∀ root ∈ roots, root ∈ b.tlist) : AlwaysRebuilds b roots ↔ Relayed b roots := by
  constructor
  · intro halways
    refine ⟨fun root hroot self hreaches hline ↦
      halways.expands hacyclic hroots hroot hreaches hline, ?_⟩
    intro root hroot owner hreaches hcommand
    refine or_iff_not_imp_left.mpr fun hnever ↦ ⟨?_, ?_⟩
    · intro hfile dep hbelow hdisk
      exact halways.files hacyclic hroots hroot hreaches hcommand hnever hfile hbelow hdisk
    · intro dep hbelow hdepCommand cause hpasses hcause
      exact halways.targets hacyclic hroots hroot hreaches hcommand hnever hbelow hdepCommand
        hpasses hcause
  · intro hrelayed start commands hordinary
    exact rebuildsAll_of_relayed hacyclic hordinary hroots hrelayed

end Runs

/-! ### Small builders -/

/-- A builder of targets that stand behind their dependencies. -/
def smallBuilder (tlist : List Target)
    (distinct : (tlist.map fun self ↦ registeredName self.target).Nodup)
    (forced : ∀ self ∈ tlist, self.origdep = [] → self.forceRebuild = true) : Builder :=
  ⟨tlist, false, distinct, forced⟩

/-- An object file that is compiled from a source. -/
def objectBuilder : Builder :=
  smallBuilder [.new "a.o" ["a.c"] (some .line)] (by decide) (by decide)

/-- Building an object file does what it has to if and only if every cause below it reaches it. -/
theorem rebuildsAll_iff_relayed_object :
    AlwaysRebuilds objectBuilder objectBuilder.tlist ↔
      Relayed objectBuilder objectBuilder.tlist :=
  rebuildsAll_iff_relayed objectBuilder ⟨fun _ ↦ 0, by decide⟩ _ fun _ ↦ id

/-- A phony target that two files depend on, and a phony target for both. -/
def sharedBuilder : Builder :=
  smallBuilder [.new "#phony:gen" [] (some .function), .new "a" ["#phony:gen"] (some .line),
    .new "b" ["#phony:gen"] (some .line), .new "#phony:all" ["a", "b"] none] (by decide) (by decide)

/-- A file that depends on a phony target for another file. -/
def groupBuilder : Builder :=
  smallBuilder [.new "lib" ["lib.c"] (some .line), .new "#phony:libs" ["lib"] none,
    .new "exe" ["#phony:libs"] (some .line)] (by decide) (by decide)

/-- The files of that group, the library newer than the executable. -/
def newLibrary : Files := fun name ↦
  if name = "lib" then some ⟨.file, 1⟩ else some ⟨.file, 0⟩

/-- Two builds that do not do what they have to. The command of a phony target is executed for the
first of two files that depend on it, and the second file is left as it was. An executable is not
linked again although a library below it is newer, because a phony target stands between them. -/
theorem phony_targets_lose_causes :
    (sharedBuilder.Acyclic ∧ ∃ state, sharedBuilder.buildAll (stampedCommands 1) 4
        [.new "#phony:all" ["a", "b"] none] (.start fun _ ↦ some ⟨.file, 0⟩) = some state ∧
      state.log = ["#phony:gen", "a"] ∧
      ¬RebuildsAll sharedBuilder [.new "#phony:all" ["a", "b"] none] (fun _ ↦ some ⟨.file, 0⟩)
        state.log) ∧
    groupBuilder.Acyclic ∧ ∃ state, groupBuilder.buildAll (stampedCommands 2) 4
        [.new "exe" ["#phony:libs"] (some .line)] (.start newLibrary) = some state ∧
      state.log = [] ∧
      ¬RebuildsAll groupBuilder [.new "exe" ["#phony:libs"] (some .line)] newLibrary
        state.log := by
  refine ⟨⟨⟨fun self ↦ self.origdep.length, by decide⟩, ?_⟩,
    ⟨fun self ↦ groupBuilder.tlist.idxOf self, by decide⟩, ?_⟩
  · have hrun : (sharedBuilder.buildAll (stampedCommands 1) 4
        [.new "#phony:all" ["a", "b"] none] (.start fun _ ↦ some ⟨.file, 0⟩)).map (·.log) =
        some ["#phony:gen", "a"] := by decide
    obtain ⟨state, hstate, hlog⟩ := Option.map_eq_some_iff.mp hrun
    refine ⟨state, hstate, hlog, fun hrebuilds ↦ ?_⟩
    have hmem := hrebuilds.complete _ (List.mem_singleton.mpr rfl)
      (.new "b" ["#phony:gen"] (some .line)) (.single (by decide)) rfl
      (.inr (.inr ⟨.new "#phony:gen" [] (some .function), ⟨_, .refl, by decide⟩, by
        rw [hlog]
        decide⟩))
    rw [hlog] at hmem
    exact absurd hmem (by decide)
  · have hrun : (groupBuilder.buildAll (stampedCommands 2) 4
        [.new "exe" ["#phony:libs"] (some .line)] (.start newLibrary)).map (·.log) =
        some [] := by decide
    obtain ⟨state, hstate, hlog⟩ := Option.map_eq_some_iff.mp hrun
    refine ⟨state, hstate, hlog, fun hrebuilds ↦ ?_⟩
    have hmem := hrebuilds.complete _ (List.mem_singleton.mpr rfl) _ .refl rfl
      (.inr (.inl ⟨by decide, .target (.new "lib" ["lib.c"] (some .line)),
        ⟨.new "#phony:libs" ["lib"] none, .single (by decide), by decide⟩,
        show isPhony "lib" = false by decide,
        show getFtime newLibrary "exe" < getFtime newLibrary "lib" by decide⟩))
    rw [hlog] at hmem
    exact absurd hmem List.not_mem_nil

end Elua.Build
