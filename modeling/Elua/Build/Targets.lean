import Mathlib.Data.Int.Notation
import Mathlib.Data.List.Nodup
import Mathlib.Logic.Function.Basic
import Mathlib.Tactic.Common

/-!
# The targets of the build system

`Builder` is a builder with its registered targets. A dependency of a target is another target, if
one is registered under its name, and otherwise a plain file. Building a target builds the targets
it depends on, decides from what they return and from modification times whether the target is out
of date, and executes its command if so; a target that ran already is left at once.

The mode is the normal one, in which nothing is cleaned, and there are no functions to call before
and after the build of a target. What commands do is a parameter (`Commands`): whether they succeed,
and the modification times they give to the files they make. -/

set_option autoImplicit false
set_option relaxedAutoImplicit false

namespace Elua.Build

/-! ### Files -/

/-- What a path is. -/
inductive Mode
  | file | other
  deriving DecidableEq, Repr

/-- The attributes of a path that exists. -/
structure Attributes where
  mode : Mode
  modification : ℤ
  deriving DecidableEq, Repr

/-- The paths that exist. -/
abbrev Files := String → Option Attributes

/-- `get_ftime`: the time of the last modification of a path. -/
def getFtime (files : Files) (path : String) : ℤ :=
  ((files path).map (·.modification)).getD (-1)

/-- Whether a path is a file. -/
def isFile (files : Files) (path : String) : Bool :=
  (files path).any fun attributes ↦ attributes.mode = .file

/-- `is_phony`. -/
def isPhony (target : String) : Bool := "#phony".toList.isPrefixOf target.toList

/-! ### Targets -/

/-- A command is a command line, or a function. -/
inductive Command
  | line | function
  deriving DecidableEq, Repr

/-- A target. -/
structure Target where
  target : String
  /-- The names of the dependencies. -/
  origdep : List String
  command : Option Command
  forceRebuild : Bool
  deriving DecidableEq, Repr

/-- `_target.new`: a target without dependencies is always rebuilt. -/
def Target.new (target : String) (dep : List String) (command : Option Command) : Target :=
  ⟨target, dep, command, dep.isEmpty⟩

/-- The key under which a target is registered. -/
def registeredName (name : String) : List Char :=
  name.toList.map fun letter ↦ if letter = '\\' then '/' else letter

/-- A builder. -/
structure Builder where
  /-- The registered targets. -/
  tlist : List Target
  globalForceRebuild : Bool
  /-- The table of targets has one entry for each name. -/
  distinct : (tlist.map fun self ↦ registeredName self.target).Nodup
  forced : ∀ self ∈ tlist, self.origdep = [] → self.forceRebuild = true

/-- `get_registered_target`. -/
def Builder.getRegisteredTarget (b : Builder) (name : String) : Option Target :=
  b.tlist.find? fun self ↦ registeredName self.target = registeredName name

/-- A dependency: a plain file, or a target. -/
inductive Dep
  | fbuilder (dep : String)
  | target (dep : Target)
  deriving DecidableEq, Repr

/-- The dependency of a name. -/
def Builder.resolve (b : Builder) (name : String) : Dep :=
  match b.getRegisteredTarget name with
  | some dep => .target dep
  | none => .fbuilder name

/-- `_build_dependencies`. -/
def Builder.buildDependencies (b : Builder) (self : Target) : List Dep :=
  self.origdep.map b.resolve

/-- The target of a dependency that is one. -/
def Dep.target? : Dep → Option Target
  | .fbuilder _ => none
  | .target dep => some dep

/-- The targets that a target depends on. -/
def Builder.targetDeps (b : Builder) (self : Target) : List Target :=
  (b.buildDependencies self).filterMap Dep.target?

/-! ### Lookups of targets -/

section Lookups

variable {b : Builder}

theorem mem_targetDeps {self dep : Target} :
    dep ∈ b.targetDeps self ↔ .target dep ∈ b.buildDependencies self := by
  rw [Builder.targetDeps, List.mem_filterMap]
  constructor
  · rintro ⟨found, hmem, hfound⟩
    cases found with
    | fbuilder path => cases hfound
    | target other =>
      obtain rfl := Option.some.inj hfound
      exact hmem
  · exact fun hmem ↦ ⟨_, hmem, rfl⟩

/-- Registered targets of one name are the same. -/
theorem Builder.eq_of_target_eq {first second : Target} (hfirst : first ∈ b.tlist)
    (hsecond : second ∈ b.tlist) (hname : first.target = second.target) : first = second :=
  List.inj_on_of_nodup_map b.distinct hfirst hsecond (congrArg registeredName hname)

/-- A target that something depends on is registered. -/
theorem registered_of_mem_targetDeps {self dep : Target} (hdep : dep ∈ b.targetDeps self) :
    dep ∈ b.tlist := by
  obtain ⟨name, -, hresolve⟩ := List.mem_map.mp (mem_targetDeps.mp hdep)
  unfold Builder.resolve at hresolve
  split at hresolve
  case h_1 found hfound =>
    obtain rfl := Dep.target.inj hresolve
    exact List.mem_of_find?_eq_some hfound
  case h_2 => cases hresolve

/-- A plain file that something depends on has the name of no target. -/
theorem target_ne_of_fbuilder {self other : Target} {path : String}
    (hdep : .fbuilder path ∈ b.buildDependencies self) (hother : other ∈ b.tlist) :
    other.target ≠ path := by
  rintro rfl
  obtain ⟨name, -, hresolve⟩ := List.mem_map.mp hdep
  unfold Builder.resolve at hresolve
  split at hresolve
  case h_1 => cases hresolve
  case h_2 hnone =>
    obtain rfl := Dep.fbuilder.inj hresolve
    exact List.find?_eq_none.mp hnone other hother (decide_eq_true rfl)

end Lookups

/-! ### Building -/

/-- What a command returns: `0` or `true`, or `1`, or anything else. -/
inductive CommandCode
  | executed | one | failed
  deriving DecidableEq, Repr

/-- The commands of the targets: what they return, and the modification times of what they make. -/
structure Commands where
  code : String → CommandCode
  stamp : String → ℤ

/-- The state of a build. -/
structure BuildState where
  /-- The targets that ran already. -/
  runlist : List String
  files : Files
  /-- The targets whose commands were executed, oldest first. -/
  log : List String

/-- The start of a build. -/
def BuildState.start (files : Files) : BuildState := ⟨[], files, []⟩

/-- `_fbuilder.build`: whether a plain file is newer than the target. -/
def fbuilderBuild (files : Files) (target dep : String) : Bool :=
  isPhony target || decide (getFtime files target < getFtime files dep)

/-- Executes the command of a target, and returns whether the target counts as rebuilt. The build
ends if the command fails, and also if a command line is to be expanded for a target without a first
dependency. A function that returns `1` marks the target as not executed. -/
def execute (commands : Commands) (self : Target) (command : Command) (state : BuildState) :
    Option (Bool × BuildState) :=
  if command = .line ∧ self.origdep = [] then none
  else
    let log := state.log ++ [self.target]
    match commands.code self.target, command with
    | .executed, _ =>
      let made := some ⟨.file, commands.stamp self.target⟩
      let files := if isPhony self.target then state.files
        else Function.update state.files self.target made
      some (true, { state with files, log })
    | .one, .function => some (false, { state with log })
    | _, _ => none

/-- One pass of the loop over the dependencies: whether the target is out of date so far. -/
def depRunner (build : Target → BuildState → Option (Bool × BuildState)) (self : Target)
    (progress : Bool × BuildState) : Dep → Option (Bool × BuildState)
  | .fbuilder dep =>
    some (progress.1 || fbuilderBuild progress.2.files self.target dep, progress.2)
  | .target dep =>
    (build dep progress.2).map fun (res, state) ↦
      let docmd := progress.1 || res
      (if !isPhony dep.target && !isPhony self.target then
          docmd || decide (getFtime state.files self.target < getFtime state.files dep.target)
        else docmd, state)

/-- The end of `_target.build`, behind the loop over the dependencies: executes the command of a
target that is out of date, and marks the target as run. -/
def runTarget (commands : Commands) (self : Target) (docmd : Bool) (state : BuildState) :
    Option (Bool × BuildState) :=
  let docmd := docmd || self.forceRebuild
  let ran := match docmd, self.command with
    | true, some command => execute commands self command state
    | _, _ => some (true, state)
  ran.map fun (keepFlag, state) ↦
    (docmd && keepFlag, { state with runlist := state.runlist ++ [self.target] })

/-- `_target.build`: whether the target was rebuilt. Returning nothing counts as `false`. -/
def Builder.build (b : Builder) (commands : Commands) :
    ℕ → Target → BuildState → Option (Bool × BuildState)
  | 0, _, _ => none
  | fuel + 1, self, state =>
    if self.target ∈ state.runlist then some (false, state)
    else
      let initdocmd := (!isPhony self.target && !isFile state.files self.target) ||
        b.globalForceRebuild
      ((b.buildDependencies self).foldlM (depRunner (b.build commands fuel) self)
        (initdocmd, state)).bind fun (docmd, state) ↦ runTarget commands self docmd state

/-- Builds root targets one after the other. -/
def Builder.buildAll (b : Builder) (commands : Commands) (fuel : ℕ) (roots : List Target)
    (state : BuildState) : Option BuildState :=
  roots.foldlM (fun state root ↦ (b.build commands fuel root state).map (·.2)) state

end Elua.Build
