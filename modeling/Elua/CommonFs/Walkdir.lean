import Elua.CommonFs.Paths
import Mathlib.Data.Int.Notation

/-!
# The directory walker

`cmnFsActualWalkdir` lists a directory twice. The first time it passes the entries that match the
pattern to the callback, the second time it walks the subdirectories, if one of the entries that it
passed is a directory. The flag for that has no value when the walk of a directory begins, so it may
be set all along. `cmnFsWalkdir` takes its path apart and walks.

A walk is recorded as a list of events, in which the directories that are opened have numbers.
-/

set_option autoImplicit false
set_option relaxedAutoImplicit false

namespace Elua.CommonFs

open Foundation

/-- `struct dm_dirent`, as far as a walk reads it. -/
structure DmDirent where
  fname : Path
  /-- `DM_DIRENT_FLAG_DIR`. -/
  isDir : Bool
  deriving DecidableEq

/-- A directory is reached from another by a name in its listing. -/
def IsChild (listing : Path → List DmDirent) (path child : Path) : Prop :=
  ∃ ent ∈ listing path, ent.isDir = true ∧ child = joined [path, ent.fname]

/-- The directories and files that a walk meets. They do not change. The listing of a path that is
not a directory is empty. -/
structure DirectoryTree where
  listing : Path → List DmDirent
  opensFile : Path → Bool
  /-- The number of levels below a directory. -/
  height : Path → ℕ
  height_lt : ∀ path child, IsChild listing path child → height child < height path
  isName : ∀ path, ∀ ent ∈ listing path, IsName ent.fname
  nodup : ∀ path, ((listing path).map DmDirent.fname).Nodup

/-- Induction from the subdirectories to the directory. -/
theorem DirectoryTree.induction (tree : DirectoryTree) {holds : Path → Prop}
    (hstep : ∀ path, (∀ child, IsChild tree.listing path child → holds child) → holds path)
    (path : Path) : holds path := by
  induction hheight : tree.height path using Nat.strong_induction_on generalizing path with
  | _ height ih =>
    refine hstep path fun child hchild ↦ ih _ ?_ child rfl
    rw [← hheight]
    exact tree.height_lt path child hchild

/-- What a walk does not decide: which directories can be opened for the first and for the second
time, for which paths there is memory, and what `hasdirs` holds before it is set. -/
structure Surroundings where
  opens : Path → Bool
  reopens : Path → Bool
  allocates : Path → Bool
  duplicates : Bool
  hasdirs : Path → Bool

/-- `CMN_FS_INFO_…`. -/
inductive Info
  | beforeReaddir
  | insideReaddir
  | afterClosedir
  | memoryError
  | opendirFailed
  | readdirFailed
  | directoryDone

/-- What the callback is called with. -/
structure Call where
  path : Path
  ent : Option DmDirent
  info : Info

/-- What a walk does. -/
inductive Event
  | opened (d : ℕ)
  | closed (d : ℕ)
  | called (call : Call) (result : ℤ)

/-- `p_cmn_fs_walker_cb`, which returns a number and changes its data. -/
abbrev Callback (Data : Type) := Call → Data → ℤ × Data

/-- What a walk has done so far, the data of the callback, and the number of directories opened. -/
structure WalkState (Data : Type) where
  events : List Event
  pdata : Data
  dirs : ℕ

variable {Data : Type}

/-- `dm_opendir`, where it succeeds. -/
def WalkState.dmOpendir (walk : WalkState Data) : ℕ × WalkState Data :=
  (walk.dirs, { walk with events := walk.events ++ [.opened walk.dirs], dirs := walk.dirs + 1 })

/-- `dm_closedir`. -/
def WalkState.dmClosedir (walk : WalkState Data) (d : ℕ) : WalkState Data :=
  { walk with events := walk.events ++ [.closed d] }

/-- A call of the callback. -/
def WalkState.call (walk : WalkState Data) (cb : Callback Data) (call : Call) :
    ℤ × WalkState Data :=
  let (result, pdata) := cb call walk.pdata
  (result, { walk with events := walk.events ++ [.called call result], pdata })

/-- The end of a walk behind `abort`: the directory is closed if it is open, and the result is 0. -/
def abort (d : Option ℕ) (walk : WalkState Data) : Bool × WalkState Data :=
  match d with
  | some d => (false, walk.dmClosedir d)
  | none => (false, walk)

/-- The loop over the entries. It ends with the flag, or with none if the callback returns 0. -/
def readEntries (cb : Callback Data) (path pattern : Path) :
    List DmDirent → Bool → WalkState Data → Option Bool × WalkState Data
  | [], hasdirs, walk => (some hasdirs, walk)
  | ent :: entries, hasdirs, walk =>
    if cmnPatternMatches ent.fname pattern then
      let (result, walk) := walk.call cb ⟨path, some ent, .insideReaddir⟩
      if result = 0 then (none, walk)
      else readEntries cb path pattern entries (if ent.isDir then true else hasdirs) walk
    else readEntries cb path pattern entries hasdirs walk

/-- The loop over the subdirectories. It ends with 0 if a walk does, or if the callback returns 0
after there was no memory for a path. -/
def walkSubdirectories (listing : Path → List DmDirent) (allocates : Path → Bool)
    (cb : Callback Data) (path : Path)
    (actualWalkdir : ∀ fullname, IsChild listing path fullname → WalkState Data →
      Bool × WalkState Data) :
    (entries : List DmDirent) → (∀ ent ∈ entries, ent ∈ listing path) → WalkState Data →
      Bool × WalkState Data
  | [], _, walk => (true, walk)
  | ent :: entries, hentries, walk =>
    let next := walkSubdirectories listing allocates cb path actualWalkdir entries
      fun other hother ↦ hentries other (List.mem_cons_of_mem ent hother)
    if hdir : ent.isDir = true then
      match hjoin : cmnFsPathJoin allocates [path, ent.fname] with
      | some fullname =>
        let (hasdirs, walk) := actualWalkdir fullname
          ⟨ent, hentries ent List.mem_cons_self, hdir, eq_joined hjoin⟩ walk
        if hasdirs = false then (false, walk) else next walk
      | none =>
        let (result, walk) := walk.call cb ⟨path, none, .memoryError⟩
        if result = 0 then (false, walk) else next walk
    else next walk

/-- `cmn_fs_actual_walkdir`. -/
def cmnFsActualWalkdir (tree : DirectoryTree) (around : Surroundings) (pattern : Path)
    (cb : Callback Data) (recursive : Bool) (path : Path) (walk : WalkState Data) :
    Bool × WalkState Data :=
  if around.opens path then
    let (d, walk) := walk.dmOpendir
    let (result, walk) := walk.call cb ⟨path, none, .beforeReaddir⟩
    if result = 0 then abort (some d) walk
    else
      match readEntries cb path pattern (tree.listing path) (around.hasdirs path) walk with
      | (none, walk) => abort (some d) walk
      | (some hasdirs, walk) =>
        let walk := walk.dmClosedir d
        let (result, walk) := walk.call cb ⟨path, none, .afterClosedir⟩
        if result = 0 then abort none walk
        else
          let done (walk : WalkState Data) : Bool × WalkState Data :=
            let (result, walk) := walk.call cb ⟨path, none, .directoryDone⟩
            if result = 0 then abort none walk else (true, walk)
          if recursive && hasdirs then
            if around.reopens path then
              let (d, walk) := walk.dmOpendir
              let (goesOn, walk) := walkSubdirectories tree.listing around.allocates cb path
                (fun fullname _ ↦ cmnFsActualWalkdir tree around pattern cb true fullname)
                (tree.listing path) (fun _ hmem ↦ hmem) walk
              if goesOn = false then abort (some d) walk else done (walk.dmClosedir d)
            else
              let (result, walk) := walk.call cb ⟨path, none, .opendirFailed⟩
              if result = 0 then (false, walk) else done walk
          else done walk
  else
    let (result, walk) := walk.call cb ⟨path, none, .opendirFailed⟩
    if result = 0 then (false, walk) else (true, walk)
termination_by tree.height path
decreasing_by exact tree.height_lt path fullname ‹_›

/-- `cmn_fs_walkdir`, with data for the callback. It returns 0 only without a directory. -/
def cmnFsWalkdir (tree : DirectoryTree) (around : Surroundings) (path : CString)
    (cb : Callback Data) (pdata : Data) (recursive : Bool) : Bool × List Event :=
  match cmnFsSplitPath tree.opensFile around.duplicates path.bytes with
  | none => (false, [])
  | some (actpath, pattern) =>
    (true, (cmnFsActualWalkdir tree around pattern cb recursive actpath ⟨[], pdata, 0⟩).2.events)

end Elua.CommonFs
