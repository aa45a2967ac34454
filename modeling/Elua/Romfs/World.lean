import Elua.Foundation.TransitionSystem
import Elua.Romfs.Log

/-!
# Runs of the file systems

Several instances share one table of descriptors. A run is a sequence of calls of the device
functions: opens by path and flags, and writes, reads, seeks and closes of descriptors that an
earlier open returned. The state of a run (`World`) is the table and the instances, and beside them
a record of what has happened: which instance each open descriptor belongs to and whether its open
created the file, where the headers of the files created so far were written, and for each instance
the log of its files.

`fsSystem` is the transition system. `openEffect_of_fsStep` lists what an open can do to a world.
-/

set_option autoImplicit false
set_option relaxedAutoImplicit false

namespace Elua.Romfs

open Foundation TransitionSystem

/-- An open descriptor: its instance, and whether its open created the file. -/
structure Handle (Instance : Type*) where
  inst : Instance
  created : Bool
  deriving DecidableEq

/-- The descriptors and the instances, with a record of the run. -/
structure World (Instance : Type*) where
  table : FdTable
  fs : Instance → Fsdata
  /-- The descriptors that opens have returned and that are not closed. -/
  handles : Fin totalMaxFds → Option (Handle Instance)
  /-- The files created so far: the instance and the address of the data. -/
  headers : List (Instance × ℕ)
  /-- The files of each instance. -/
  log : Instance → Log

/-- A call of a device function. The last argument of `open` is the initial value of the local
variable `firstfree`. -/
inductive FsEvent (Instance : Type*)
  | open (inst : Instance) (path : CString) (flags : OpenFlags) (junk : ℕ)
  | write (fd : Fin totalMaxFds) (data : List UInt8)
  | read (fd : Fin totalMaxFds) (len : ℕ)
  | lseek (fd : Fin totalMaxFds) (off : ℤ) (whence : Whence)
  | close (fd : Fin totalMaxFds)

/-- Whether an open passes its checks and goes on to create a file. -/
def goesOnToCreate (fuel : ℕ) (path : CString) (flags : OpenFlags) (table : FdTable)
    (pfs : Fsdata) : Bool :=
  !decide (table.numFd = totalMaxFds) &&
    (romfsOpenFile fuel path pfs).any fun lookup ↦
      match decodeOpen flags lookup.found pfs with
      | .ok (create, _) => create
      | .error _ => false

/-- A path that can be the name of an entry. -/
def IsFileName (path : CString) : Prop :=
  path.bytes.length ≤ dmMaxFnameLength ∧ path.bytes.head? ≠ some wofsEndMarkerChar

instance (path : CString) : Decidable (IsFileName path) := inferInstanceAs (Decidable (_ ∧ _))

/-- The log after a file was begun under a path. -/
def Log.startPath (path : CString) (log : Log) : Log :=
  if hname : IsFileName path then log.start ⟨path, hname.1, hname.2⟩ else log

variable {Instance : Type*} [DecidableEq Instance]

/-- An open, with its record: an open that goes on to create deletes the old version, and begins the
new one when it succeeds. -/
def World.open (fuel : ℕ) (world : World Instance) (inst : Instance) (path : CString)
    (flags : OpenFlags) (junk : ℕ) : Option (World Instance) :=
  (romfsOpenR fuel path flags junk world.table (world.fs inst)).map fun outcome ↦
    let creates := goesOnToCreate fuel path flags world.table (world.fs inst)
    let log := if creates then (world.log inst).delete path else world.log inst
    let fs := Function.update world.fs inst outcome.pfs
    match outcome.result with
    | .error _ =>
      { world with table := outcome.table, fs, log := Function.update world.log inst log }
    | .ok fd =>
      { table := outcome.table
        fs
        handles := Function.update world.handles fd (some ⟨inst, creates⟩)
        headers := if creates then world.headers ++ [(inst, (outcome.table.fds fd).baseaddr)]
          else world.headers
        log := Function.update world.log inst (if creates then log.startPath path else log) }

/-- A write, with its record: the accepted bytes belong to the file being written. -/
def World.write (world : World Instance) (fd : Fin totalMaxFds) (data : List UInt8) :
    Option (World Instance) :=
  (world.handles fd).bind fun handle ↦
    (romfsWriteR fd data world.table (world.fs handle.inst)).map fun outcome ↦
      let log := match outcome.result with
        | .error _ => world.log handle.inst
        | .ok len => (world.log handle.inst).append (data.take len)
      { world with
        table := outcome.table
        fs := Function.update world.fs handle.inst outcome.pfs
        log := Function.update world.log handle.inst log }

/-- A read. -/
def World.read (world : World Instance) (fd : Fin totalMaxFds) (len : ℕ) :
    Option (World Instance) :=
  (world.handles fd).bind fun handle ↦
    (romfsReadR fd len world.table (world.fs handle.inst)).map fun outcome ↦
      { world with
        table := outcome.table
        fs := Function.update world.fs handle.inst outcome.pfs }

/-- A seek. -/
def World.lseek (world : World Instance) (fd : Fin totalMaxFds) (off : ℤ) (whence : Whence) :
    Option (World Instance) :=
  (world.handles fd).map fun _ ↦
    { world with table := (romfsLseekR fd off whence world.table).2 }

/-- A close, with its record: the file being written is complete. -/
def World.close (world : World Instance) (fd : Fin totalMaxFds) : Option (World Instance) :=
  (world.handles fd).map fun handle ↦
    let closed := romfsCloseR fd world.table (world.fs handle.inst)
    { world with
      table := closed.1
      fs := Function.update world.fs handle.inst closed.2
      handles := Function.update world.handles fd none
      log := Function.update world.log handle.inst
        (if handle.created then (world.log handle.inst).finish else world.log handle.inst) }

/-- One call, whose lookups end within the fuel. -/
def fsStep (fuel : ℕ) (world : World Instance) : FsEvent Instance → Option (World Instance)
  | .open inst path flags junk => world.open fuel inst path flags junk
  | .write fd data => world.write fd data
  | .read fd len => world.read fd len
  | .lseek fd off whence => world.lseek fd off whence
  | .close fd => world.close fd

/-- A WOFS that has been formatted: a flash of whole words, all erased. -/
structure Formatted (pfs : Fsdata) : Prop where
  maxSize_pos : 0 < pfs.maxSize
  maxSize_mod : pfs.maxSize % romfsAlign = 0
  maxSize_lt : pfs.maxSize < 2 ^ 32
  image_eq : pfs.image = erased pfs.maxSize
  writes_eq : pfs.writes = []

/-- The start of a run: no descriptor is open, no file is being written, every WOFS is formatted. -/
structure FsInitial (world : World Instance) : Prop where
  table_eq : world.table = .fresh
  handles_eq : ∀ fd, world.handles fd = none
  headers_eq : world.headers = []
  log_eq : ∀ inst, world.log inst = .empty
  writing_eq : ∀ inst, (world.fs inst).writing = false
  formatted : ∀ inst, (world.fs inst).wo = true → Formatted (world.fs inst)

/-- The start of a run on one WOFS of a given size. -/
def World.blank (size : ℕ) : World Unit where
  table := .fresh
  fs := fun _ ↦
    { direct := true, wo := true, writing := false, maxSize := size, image := erased size,
      writes := [] }
  handles := fun _ ↦ none
  headers := []
  log := fun _ ↦ .empty

theorem fsInitial_blank {size : ℕ} (hpos : 0 < size) (hmod : size % romfsAlign = 0)
    (hlt : size < 2 ^ 32) : FsInitial (.blank size) where
  table_eq := rfl
  handles_eq := fun _ ↦ rfl
  headers_eq := rfl
  log_eq := fun _ ↦ rfl
  writing_eq := fun _ ↦ rfl
  formatted := fun _ _ ↦ ⟨hpos, hmod, hlt, rfl, rfl⟩

/-- The runs of the file systems. -/
def fsSystem (Instance : Type*) [DecidableEq Instance] :
    TransitionSystem (World Instance) (FsEvent Instance) where
  initial := FsInitial
  step := fun world event after ↦ ∃ fuel, fsStep fuel world event = some after

/-- A list of permitted calls that evaluates on a blank flash is a run. -/
theorem reachableUnder_of_blank {size fuel : ℕ} {permitted : World Unit → FsEvent Unit → Prop}
    {events : List (FsEvent Unit)} {world : World Unit}
    (hrun : runEvents (fsStep fuel) (.blank size) events = some world) (hpos : 0 < size)
    (hmod : size % romfsAlign = 0) (hlt : size < 2 ^ 32)
    (hpermitted : ∀ state, ∀ event ∈ events, permitted state event) :
    (fsSystem Unit).ReachableUnder permitted world :=
  reachableUnder_of_runEvents (fun _ _ _ hstep ↦ Exists.intro fuel hstep) events
    (.start (fsInitial_blank hpos hmod hlt)) hpermitted hrun

/-! ### What an open does to a world -/

/-- What an open can do to a world. -/
inductive OpenEffect (fuel : ℕ) (world : World Instance) (inst : Instance) (path : CString)
    (flags : OpenFlags) (junk : ℕ) : World Instance → Prop
  | unchanged : OpenEffect fuel world inst path flags junk world
  | opened {baseaddr size nameaddr : ℕ} {lflags : FileFlags} {fd : Fin totalMaxFds}
      (hlookup : romfsOpenFile fuel path (world.fs inst) = some (.ok baseaddr size nameaddr))
      (hdecode : decodeOpen flags true (world.fs inst) = .ok (false, lflags))
      (hslot : romfsFindEmptyFd world.table = some fd) :
      OpenEffect fuel world inst path flags junk
        { world with
          table := world.table.install fd ⟨baseaddr, 0, size, lflags⟩
          handles := Function.update world.handles fd (some ⟨inst, false⟩) }
  | creationFailed {lookup : OpenFileResult} {lflags : FileFlags}
      (hcreates : goesOnToCreate fuel path flags world.table (world.fs inst) = true)
      (hlookup : romfsOpenFile fuel path (world.fs inst) = some lookup)
      (hdecode : decodeOpen flags lookup.found (world.fs inst) = .ok (true, lflags)) :
      OpenEffect fuel world inst path flags junk
        { world with
          fs := Function.update world.fs inst (invalidateOld (world.fs inst) lookup)
          log := Function.update world.log inst ((world.log inst).delete path) }
  | created {lookup probe : OpenFileResult} {lflags : FileFlags} {fd : Fin totalMaxFds}
      {firstfree : ℕ}
      (hcreates : goesOnToCreate fuel path flags world.table (world.fs inst) = true)
      (hlookup : romfsOpenFile fuel path (world.fs inst) = some lookup)
      (hdecode : decodeOpen flags lookup.found (world.fs inst) = .ok (true, lflags))
      (hprobe : romfsOpenFile fuel invalidName (invalidateOld (world.fs inst) lookup) = some probe)
      (hfirstfree : firstfree = probe.last (lookup.last junk))
      (hspace : lacksSpace (invalidateOld (world.fs inst) lookup) path firstfree = false)
      (hslot : romfsFindEmptyFd world.table = some fd) :
      OpenEffect fuel world inst path flags junk
        { table := world.table.install fd ⟨dataAddress path firstfree, 0, 0, lflags⟩
          fs := Function.update world.fs inst
            (((invalidateOld (world.fs inst) lookup).writef (path.bytes ++ [0])
              firstfree).setWriting true)
          handles := Function.update world.handles fd (some ⟨inst, true⟩)
          headers := world.headers ++ [(inst, dataAddress path firstfree)]
          log := Function.update world.log inst (((world.log inst).delete path).startPath path) }

/-- An open goes on to create a file when there may be a descriptor and the flags say so. -/
theorem goesOnToCreate_eq {fuel : ℕ} {path : CString} (flags : OpenFlags) (table : FdTable)
    {pfs : Fsdata} {lookup : OpenFileResult} (hlookup : romfsOpenFile fuel path pfs = some lookup) :
    goesOnToCreate fuel path flags table pfs =
      (!decide (table.numFd = totalMaxFds) &&
        match decodeOpen flags lookup.found pfs with
        | .ok (create, _) => create
        | .error _ => false) := by
  rw [goesOnToCreate, hlookup, Option.any_some]

/-- An open that goes on to create a file has accepted flags. -/
theorem exists_decodeOpen_of_goesOnToCreate {fuel : ℕ} {path : CString} {flags : OpenFlags}
    {table : FdTable} {pfs : Fsdata} (hgoes : goesOnToCreate fuel path flags table pfs = true) :
    ∃ lookup lflags, romfsOpenFile fuel path pfs = some lookup ∧
      decodeOpen flags lookup.found pfs = .ok (true, lflags) := by
  obtain ⟨lookup, hlookup, -⟩ :=
    (Option.any_eq_true _ _).mp (Bool.and_eq_true_iff.mp hgoes).2
  rw [goesOnToCreate_eq flags table hlookup, Bool.and_eq_true] at hgoes
  split at hgoes
  case h_1 create lflags hdecode => exact ⟨lookup, lflags, hlookup, by rw [hdecode, hgoes.2]⟩
  case h_2 => cases hgoes.2

/-- Every open has one of these effects. -/
theorem openEffect_of_open {fuel : ℕ} {world after : World Instance} {inst : Instance}
    {path : CString} {flags : OpenFlags} {junk : ℕ}
    (hopen : world.open fuel inst path flags junk = some after) :
    OpenEffect fuel world inst path flags junk after := by
  obtain ⟨outcome, houtcome, rfl⟩ := Option.map_eq_some_iff.mp hopen
  cases openCase_of_romfsOpenR houtcome with
  | tableFull hfull =>
    have hcreates : goesOnToCreate fuel path flags world.table (world.fs inst) = false := by
      simp only [goesOnToCreate, hfull, decide_true, Bool.not_true, Bool.false_and]
    simp only [hcreates, Function.update_eq_self, Bool.false_eq_true, if_false]
    exact .unchanged
  | refused hroom hlookup hdecode =>
    have hcreates := goesOnToCreate_eq flags world.table hlookup
    simp only [hdecode, Bool.and_false] at hcreates
    simp only [hcreates, Function.update_eq_self, Bool.false_eq_true, if_false]
    exact .unchanged
  | notFound hlookup hdecode =>
    have hcreates := goesOnToCreate_eq flags world.table hlookup
    simp only [OpenFileResult.found, hdecode, Bool.and_false] at hcreates
    simp only [hcreates, Function.update_eq_self, Bool.false_eq_true, if_false]
    exact .unchanged
  | noSlot hlookup hdecode =>
    have hcreates := goesOnToCreate_eq flags world.table hlookup
    simp only [hdecode, Bool.and_false] at hcreates
    simp only [hcreates, Function.update_eq_self, Bool.false_eq_true, if_false]
    exact .unchanged
  | opened hlookup hdecode hslot =>
    have hcreates := goesOnToCreate_eq flags world.table hlookup
    simp only [OpenFileResult.found, hdecode, Bool.and_false] at hcreates
    simp only [hcreates, Function.update_eq_self, Bool.false_eq_true, if_false]
    exact .opened hlookup hdecode hslot
  | creationFailed code hroom hlookup hdecode =>
    have hcreates := goesOnToCreate_eq flags world.table hlookup
    simp only [hdecode, hroom, decide_false, Bool.not_false, Bool.and_true] at hcreates
    simp only [hcreates, if_true]
    exact .creationFailed hcreates hlookup hdecode
  | created hroom hlookup hdecode hprobe hspace hslot =>
    have hcreates := goesOnToCreate_eq flags world.table hlookup
    simp only [hdecode, hroom, decide_false, Bool.not_false, Bool.and_true] at hcreates
    simp only [hcreates, if_true, FdTable.install, FdTable.set, Function.update_self]
    exact .created hcreates hlookup hdecode hprobe rfl hspace hslot

end Elua.Romfs
