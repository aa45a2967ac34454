import Elua.Romfs.Filesystem
import Mathlib.Data.List.FinRange
import Mathlib.Logic.Function.Basic

/-!
# Opening, closing, reading and writing files

The operations of the device on the table of descriptors, which all instances share, and on one
instance. `romfsOpenR` is split where the source goes from interpreting its flags (`decodeOpen`) to
creating a file (`createFile`) or opening one that exists (`openExisting`). Its local `firstfree` is
only set by a lookup that fails; `junk` is what the variable holds otherwise.

An operation returns what the source returns, with `Errno` for its error exits. It has no result
where the source reads or writes outside an object, and where a lookup does not end.
-/

set_option autoImplicit false
set_option relaxedAutoImplicit false

namespace Elua.Romfs

open Foundation

/-! ### Descriptors -/

/-- The flags of an open file. -/
structure FileFlags where
  read : Bool
  write : Bool
  append : Bool
  deriving DecidableEq, Repr

/-- Whether one of the flags that allow writing is set. -/
def FileFlags.writable (flags : FileFlags) : Bool := flags.write || flags.append

/-- A file descriptor. -/
structure Fd where
  baseaddr : ℕ
  offset : ℕ
  size : ℕ
  flags : FileFlags
  deriving DecidableEq, Repr

/-- Four erased bytes read as a word. -/
def erasedWord : ℕ := 0xFFFFFFFF

/-- A slot of the table that holds no file. -/
def closedFd : Fd := ⟨erasedWord, erasedWord, erasedWord, ⟨false, false, false⟩⟩

/-- Whether the table search takes a slot for empty. -/
def Fd.isEmpty (file : Fd) : Bool :=
  file.baseaddr == erasedWord && file.offset == erasedWord && file.size == erasedWord

/-- The descriptors of all instances and the count of open ones. -/
structure FdTable where
  fds : Fin totalMaxFds → Fd
  numFd : ℤ

/-- The table that `romfs_init` sets up. -/
def FdTable.fresh : FdTable := ⟨fun _ ↦ closedFd, 0⟩

/-- Replaces the descriptor in a slot. -/
def FdTable.set (table : FdTable) (fd : Fin totalMaxFds) (file : Fd) : FdTable :=
  { table with fds := Function.update table.fds fd file }

/-- Puts a newly opened file into a slot. -/
def FdTable.install (table : FdTable) (fd : Fin totalMaxFds) (file : Fd) : FdTable :=
  { table.set fd file with numFd := table.numFd + 1 }

/-- The first empty slot. -/
def romfsFindEmptyFd (table : FdTable) : Option (Fin totalMaxFds) :=
  (List.finRange totalMaxFds).find? fun fd ↦ (table.fds fd).isEmpty

/-- Empties a slot. -/
def romfsCloseFd (table : FdTable) (fd : Fin totalMaxFds) : FdTable := table.set fd closedFd

/-! ### Open flags -/

/-- The bits of the `flags` argument of `romfs_open_r`. -/
structure OpenFlags where
  creat : Bool
  excl : Bool
  trunc : Bool
  wronly : Bool
  rdwr : Bool
  append : Bool
  deriving DecidableEq, Repr

/-- The error codes of the operations. -/
inductive Errno
  | enfile | eexist | erofs | eacces | enospc | enoent | einval | ebadf
  deriving DecidableEq, Repr

/-- What an operation returns and what it leaves behind. -/
structure Outcome (Result : Type) where
  result : Except Errno Result
  table : FdTable
  pfs : Fsdata

/-- Decodes the access mode. -/
def decodeAccess (flags : OpenFlags) : FileFlags :=
  if flags.wronly then ⟨false, true, flags.append⟩
  else if flags.rdwr then ⟨true, true, flags.append⟩
  else ⟨true, false, flags.append⟩

/-- Whether the open has to create a file, given whether the name exists. -/
def mustCreate (flags : OpenFlags) (present : Bool) : Bool :=
  (flags.creat && !present) || (flags.trunc && (flags.wronly || flags.rdwr) && present)

/-- Interprets the flags: whether to create the file, and the flags of the descriptor. -/
def decodeOpen (flags : OpenFlags) (present : Bool) (pfs : Fsdata) :
    Except Errno (Bool × FileFlags) :=
  let lflags := decodeAccess flags
  if flags.creat && flags.excl && present then .error .eexist
  else if mustCreate flags present && !pfs.wo then .error .erofs
  -- write access to a file that is not created is an error
  else if lflags.writable && !mustCreate flags present then .error .eacces
  -- at most one file can be opened in write mode at any given time
  else if lflags.writable && pfs.writing then .error .erofs
  else .ok (mustCreate flags present, lflags)

/-! ### romfs_open_r -/

/-- The name no file should have; looking it up finds the end of the last file. -/
def invalidName : CString := ⟨[1], by decide⟩

/-- The value of `firstfree` after a lookup that found it at `previous`. -/
def OpenFileResult.last (previous : ℕ) : OpenFileResult → ℕ
  | .notFound last => last
  | .ok .. => previous

/-- Marks the entry whose data begins at an address as deleted. -/
def markDeleted (pfs : Fsdata) (baseaddr : ℕ) : Fsdata :=
  pfs.writef [wofsFileDeleted, 0xFF, 0xFF, 0xFF]
    (sub32 (sub32 baseaddr romfsSizeLen) wofsDelFieldSize)

/-- Invalidates the version of the file that the lookup found, if any. -/
def invalidateOld (pfs : Fsdata) : OpenFileResult → Fsdata
  | .notFound _ => pfs
  | .ok baseaddr .. => markDeleted pfs baseaddr

/-- Whether there is not enough space for another file. -/
def lacksSpace (pfs : Fsdata) (path : CString) (firstfree : ℕ) : Bool :=
  add32 (sub32 pfs.maxSize firstfree) 1 < path.strlen + 1 + wofsMinNeededSize + wofsDelFieldSize

/-- The address of the data of a file whose name is written at `firstfree`. -/
def dataAddress (path : CString) (firstfree : ℕ) : ℕ :=
  add32 (alignUp4 (add32 firstfree (path.strlen + 1))) (romfsSizeLen + wofsDelFieldSize)

/-- The data of a created file begins at a multiple of the alignment. -/
theorem dataAddress_mod (path : CString) (firstfree : ℕ) :
    dataAddress path firstfree % romfsAlign = 0 := by
  have hfield := alignUp4_mod (add32 firstfree (path.strlen + 1))
  have hdata := add32_mod4 (alignUp4 (add32 firstfree (path.strlen + 1)))
    (romfsSizeLen + wofsDelFieldSize)
  unfold dataAddress romfsAlign
  unfold romfsSizeLen wofsDelFieldSize at *
  omega

/-- Creates a file: deletes the old version, finds the end of the last file, checks for space and
for a descriptor, and writes the name. -/
def createFile (fuel : ℕ) (path : CString) (lookup : OpenFileResult) (lflags : FileFlags)
    (junk : ℕ) (table : FdTable) (pfs : Fsdata) : Option (Outcome (Fin totalMaxFds)) :=
  let pfs := invalidateOld pfs lookup
  (romfsOpenFile fuel invalidName pfs).map fun probe ↦
    let firstfree := probe.last (lookup.last junk)
    if lacksSpace pfs path firstfree then ⟨.error .enospc, table, pfs⟩
    else
      match romfsFindEmptyFd table with
      | none => ⟨.error .enfile, table, pfs⟩
      | some fd =>
        ⟨.ok fd, table.install fd ⟨dataAddress path firstfree, 0, 0, lflags⟩,
          (pfs.writef (path.bytes ++ [0]) firstfree).setWriting true⟩

/-- Opens the file that the lookup found. -/
def openExisting (lookup : OpenFileResult) (lflags : FileFlags) (table : FdTable) (pfs : Fsdata) :
    Outcome (Fin totalMaxFds) :=
  match lookup with
  | .notFound _ => ⟨.error .enoent, table, pfs⟩
  | .ok baseaddr size _ =>
    match romfsFindEmptyFd table with
    | none => ⟨.error .enfile, table, pfs⟩
    | some fd => ⟨.ok fd, table.install fd ⟨baseaddr, 0, size, lflags⟩, pfs⟩

/-- Opens a file and returns its descriptor. -/
def romfsOpenR (fuel : ℕ) (path : CString) (flags : OpenFlags) (junk : ℕ) (table : FdTable)
    (pfs : Fsdata) : Option (Outcome (Fin totalMaxFds)) :=
  if table.numFd = totalMaxFds then some ⟨.error .enfile, table, pfs⟩
  else
    (romfsOpenFile fuel path pfs).bind fun lookup ↦
      match decodeOpen flags lookup.found pfs with
      | .error code => some ⟨.error code, table, pfs⟩
      | .ok (true, lflags) => createFile fuel path lookup lflags junk table pfs
      | .ok (false, lflags) => some (openExisting lookup lflags table pfs)

/-- The flags are accepted exactly when all four checks pass. -/
theorem decodeOpen_eq_ok_iff {flags : OpenFlags} {present create : Bool} {pfs : Fsdata}
    {lflags : FileFlags} :
    decodeOpen flags present pfs = .ok (create, lflags) ↔
      ¬(flags.creat = true ∧ flags.excl = true ∧ present = true) ∧
        (mustCreate flags present = true → pfs.wo = true) ∧
        ((decodeAccess flags).writable = true →
          mustCreate flags present = true ∧ pfs.writing = false) ∧
        mustCreate flags present = create ∧ decodeAccess flags = lflags := by
  unfold decodeOpen
  simp only [Bool.and_eq_true, Bool.not_eq_true', and_assoc]
  split_ifs with hexclusive hreadOnly haccess hwriting
  · simp [hexclusive]
  · simp [hreadOnly]
  · simp [haccess]
  · simp [hwriting]
  · simp only [Except.ok.injEq, Prod.mk.injEq]
    grind

/-- What an open does, one case for each way through the source. -/
inductive OpenCase (fuel : ℕ) (path : CString) (flags : OpenFlags) (junk : ℕ) (table : FdTable)
    (pfs : Fsdata) : Outcome (Fin totalMaxFds) → Prop
  | tableFull (hfull : table.numFd = totalMaxFds) :
      OpenCase fuel path flags junk table pfs ⟨.error .enfile, table, pfs⟩
  | refused {lookup : OpenFileResult} {code : Errno} (hroom : table.numFd ≠ totalMaxFds)
      (hlookup : romfsOpenFile fuel path pfs = some lookup)
      (hdecode : decodeOpen flags lookup.found pfs = .error code) :
      OpenCase fuel path flags junk table pfs ⟨.error code, table, pfs⟩
  | notFound {last : ℕ} {lflags : FileFlags}
      (hlookup : romfsOpenFile fuel path pfs = some (.notFound last))
      (hdecode : decodeOpen flags false pfs = .ok (false, lflags)) :
      OpenCase fuel path flags junk table pfs ⟨.error .enoent, table, pfs⟩
  | noSlot {lookup : OpenFileResult} {lflags : FileFlags}
      (hlookup : romfsOpenFile fuel path pfs = some lookup)
      (hdecode : decodeOpen flags lookup.found pfs = .ok (false, lflags)) :
      OpenCase fuel path flags junk table pfs ⟨.error .enfile, table, pfs⟩
  | opened {baseaddr size nameaddr : ℕ} {lflags : FileFlags} {fd : Fin totalMaxFds}
      (hlookup : romfsOpenFile fuel path pfs = some (.ok baseaddr size nameaddr))
      (hdecode : decodeOpen flags true pfs = .ok (false, lflags))
      (hslot : romfsFindEmptyFd table = some fd) :
      OpenCase fuel path flags junk table pfs
        ⟨.ok fd, table.install fd ⟨baseaddr, 0, size, lflags⟩, pfs⟩
  | creationFailed {lookup : OpenFileResult} {lflags : FileFlags} (code : Errno)
      (hroom : table.numFd ≠ totalMaxFds)
      (hlookup : romfsOpenFile fuel path pfs = some lookup)
      (hdecode : decodeOpen flags lookup.found pfs = .ok (true, lflags)) :
      OpenCase fuel path flags junk table pfs ⟨.error code, table, invalidateOld pfs lookup⟩
  | created {lookup probe : OpenFileResult} {lflags : FileFlags} {fd : Fin totalMaxFds}
      (hroom : table.numFd ≠ totalMaxFds)
      (hlookup : romfsOpenFile fuel path pfs = some lookup)
      (hdecode : decodeOpen flags lookup.found pfs = .ok (true, lflags))
      (hprobe : romfsOpenFile fuel invalidName (invalidateOld pfs lookup) = some probe)
      (hspace : lacksSpace (invalidateOld pfs lookup) path (probe.last (lookup.last junk)) = false)
      (hslot : romfsFindEmptyFd table = some fd) :
      OpenCase fuel path flags junk table pfs
        ⟨.ok fd,
          table.install fd ⟨dataAddress path (probe.last (lookup.last junk)), 0, 0, lflags⟩,
          ((invalidateOld pfs lookup).writef (path.bytes ++ [0])
            (probe.last (lookup.last junk))).setWriting true⟩

/-- Every open is one of these cases. -/
theorem openCase_of_romfsOpenR {fuel : ℕ} {path : CString} {flags : OpenFlags} {junk : ℕ}
    {table : FdTable} {pfs : Fsdata} {outcome : Outcome (Fin totalMaxFds)}
    (hopen : romfsOpenR fuel path flags junk table pfs = some outcome) :
    OpenCase fuel path flags junk table pfs outcome := by
  unfold romfsOpenR at hopen
  split at hopen
  case isTrue hfull =>
    cases hopen
    exact .tableFull hfull
  case isFalse hroom =>
    obtain ⟨lookup, hlookup, hopen⟩ := Option.bind_eq_some_iff.mp hopen
    split at hopen
    case h_1 code hdecode =>
      cases hopen
      exact .refused hroom hlookup hdecode
    case h_2 lflags hdecode =>
      obtain ⟨probe, hprobe, rfl⟩ := Option.map_eq_some_iff.mp hopen
      simp only
      split
      case isTrue => exact .creationFailed _ hroom hlookup hdecode
      case isFalse hspace =>
        split
        case h_1 => exact .creationFailed _ hroom hlookup hdecode
        case h_2 fd hslot =>
          exact .created hroom hlookup hdecode hprobe (Bool.eq_false_of_not_eq_true hspace) hslot
    case h_3 lflags hdecode =>
      cases hopen
      unfold openExisting
      cases lookup with
      | notFound last => exact .notFound hlookup hdecode
      | ok baseaddr size nameaddr =>
        simp only
        split
        case h_1 => exact .noSlot hlookup hdecode
        case h_2 fd hslot => exact .opened hlookup hdecode hslot

/-! ### The operations on a descriptor -/

/-- Closes a descriptor. A file that was written gets its size, and the instance can be written
again. -/
def romfsCloseR (fd : Fin totalMaxFds) (table : FdTable) (pfs : Fsdata) : FdTable × Fsdata :=
  let file := table.fds fd
  let pfs :=
    if file.flags.writable then
      (pfs.writef (leBytes32 file.size) (sub32 file.baseaddr romfsSizeLen)).setWriting false
    else pfs
  ({ romfsCloseFd table fd with numFd := table.numFd - 1 }, pfs)

/-- The length that a write of `length` bytes is cut to: one byte for the end marker and three for
the alignment of the data always remain. -/
def writeLength (file : Fd) (length : ℕ) (pfs : Fsdata) : ℕ :=
  if sub32 pfs.maxSize romfsAlign < add32 (add32 file.baseaddr file.size) length then
    sub32 (sub32 pfs.maxSize (add32 file.baseaddr file.size)) romfsAlign
  else length

/-- The descriptor as a write finds it: in append mode the file pointer is at the end. -/
def Fd.seekForWrite (file : Fd) : Fd :=
  if file.flags.append then { file with offset := file.size } else file

/-- Writes data at the end of the file and returns the number of bytes written. A length that was
cut to more than the data reads behind the caller's buffer and has no result. -/
def romfsWriteR (fd : Fin totalMaxFds) (data : List UInt8) (table : FdTable) (pfs : Fsdata) :
    Option (Outcome ℕ) :=
  if (table.fds fd).flags.writable then
    let file := (table.fds fd).seekForWrite
    if file.offset = file.size then
      let len := writeLength file data.length pfs
      if len ≤ data.length then
        some ⟨.ok len,
          table.set fd { file with offset := add32 file.offset len, size := add32 file.size len },
          pfs.writef (data.take len) (add32 file.offset file.baseaddr)⟩
      else none
    else some ⟨.ok 0, table.set fd file, pfs⟩
  else some ⟨.error .einval, table, pfs⟩

/-- Reads at most `len` bytes from the file pointer. -/
def romfsReadR (fd : Fin totalMaxFds) (len : ℕ) (table : FdTable) (pfs : Fsdata) :
    Option (Outcome (List UInt8)) :=
  let file := table.fds fd
  if file.flags.read then
    let actlen := min len (sub32 file.size file.offset)
    let bytes := segment pfs.image (add32 file.offset file.baseaddr) actlen
    -- only the read function of an indirect instance reports that the image ends early
    if pfs.direct && bytes.length < actlen then none
    else some ⟨.ok bytes, table.set fd { file with offset := add32 file.offset bytes.length }, pfs⟩
  else some ⟨.error .ebadf, table, pfs⟩

/-- Where a seek counts from. -/
inductive Whence
  | seekSet | seekCur | seekEnd | other
  deriving DecidableEq, Repr

/-- The position a seek asks for, as an unsigned word. -/
def seekTarget (file : Fd) (off : ℤ) : Whence → Option ℕ
  | .seekSet => some (off % 2 ^ 32).toNat
  | .seekCur => some ((file.offset + off) % 2 ^ 32).toNat
  | .seekEnd => some ((file.size + off) % 2 ^ 32).toNat
  | .other => none

/-- Moves the file pointer. A position behind the end of the file is refused. -/
def romfsLseekR (fd : Fin totalMaxFds) (off : ℤ) (whence : Whence) (table : FdTable) :
    Option ℕ × FdTable :=
  match seekTarget (table.fds fd) off whence with
  | none => (none, table)
  | some newpos =>
    if (table.fds fd).size < newpos then (none, table)
    else (some newpos, table.set fd { table.fds fd with offset := newpos })

/-! ### What the operations leave alone -/

/-- The tables differ at most in the file pointer and the size of one descriptor. -/
def FdTable.Moved (table : FdTable) (fd : Fin totalMaxFds) (after : FdTable) : Prop :=
  ∃ file, after = table.set fd file ∧ file.baseaddr = (table.fds fd).baseaddr ∧
    file.flags = (table.fds fd).flags

theorem FdTable.Moved.rfl {table : FdTable} {fd : Fin totalMaxFds} : table.Moved fd table :=
  ⟨table.fds fd, by rw [FdTable.set, Function.update_eq_self], Eq.refl _, Eq.refl _⟩

theorem romfsWriteR_moved {fd : Fin totalMaxFds} {data : List UInt8} {table : FdTable}
    {pfs : Fsdata} {outcome : Outcome ℕ} (hwrite : romfsWriteR fd data table pfs = some outcome) :
    table.Moved fd outcome.table ∧ outcome.pfs.writing = pfs.writing ∧
      pfs.writes ⊆ outcome.pfs.writes := by
  have hseek : (table.fds fd).seekForWrite.baseaddr = (table.fds fd).baseaddr ∧
      (table.fds fd).seekForWrite.flags = (table.fds fd).flags := by
    unfold Fd.seekForWrite
    split <;> exact ⟨rfl, rfl⟩
  unfold romfsWriteR at hwrite
  simp only at hwrite
  split_ifs at hwrite
  · obtain rfl := Option.some.inj hwrite
    exact ⟨⟨_, rfl, hseek⟩, rfl, List.subset_append_left ..⟩
  · obtain rfl := Option.some.inj hwrite
    exact ⟨⟨_, rfl, hseek⟩, rfl, List.Subset.refl _⟩
  · obtain rfl := Option.some.inj hwrite
    exact ⟨.rfl, rfl, List.Subset.refl _⟩

/-- The tables differ at most in the file pointer of one descriptor. -/
def FdTable.Sought (table : FdTable) (fd : Fin totalMaxFds) (after : FdTable) : Prop :=
  ∃ offset, after = table.set fd { table.fds fd with offset := offset }

theorem FdTable.Sought.rfl {table : FdTable} {fd : Fin totalMaxFds} : table.Sought fd table :=
  ⟨(table.fds fd).offset, by rw [FdTable.set, Function.update_eq_self]⟩

theorem FdTable.Sought.moved {table after : FdTable} {fd : Fin totalMaxFds}
    (hsought : table.Sought fd after) : table.Moved fd after := by
  obtain ⟨offset, rfl⟩ := hsought
  exact ⟨_, Eq.refl _, Eq.refl _, Eq.refl _⟩

theorem romfsReadR_sought {fd : Fin totalMaxFds} {len : ℕ} {table : FdTable} {pfs : Fsdata}
    {outcome : Outcome (List UInt8)} (hread : romfsReadR fd len table pfs = some outcome) :
    table.Sought fd outcome.table ∧ outcome.pfs = pfs := by
  unfold romfsReadR at hread
  simp only at hread
  split_ifs at hread
  · obtain rfl := Option.some.inj hread
    exact ⟨⟨_, rfl⟩, rfl⟩
  · obtain rfl := Option.some.inj hread
    exact ⟨.rfl, rfl⟩

theorem romfsLseekR_sought (fd : Fin totalMaxFds) (off : ℤ) (whence : Whence) (table : FdTable) :
    table.Sought fd (romfsLseekR fd off whence table).2 := by
  unfold romfsLseekR
  split
  · exact .rfl
  · split_ifs
    · exact .rfl
    · exact ⟨_, rfl⟩

end Elua.Romfs
