import Elua.Romfs.WritingState

/-!
# The runs keep their logs

`Orderly` connects a run with the logs it records: every WOFS instance holds its log, and a
descriptor that created its file stands at the end of the file being written. It is preserved by
every orderly call (`OrderlyUse`): opens that create a file ask for write access and give it a name
that an entry can have, the end of a write stays in the address space, and no file is replaced while
another one has the reserved name.
-/

set_option autoImplicit false
set_option relaxedAutoImplicit false

namespace Elua.Romfs

open Foundation TransitionSystem

variable {Instance : Type*}

/-- A lookup finds the name. -/
def Found (pfs : Fsdata) (path : CString) : Prop :=
  ∃ fuel baseaddr size nameaddr, romfsOpenFile fuel path pfs = some (.ok baseaddr size nameaddr)

/-- A call creates files with write access and under names that an entry can have, and writes below
the end of the address space. -/
structure IntendedUse (world : World Instance) (event : FsEvent Instance) : Prop where
  creates_for_writing : CreatesForWriting world event
  creates_named : ∀ fuel inst path flags junk, event = .open inst path flags junk →
    goesOnToCreate fuel path flags world.table (world.fs inst) = true → IsFileName path
  write_fits : ∀ fd data, event = .write fd data → (world.table.fds fd).flags.writable = true →
    (world.table.fds fd).baseaddr + (world.table.fds fd).size + data.length < 2 ^ 32

/-- An open with write access and a proper name is an intended call. -/
theorem IntendedUse.open {world : World Instance} {inst : Instance} {path : CString}
    {flags : OpenFlags} {junk : ℕ} (haccess : (decodeAccess flags).writable = true)
    (hname : IsFileName path) : IntendedUse world (.open inst path flags junk) where
  creates_for_writing := by
    rintro _ _ _ _ _ ⟨⟩ _
    exact haccess
  creates_named := by
    rintro _ _ _ _ _ ⟨⟩ _
    exact hname
  write_fits := fun _ _ hevent ↦ by cases hevent

/-- A close is an intended call. -/
theorem IntendedUse.close {world : World Instance} {fd : Fin totalMaxFds} :
    IntendedUse world (.close fd) where
  creates_for_writing := fun _ _ _ _ _ hevent ↦ by cases hevent
  creates_named := fun _ _ _ _ _ hevent ↦ by cases hevent
  write_fits := fun _ _ hevent ↦ by cases hevent

/-- A write that ends in the address space is an intended call. -/
theorem IntendedUse.write {world : World Instance} {fd : Fin totalMaxFds} {data : List UInt8}
    (hfits : (world.table.fds fd).baseaddr + (world.table.fds fd).size + data.length < 2 ^ 32) :
    IntendedUse world (.write fd data) where
  creates_for_writing := fun _ _ _ _ _ hevent ↦ by cases hevent
  creates_named := fun _ _ _ _ _ hevent ↦ by cases hevent
  write_fits := by
    rintro _ _ ⟨⟩ _
    exact hfits

/-- No file is replaced while another file has the name that the scan for the end looks up. -/
def ReservedNameUnused (world : World Instance) (event : FsEvent Instance) : Prop :=
  ∀ fuel inst path flags junk, event = .open inst path flags junk →
    goesOnToCreate fuel path flags world.table (world.fs inst) = true →
      Found (world.fs inst) path → Found (world.fs inst) invalidName → path = invalidName

/-- An open that does not truncate replaces no file. -/
theorem ReservedNameUnused.open_of_not_trunc {world : World Instance} {inst : Instance}
    {path : CString} {flags : OpenFlags} {junk : ℕ} (htrunc : flags.trunc = false) :
    ReservedNameUnused world (.open inst path flags junk) := by
  rintro fuel _ _ _ _ ⟨⟩ hgoes ⟨more, baseaddr, size, nameaddr, hfound⟩ _
  obtain ⟨lookup, lflags, hlookup, hdecode⟩ := exists_decodeOpen_of_goesOnToCreate hgoes
  obtain rfl := runLoop_unique hfound hlookup
  obtain ⟨-, -, -, hmust, -⟩ := decodeOpen_eq_ok_iff.mp hdecode
  simp [mustCreate, OpenFileResult.found, htrunc] at hmust

/-- A close replaces no file. -/
theorem ReservedNameUnused.close {world : World Instance} {fd : Fin totalMaxFds} :
    ReservedNameUnused world (.close fd) :=
  fun _ _ _ _ _ hevent ↦ by cases hevent

/-- A write replaces no file. -/
theorem ReservedNameUnused.write {world : World Instance} {fd : Fin totalMaxFds}
    {data : List UInt8} : ReservedNameUnused world (.write fd data) :=
  fun _ _ _ _ _ hevent ↦ by cases hevent

/-- An intended call that replaces no file while the reserved name is in use. -/
structure OrderlyUse (world : World Instance) (event : FsEvent Instance) : Prop
    extends IntendedUse world event where
  reserved_unused : ReservedNameUnused world event

/-- A descriptor stands at the end of the file being written. -/
def WriterAt (log : Log) (file : Fd) : Prop :=
  ∃ name data, log.pending = some (name, data) ∧
    file.baseaddr = (filesBytes log.closed).length + headLength name ∧ file.size = data.length

/-- The instances hold their logs, and the writers stand at the ends of the files they write. -/
structure Orderly (world : World Instance) : Prop where
  tracked : Tracked world
  holds : ∀ inst, (world.fs inst).wo = true → Holds (world.log inst) (world.fs inst)
  writer : ∀ fd inst, world.handles fd = some ⟨inst, true⟩ →
    (world.fs inst).wo = true ∧ WriterAt (world.log inst) (world.table.fds fd)

/-! ### Creating a file -/

section Creating

variable {log : Log} {pfs : Fsdata} {path : CString}

/-- Deleting keeps the lengths of the entries. -/
theorem length_filesBytes_delete (path : CString) (log : Log) :
    (filesBytes (log.delete path).closed).length = (filesBytes log.closed).length := by
  obtain ⟨closed, pending⟩ := log
  simp only [Log.delete]
  induction closed with
  | nil => rfl
  | cons file closed ih =>
    rw [List.map_cons, filesBytes_cons, filesBytes_cons, List.length_append, List.length_append, ih,
      length_fileBytes, length_fileBytes]
    unfold File.delete
    split <;> rfl

/-- A deleted name belongs to no file any more. -/
theorem not_answers_delete (path : CString) (log : Log) :
    ∀ file ∈ (log.delete path).closed, ¬file.Answers path := by
  intro file hfile hanswers
  obtain ⟨old, -, rfl⟩ := List.mem_map.mp hfile
  unfold File.delete at hanswers
  split_ifs at hanswers with hname
  · cases hanswers.1
  · exact hname hanswers.2

/-- A file that answers to a name after another was deleted did so before. -/
theorem answers_of_answers_delete {other : CString} {file : File}
    (hfile : file ∈ (log.delete path).closed) (hanswers : file.Answers other) :
    ∃ old ∈ log.closed, old.Answers other := by
  obtain ⟨old, hold, rfl⟩ := List.mem_map.mp hfile
  refine ⟨old, hold, ?_⟩
  unfold File.delete at hanswers
  split_ifs at hanswers with hname
  · cases hanswers.1
  · exact hanswers

/-- Deleting a name that no file answers to changes nothing. -/
theorem delete_of_not_answers (hnone : ∀ file ∈ log.closed, ¬file.Answers path) :
    log.delete path = log := by
  obtain ⟨closed, pending⟩ := log
  rw [Log.delete]
  congr 1
  refine (List.map_congr_left fun file hfile ↦ ?_).trans closed.map_id
  unfold File.delete
  split_ifs with hname
  · cases hdeleted : file.deleted with
    | true => rw [← hdeleted]; rfl
    | false => exact absurd ⟨hdeleted, hname⟩ (hnone file hfile)
  · rfl

/-- While no file is being written, a name is found exactly when a file answers to it. -/
theorem Holds.found_iff (hholds : Holds log pfs) (hpending : log.pending = none)
    (path : CString) : Found pfs path ↔ ∃ file ∈ log.closed, file.Answers path := by
  obtain ⟨fuel, lookup, hlookup, ⟨rfl, hnone⟩ | ⟨before, file, after, hclosed, hanswers, rfl⟩⟩ :=
    hholds.lookup hpending path
  · refine iff_of_false ?_ fun ⟨file, hfile, hanswers⟩ ↦ hnone file hfile hanswers
    rintro ⟨more, baseaddr, size, nameaddr, hfound⟩
    cases runLoop_unique hlookup hfound
  · refine iff_of_true ⟨fuel, _, _, _, hlookup⟩ ⟨file, ?_, hanswers⟩
    rw [hclosed]
    exact List.mem_append_right _ List.mem_cons_self

/-- Invalidating what a lookup found deletes the name from the log. -/
theorem Holds.invalidateOld (hholds : Holds log pfs) (hpending : log.pending = none)
    {fuel : ℕ} {lookup : OpenFileResult} (hlookup : romfsOpenFile fuel path pfs = some lookup) :
    Holds (log.delete path) (invalidateOld pfs lookup) := by
  obtain ⟨more, canonical, hcanonical, hcases⟩ := hholds.lookup hpending path
  obtain rfl := runLoop_unique hcanonical hlookup
  obtain ⟨rfl, hnone⟩ | ⟨before, file, after, hclosed, hanswers, rfl⟩ := hcases
  · rw [delete_of_not_answers hnone]
    exact hholds
  · have hbound := hholds.image_bound
    have hlength := congrArg List.length (bytes_of_pending_none hpending)
    have hroom := hholds.room
    have hhead : 8 ≤ headLength file.name := by
      unfold headLength wofsDelFieldSize romfsSizeLen
      omega
    have haddr : sub32 (sub32 ((filesBytes before).length + headLength file.name) romfsSizeLen)
        wofsDelFieldSize =
          (filesBytes before).length + headLength file.name - romfsSizeLen - wofsDelFieldSize := by
      unfold romfsSizeLen wofsDelFieldSize
      rw [sub32_sub32 (by omega)]
    rw [Romfs.invalidateOld, markDeleted, haddr]
    exact hholds.delete hpending hclosed hanswers.2 hanswers.1

/-- The scan for the end finds the end of the log, and if it does not because a file has the
reserved name, the first lookup did. -/
theorem Holds.firstfree (hholds : Holds log pfs) (hpending : log.pending = none)
    {fuel : ℕ} {lookup probe : OpenFileResult}
    (hlookup : romfsOpenFile fuel path pfs = some lookup)
    (hprobe : romfsOpenFile fuel invalidName (Romfs.invalidateOld pfs lookup) = some probe)
    (hreserved : Found pfs path → Found pfs invalidName → path = invalidName) (junk : ℕ) :
    probe.last (lookup.last junk) = (filesBytes log.closed).length := by
  have hdeleted := hholds.invalidateOld hpending hlookup
  obtain ⟨more, canonical, hcanonical, hcases⟩ := hdeleted.lookup hpending invalidName
  obtain rfl := runLoop_unique hcanonical hprobe
  obtain ⟨rfl, -⟩ | ⟨before, file, after, hclosed, hanswers, rfl⟩ := hcases
  · exact length_filesBytes_delete path log
  · have hmem : file ∈ (log.delete path).closed := by
      rw [hclosed]
      exact List.mem_append_right _ List.mem_cons_self
    obtain ⟨more', canonical', hcanonical', hcases'⟩ := hholds.lookup hpending path
    obtain rfl := runLoop_unique hcanonical' hlookup
    obtain ⟨rfl, -⟩ | ⟨before', file', after', -, -, rfl⟩ := hcases'
    · rfl
    · have hfound := (hholds.found_iff hpending invalidName).mpr
        (answers_of_answers_delete hmem hanswers)
      have hpath := hreserved ⟨_, _, _, _, hlookup⟩ hfound
      exact absurd (hpath ▸ hanswers) (not_answers_delete path log file hmem)

/-- Enough space for the header of a new file, its end marker and the padding of its data. -/
theorem Holds.space (hholds : Holds log pfs) (hpending : log.pending = none) (name : FileName)
    (hspace : lacksSpace pfs name.toCString (filesBytes log.closed).length = false) :
    log.bytes.length + headLength name + romfsAlign ≤ pfs.maxSize := by
  have hroom := hholds.room
  have hmaxMod := hholds.maxSize_mod
  have hmaxLt := hholds.maxSize_lt
  have hheadMod := headLength_mod name
  have hclosedMod := length_filesBytes_mod log.closed
  have hpad := padLength_lt (name.bytes.length + 1)
  rw [bytes_of_pending_none hpending] at hroom ⊢
  rw [lacksSpace, decide_eq_false_iff_not, Nat.not_lt, CString.strlen] at hspace
  unfold romfsAlign at *
  rw [sub32_eq (by omega), add32_eq (by omega)] at hspace
  unfold headLength wofsMinNeededSize wofsDelFieldSize romfsSizeLen at *
  omega

/-- The data of a new file begins behind its header. -/
theorem Holds.dataAddress_eq (hholds : Holds log pfs) (hpending : log.pending = none)
    {name : FileName} (hspace : log.bytes.length + headLength name + romfsAlign ≤ pfs.maxSize) :
    dataAddress name.toCString (filesBytes log.closed).length =
      (filesBytes log.closed).length + headLength name := by
  have hmaxLt := hholds.maxSize_lt
  have hclosedMod := length_filesBytes_mod log.closed
  have hpad := padLength_lt (name.bytes.length + 1)
  have hmod := add_padLength_mod (name.bytes.length + 1)
  rw [bytes_of_pending_none hpending] at hspace
  unfold headLength romfsAlign wofsDelFieldSize romfsSizeLen at *
  have hend : add32 (filesBytes log.closed).length (name.bytes.length + 1) =
      (filesBytes log.closed).length + (name.bytes.length + 1) := add32_eq (by omega)
  have hfield : alignUp4 ((filesBytes log.closed).length + (name.bytes.length + 1)) =
      (filesBytes log.closed).length + (name.bytes.length + 1) +
        padLength (name.bytes.length + 1) := alignUp4_eq_add (by omega) hpad (by omega)
  rw [dataAddress, CString.strlen, hend, hfield]
  unfold romfsSizeLen wofsDelFieldSize
  rw [add32_eq (by omega)]
  omega

/-- Creating a file deletes the old version and begins the new one at the end of the log. -/
theorem Holds.created (hholds : Holds log pfs) (hpending : log.pending = none)
    {fuel junk firstfree : ℕ} {lookup probe : OpenFileResult}
    (hlookup : romfsOpenFile fuel path pfs = some lookup)
    (hprobe : romfsOpenFile fuel invalidName (Romfs.invalidateOld pfs lookup) = some probe)
    (hname : IsFileName path)
    (hreserved : Found pfs path → Found pfs invalidName → path = invalidName)
    (hfirstfree : firstfree = probe.last (lookup.last junk))
    (hspace : lacksSpace (Romfs.invalidateOld pfs lookup) path firstfree = false)
    (lflags : FileFlags) :
    Holds ((log.delete path).startPath path)
        (((Romfs.invalidateOld pfs lookup).writef (path.bytes ++ [0]) firstfree).setWriting true) ∧
      WriterAt ((log.delete path).startPath path)
        ⟨dataAddress path firstfree, 0, 0, lflags⟩ := by
  have hdeleted := hholds.invalidateOld hpending hlookup
  have hpendingDeleted : (log.delete path).pending = none := hpending
  have hfree : firstfree = (filesBytes (log.delete path).closed).length := by
    rw [hfirstfree, length_filesBytes_delete]
    exact hholds.firstfree hpending hlookup hprobe hreserved junk
  subst hfree
  have hroom := hdeleted.space hpendingDeleted ⟨path, hname.1, hname.2⟩ hspace
  have hstart := hdeleted.start hpendingDeleted hroom fun file hfile hlive hsame ↦
    not_answers_delete path log file hfile ⟨hlive, hsame.symm⟩
  rw [bytes_of_pending_none hpendingDeleted] at hstart
  have haddress := hdeleted.dataAddress_eq hpendingDeleted hroom
  simp only [Log.startPath, hname, dif_pos]
  exact ⟨hstart, ⟨path, hname.1, hname.2⟩, [], rfl, haddress, rfl⟩

end Creating

/-! ### Writing and closing a file -/

section Writing

variable {log : Log} {pfs : Fsdata} {table : FdTable} {fd : Fin totalMaxFds}

/-- The end of the file being written is the end of the log. -/
theorem WriterAt.length_bytes {file : Fd} (hwriter : WriterAt log file) :
    log.bytes.length = file.baseaddr + file.size := by
  obtain ⟨closed, pending⟩ := log
  obtain ⟨name, data, rfl, hbase, hsize⟩ := hwriter
  rw [length_bytes_pending, hbase, hsize]

/-- A write takes what fits in front of the four bytes that always remain. -/
theorem Holds.writeLength_eq (hholds : Holds log pfs) {file : Fd} (hwriter : WriterAt log file)
    {length : ℕ} (hfits : file.baseaddr + file.size + length < 2 ^ 32) :
    writeLength file length pfs = min length (pfs.maxSize - log.bytes.length - romfsAlign) := by
  have hroom := hholds.room
  have hmaxLt := hholds.maxSize_lt
  rw [hwriter.length_bytes] at *
  unfold romfsAlign at *
  have hend : add32 file.baseaddr file.size = file.baseaddr + file.size := add32_eq (by omega)
  have htotal : add32 (file.baseaddr + file.size) length = file.baseaddr + file.size + length :=
    add32_eq hfits
  have hfree : sub32 (sub32 pfs.maxSize (file.baseaddr + file.size)) 4 =
      pfs.maxSize - (file.baseaddr + file.size) - 4 := sub32_sub32 (by omega)
  rw [writeLength, hend, htotal, romfsAlign, hfree, sub32_eq (by omega)]
  split_ifs <;> omega

theorem Log.append_nil (log : Log) : log.append [] = log := by
  obtain ⟨closed, pending⟩ := log
  cases pending with
  | none => rfl
  | some pending => simp only [Log.append, Option.map_some, List.append_nil]

/-- A write adds what it accepts to the file being written. -/
theorem Holds.romfsWriteR (hholds : Holds log pfs) (hwriter : WriterAt log (table.fds fd))
    (hwritable : (table.fds fd).flags.writable = true) {data : List UInt8}
    (hfits : (table.fds fd).baseaddr + (table.fds fd).size + data.length < 2 ^ 32)
    {outcome : Outcome ℕ} (hwrite : romfsWriteR fd data table pfs = some outcome) :
    ∃ len, outcome.result = .ok len ∧ Holds (log.append (data.take len)) outcome.pfs ∧
      WriterAt (log.append (data.take len)) (outcome.table.fds fd) := by
  have hseek : (table.fds fd).seekForWrite.baseaddr = (table.fds fd).baseaddr ∧
      (table.fds fd).seekForWrite.size = (table.fds fd).size := by
    unfold Fd.seekForWrite
    split <;> exact ⟨rfl, rfl⟩
  have hwriterSeek : WriterAt log (table.fds fd).seekForWrite := by
    obtain ⟨name, written, hpending, hbase, hsize⟩ := hwriter
    exact ⟨name, written, hpending, hseek.1.trans hbase, hseek.2.trans hsize⟩
  rw [← hseek.1, ← hseek.2] at hfits
  generalize hfile : (table.fds fd).seekForWrite = file at *
  simp only [Romfs.romfsWriteR, hwritable, if_true, hfile] at hwrite
  have hlength := hwriterSeek.length_bytes
  have hroom := hholds.room
  split_ifs at hwrite with hend hlen
  · obtain rfl := Option.some.inj hwrite
    obtain ⟨name, written, hpending, hbase, hsize⟩ := hwriterSeek
    have hmaxLt := hholds.maxSize_lt
    have haccepted := hholds.writeLength_eq ⟨name, written, hpending, hbase, hsize⟩ hfits
    have htake : (data.take (writeLength file data.length pfs)).length =
        writeLength file data.length pfs := by
      rw [List.length_take, Nat.min_eq_left hlen]
    have haddr : add32 file.offset file.baseaddr = log.bytes.length := by
      rw [hend, add32_eq (by omega), hlength, Nat.add_comm]
    refine ⟨_, rfl, ?_, name, written ++ data.take (writeLength file data.length pfs), ?_, ?_, ?_⟩
    · simp only [haddr]
      refine hholds.append hpending ?_
      rw [htake, haccepted]
      unfold romfsAlign at *
      omega
    · simp only [Log.append, hpending, Option.map_some]
    · simpa only [FdTable.set, Function.update_self, Log.append] using hbase
    · simp only [FdTable.set, Function.update_self, List.length_append, htake]
      rw [add32_eq (by omega), hsize]
  · obtain rfl := Option.some.inj hwrite
    refine ⟨0, rfl, ?_⟩
    rw [List.take_zero, Log.append_nil]
    refine ⟨hholds, ?_⟩
    simpa only [FdTable.set, Function.update_self] using hwriterSeek

/-- Closing a file being written completes it. -/
theorem Holds.romfsCloseR (hholds : Holds log pfs) (hwriter : WriterAt log (table.fds fd))
    (hwritable : (table.fds fd).flags.writable = true) :
    Holds log.finish (romfsCloseR fd table pfs).2 := by
  obtain ⟨name, data, hpending, hbase, hsize⟩ := hwriter
  have hhead : 4 ≤ headLength name := by
    unfold headLength wofsDelFieldSize romfsSizeLen
    omega
  have haddr : sub32 (table.fds fd).baseaddr romfsSizeLen =
      (filesBytes log.closed).length + headLength name - romfsSizeLen := by
    rw [hbase, romfsSizeLen, sub32_eq (by omega)]
  simp only [Romfs.romfsCloseR, hwritable, if_true, haddr, hsize]
  exact hholds.finish hpending

end Writing

/-! ### Every call -/

section Steps

variable [DecidableEq Instance] {world after : World Instance}

omit [DecidableEq Instance] in
/-- What holds when an open goes on to create a file: it is on a WOFS on which no file is being
written. -/
theorem Orderly.idle (horderly : Orderly world) {flags : OpenFlags} {present : Bool}
    {lflags : FileFlags} {inst : Instance}
    (hwritable : (decodeAccess flags).writable = true)
    (hdecode : decodeOpen flags present (world.fs inst) = .ok (true, lflags)) :
    Holds (world.log inst) (world.fs inst) ∧ (world.log inst).pending = none ∧
      ∀ fd, world.handles fd ≠ some ⟨inst, true⟩ := by
  obtain ⟨-, hwo, haccess, hmust, -⟩ := decodeOpen_eq_ok_iff.mp hdecode
  have hholds := horderly.holds inst (hwo hmust)
  have hidle := (haccess hwritable).2
  refine ⟨hholds, ?_, fun fd hfd ↦ ?_⟩
  · have hsome := hholds.writing_eq
    rw [hidle] at hsome
    exact Option.not_isSome_iff_eq_none.mp (hsome ▸ Bool.false_ne_true)
  · rw [(horderly.tracked.writers.flag_iff inst).mpr ⟨fd, hfd⟩] at hidle
    cases hidle

/-- An open keeps a run orderly. -/
theorem Orderly.open {fuel : ℕ} (horderly : Orderly world) {inst : Instance} {path : CString}
    {flags : OpenFlags} {junk : ℕ} (huse : OrderlyUse world (.open inst path flags junk))
    (hopen : world.open fuel inst path flags junk = some after) : Orderly after := by
  have htracked := horderly.tracked.open huse.creates_for_writing hopen
  cases openEffect_of_open hopen with
  | unchanged => exact horderly
  | @opened baseaddr size nameaddr lflags fd hlookup hdecode hslot =>
    refine ⟨htracked, horderly.holds, fun other inst' hother ↦ ?_⟩
    have hne : other ≠ fd := fun heq ↦ by simp [heq] at hother
    simp only [Function.update_of_ne hne] at hother
    simpa only [FdTable.install, FdTable.set, Function.update_of_ne hne] using
      horderly.writer other inst' hother
  | @creationFailed lookup lflags hgoes hlookup hdecode =>
    obtain ⟨hholds, hpending, hnone⟩ := horderly.idle
      (huse.creates_for_writing fuel inst path flags junk rfl hgoes) hdecode
    have hdeleted := hholds.invalidateOld hpending hlookup
    refine ⟨htracked, fun inst' hwo ↦ ?_, fun other inst' hother ↦ ?_⟩
    · by_cases hinst : inst' = inst
      · subst hinst
        simpa only [Function.update_self] using hdeleted
      · simp only [Function.update_of_ne hinst] at hwo ⊢
        exact horderly.holds inst' hwo
    · have hinst : inst' ≠ inst := fun heq ↦ hnone other (heq ▸ hother)
      simpa only [Function.update_of_ne hinst] using horderly.writer other inst' hother
  | @created lookup probe lflags fd firstfree hgoes hlookup hdecode hprobe hfirstfree hspace
      hslot =>
    obtain ⟨hholds, hpending, hnone⟩ := horderly.idle
      (huse.creates_for_writing fuel inst path flags junk rfl hgoes) hdecode
    obtain ⟨hstart, hwriter⟩ := hholds.created hpending hlookup hprobe
      (huse.creates_named fuel inst path flags junk rfl hgoes)
      (huse.reserved_unused fuel inst path flags junk rfl hgoes) hfirstfree hspace lflags
    refine ⟨htracked, fun inst' hwo ↦ ?_, fun other inst' hother ↦ ?_⟩
    · by_cases hinst : inst' = inst
      · subst hinst
        simpa only [Function.update_self] using hstart
      · simp only [Function.update_of_ne hinst] at hwo ⊢
        exact horderly.holds inst' hwo
    · by_cases hne : other = fd
      · subst hne
        simp only [Function.update_self, Option.some.injEq, Handle.mk.injEq, and_true] at hother
        subst hother
        simpa only [FdTable.install, FdTable.set, Function.update_self] using
          And.intro hstart.wo_eq hwriter
      · simp only [Function.update_of_ne hne] at hother
        have hinst : inst' ≠ inst := fun heq ↦ hnone other (heq ▸ hother)
        simpa only [FdTable.install, FdTable.set, Function.update_of_ne hne,
          Function.update_of_ne hinst] using horderly.writer other inst' hother

omit [DecidableEq Instance] in
/-- Moving a file pointer keeps a run orderly. -/
theorem Orderly.sought (horderly : Orderly world) {fd : Fin totalMaxFds} {handle : Handle Instance}
    (hhandle : world.handles fd = some handle) {table : FdTable}
    (hsought : world.table.Sought fd table) : Orderly { world with table := table } := by
  refine ⟨horderly.tracked.moved hhandle hsought.moved, horderly.holds, fun other inst hother ↦ ?_⟩
  obtain ⟨hwo, name, data, hpending, hbase, hsize⟩ := horderly.writer other inst hother
  obtain ⟨offset, rfl⟩ := hsought
  refine ⟨hwo, name, data, hpending, ?_⟩
  by_cases hne : other = fd
  · subst hne
    simpa only [FdTable.set, Function.update_self] using And.intro hbase hsize
  · simpa only [FdTable.set, Function.update_of_ne hne] using And.intro hbase hsize

/-- A write keeps a run orderly. -/
theorem Orderly.write (horderly : Orderly world) {fd : Fin totalMaxFds} {data : List UInt8}
    (huse : OrderlyUse world (.write fd data)) (htracked : Tracked after)
    (hwrite : world.write fd data = some after) : Orderly after := by
  obtain ⟨⟨inst, created⟩, hhandle, hwrite⟩ := Option.bind_eq_some_iff.mp hwrite
  obtain ⟨outcome, houtcome, rfl⟩ := Option.map_eq_some_iff.mp hwrite
  have hwritable := horderly.tracked.slots.writable fd _ hhandle
  cases created with
  | false =>
    simp only [romfsWriteR, hwritable, Bool.false_eq_true, if_false, Option.some.injEq] at houtcome
    subst houtcome
    simpa only [Function.update_eq_self] using horderly
  | true =>
    obtain ⟨hwo, hwriter⟩ := horderly.writer fd inst hhandle
    obtain ⟨len, hresult, hholds, hafter⟩ := (horderly.holds inst hwo).romfsWriteR hwriter
      hwritable (huse.write_fits fd data rfl hwritable) houtcome
    obtain ⟨⟨file, htable, -, -⟩, -, -⟩ := romfsWriteR_moved houtcome
    refine ⟨htracked, fun inst' hwo' ↦ ?_, fun other inst' hother ↦ ?_⟩
    · by_cases hinst : inst' = inst
      · subst hinst
        simpa only [Function.update_self, hresult] using hholds
      · simp only [Function.update_of_ne hinst] at hwo' ⊢
        exact horderly.holds inst' hwo'
    · by_cases hne : other = fd
      · subst hne
        obtain rfl : inst = inst' :=
          congrArg Handle.inst (Option.some.inj (hhandle.symm.trans hother))
        simpa only [Function.update_self, hresult] using And.intro hholds.wo_eq hafter
      · have hinst : inst' ≠ inst := fun heq ↦
          hne (horderly.tracked.writers.one_writer inst other fd (heq ▸ hother) hhandle)
        simpa only [Function.update_of_ne hinst, htable, FdTable.set,
          Function.update_of_ne hne] using horderly.writer other inst' hother

/-- A close keeps a run orderly. -/
theorem Orderly.close (horderly : Orderly world) {fd : Fin totalMaxFds}
    (hclose : world.close fd = some after) : Orderly after := by
  have htracked := horderly.tracked.close hclose
  obtain ⟨⟨inst, created⟩, hhandle, rfl⟩ := Option.map_eq_some_iff.mp hclose
  have hwritable := horderly.tracked.slots.writable fd _ hhandle
  have hother : ∀ other inst', Function.update world.handles fd none other = some ⟨inst', true⟩ →
      other ≠ fd ∧ world.handles other = some ⟨inst', true⟩ := by
    intro other inst' hopen
    have hne : other ≠ fd := fun heq ↦ by simp [heq] at hopen
    exact ⟨hne, by rwa [Function.update_of_ne hne] at hopen⟩
  cases created with
  | false =>
    simp only [romfsCloseR, hwritable, Bool.false_eq_true, if_false,
      Function.update_eq_self] at htracked ⊢
    refine ⟨htracked, horderly.holds, fun other inst' hopen ↦ ?_⟩
    obtain ⟨hne, hopen⟩ := hother other inst' hopen
    simpa only [romfsCloseFd, FdTable.set, Function.update_of_ne hne] using
      horderly.writer other inst' hopen
  | true =>
    obtain ⟨hwo, hwriter⟩ := horderly.writer fd inst hhandle
    have hfinished := (horderly.holds inst hwo).romfsCloseR hwriter hwritable
    refine ⟨htracked, fun inst' hwo' ↦ ?_, fun other inst' hopen ↦ ?_⟩
    · by_cases hinst : inst' = inst
      · subst hinst
        simpa only [Function.update_self, if_true] using hfinished
      · simp only [Function.update_of_ne hinst] at hwo' ⊢
        exact horderly.holds inst' hwo'
    · obtain ⟨hne, hopen⟩ := hother other inst' hopen
      have hinst : inst' ≠ inst := fun heq ↦
        hne (horderly.tracked.writers.one_writer inst other fd (heq ▸ hopen) hhandle)
      simpa only [Function.update_of_ne hinst, romfsCloseR, romfsCloseFd, FdTable.set,
        Function.update_of_ne hne] using horderly.writer other inst' hopen

/-- Every orderly call keeps a run orderly. -/
theorem Orderly.step {event : FsEvent Instance} (horderly : Orderly world)
    (huse : OrderlyUse world event) (hstep : (fsSystem Instance).step world event after) :
    Orderly after := by
  have htracked := horderly.tracked.step huse.creates_for_writing hstep
  obtain ⟨fuel, hstep⟩ := hstep
  cases event with
  | «open» inst path flags junk => exact horderly.open huse hstep
  | write fd data => exact horderly.write huse htracked hstep
  | read fd len =>
    obtain ⟨handle, hhandle, hstep⟩ := Option.bind_eq_some_iff.mp hstep
    obtain ⟨outcome, hread, rfl⟩ := Option.map_eq_some_iff.mp hstep
    obtain ⟨hsought, hpfs⟩ := romfsReadR_sought hread
    simp only [hpfs, Function.update_eq_self]
    exact horderly.sought hhandle hsought
  | lseek fd off whence =>
    obtain ⟨handle, hhandle, rfl⟩ := Option.map_eq_some_iff.mp hstep
    exact horderly.sought hhandle (romfsLseekR_sought fd off whence world.table)
  | close fd => exact horderly.close hstep

/-- A formatted WOFS holds the empty log. -/
theorem holds_of_formatted {pfs : Fsdata} (hwo : pfs.wo = true) (hwriting : pfs.writing = false)
    (hformatted : Formatted pfs) : Holds .empty pfs where
  wo_eq := hwo
  writing_eq := hwriting
  maxSize_mod := hformatted.maxSize_mod
  maxSize_lt := hformatted.maxSize_lt
  image_eq := hformatted.image_eq
  room := by
    have hpos := hformatted.maxSize_pos
    have hmod := hformatted.maxSize_mod
    change 0 + romfsAlign ≤ pfs.maxSize
    unfold romfsAlign at *
    omega
  live_apart := .nil
  writes_safe := fun write hwrite ↦ by simp [hformatted.writes_eq] at hwrite

omit [DecidableEq Instance] in
/-- At the start of a run every WOFS holds the empty log. -/
theorem orderly_of_initial (hinitial : FsInitial world) : Orderly world where
  tracked := tracked_of_initial hinitial
  holds := fun inst hwo ↦ by
    rw [hinitial.log_eq]
    exact holds_of_formatted hwo (hinitial.writing_eq inst) (hinitial.formatted inst hwo)
  writer := fun fd inst hhandle ↦ by simp [hinitial.handles_eq] at hhandle

/-- Every run of orderly calls is orderly in every state. -/
theorem orderly_of_orderlyUse (hreach : (fsSystem Instance).ReachableUnder OrderlyUse world) :
    Orderly world :=
  hreach.invariant Orderly (fun _ hinitial ↦ orderly_of_initial hinitial)
    fun _ _ _ horderly huse hstep ↦ horderly.step huse hstep

end Steps

/-! ### A run with a file -/

theorem zero_notMem_a : (0 : UInt8) ∉ [0x61] := by decide

theorem zero_lt_totalMaxFds : 0 < totalMaxFds := by decide

/-- A file `a` is created on a blank flash. -/
def createA : FsEvent Unit :=
  .open () ⟨[0x61], zero_notMem_a⟩ ⟨true, false, false, true, false, false⟩ 0

/-- Two bytes are written to the file, and it is closed. -/
def oneFile : List (FsEvent Unit) :=
  [createA, .write ⟨0, zero_lt_totalMaxFds⟩ [1, 2], .close ⟨0, zero_lt_totalMaxFds⟩]

/-- The run of orderly calls with the file. -/
theorem reachableUnder_oneFile {world : World Unit}
    (hrun : runEvents (fsStep 3) (.blank 64) oneFile = some world) :
    (fsSystem Unit).ReachableUnder OrderlyUse world := by
  have hplace : (fsStep 3 (.blank 64) createA).map (fun opened ↦
      (opened.table.fds 0).baseaddr + (opened.table.fds 0).size) = some 12 := by rfl
  obtain ⟨opened, hopened, hstart⟩ := Option.map_eq_some_iff.mp hplace
  obtain ⟨opened', hopened', hrun⟩ := Option.bind_eq_some_iff.mp hrun
  obtain rfl := Option.some.inj (hopened.symm.trans hopened')
  obtain ⟨written, hwritten, hrun⟩ := Option.bind_eq_some_iff.mp hrun
  obtain ⟨closed, hclosed, hrun⟩ := Option.bind_eq_some_iff.mp hrun
  obtain rfl := Option.some.inj hrun
  have hreach : (fsSystem Unit).ReachableUnder OrderlyUse opened :=
    .next (.start (fsInitial_blank (by decide) (by decide) (by decide)))
      ⟨.open rfl (by decide), .open_of_not_trunc rfl⟩ ⟨3, hopened⟩
  have hfits : (opened.table.fds 0).baseaddr + (opened.table.fds 0).size + 2 < 2 ^ 32 := by
    rw [hstart]
    decide
  exact (hreach.andThen (.write 0 [1, 2]) ⟨.write hfits, .write⟩ ⟨3, hwritten⟩).andThen (.close 0)
    ⟨.close, .close⟩ ⟨3, hclosed⟩

end Elua.Romfs
