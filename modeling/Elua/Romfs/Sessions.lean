import Elua.Foundation.History
import Elua.Romfs.LogRefinement

/-!
# Sessions on one file system

A write session opens a file with write access, writes any number of buffers and closes the file.
`sessionSystem` is the system whose events are complete write sessions and, between them, the single
calls of read sessions. Its state records the sessions so far: the name of each, with the bytes that
its writes accepted.

`Kept` says that the instance holds the log that a history of sessions leaves (`logOf`): one file
for each session, deleted if a later session has the same name. Every permitted event keeps it. -/

set_option autoImplicit false
set_option relaxedAutoImplicit false

namespace Elua.Romfs

open Foundation TransitionSystem

/-! ### Sessions -/

/-- The state of a run of sessions: the descriptors, the instance, and the write sessions so far,
oldest first, each with the bytes it wrote. -/
structure SessionState where
  table : FdTable
  pfs : Fsdata
  history : List (FileName × List UInt8)

/-- A complete write session, or one call of a read session. -/
inductive SessionEvent
  | write (name : FileName) (flags : OpenFlags) (junk : ℕ) (buffers : List (List UInt8))
  | open (path : CString) (flags : OpenFlags) (junk : ℕ)
  | read (fd : Fin totalMaxFds) (len : ℕ)
  | lseek (fd : Fin totalMaxFds) (off : ℤ) (whence : Whence)
  | close (fd : Fin totalMaxFds)

/-- Writes buffers one after the other and collects what the writes accept. -/
def writeAll (fd : Fin totalMaxFds) :
    List (List UInt8) → FdTable → Fsdata → Option (List UInt8 × FdTable × Fsdata)
  | [], table, pfs => some ([], table, pfs)
  | buffer :: buffers, table, pfs =>
    (romfsWriteR fd buffer table pfs).bind fun outcome ↦
      let accepted := match outcome.result with
        | .error _ => []
        | .ok len => buffer.take len
      (writeAll fd buffers outcome.table outcome.pfs).map fun rest ↦
        (accepted ++ rest.1, rest.2)

/-- Reads one length after the other and collects the bytes. -/
def readAll (fd : Fin totalMaxFds) :
    List ℕ → FdTable → Fsdata → Option (List UInt8 × FdTable × Fsdata)
  | [], table, pfs => some ([], table, pfs)
  | len :: lens, table, pfs =>
    (romfsReadR fd len table pfs).bind fun outcome ↦
      let bytes := match outcome.result with
        | .error _ => []
        | .ok bytes => bytes
      (readAll fd lens outcome.table outcome.pfs).map fun rest ↦ (bytes ++ rest.1, rest.2)

/-- A write session: the open has to succeed. -/
def writeSession (fuel : ℕ) (state : SessionState) (name : FileName) (flags : OpenFlags)
    (junk : ℕ) (buffers : List (List UInt8)) : Option SessionState :=
  (romfsOpenR fuel name.toCString flags junk state.table state.pfs).bind fun outcome ↦
    match outcome.result with
    | .error _ => none
    | .ok fd =>
      (writeAll fd buffers outcome.table outcome.pfs).map fun written ↦
        let closed := romfsCloseR fd written.2.1 written.2.2
        ⟨closed.1, closed.2, state.history ++ [(name, written.1)]⟩

/-- One event, whose lookups end within the fuel. -/
def sessionStep (fuel : ℕ) (state : SessionState) : SessionEvent → Option SessionState
  | .write name flags junk buffers => writeSession fuel state name flags junk buffers
  | .open path flags junk =>
    (romfsOpenR fuel path flags junk state.table state.pfs).map fun outcome ↦
      { state with table := outcome.table, pfs := outcome.pfs }
  | .read fd len =>
    (romfsReadR fd len state.table state.pfs).map fun outcome ↦
      { state with table := outcome.table, pfs := outcome.pfs }
  | .lseek fd off whence => some { state with table := (romfsLseekR fd off whence state.table).2 }
  | .close fd =>
    let closed := romfsCloseR fd state.table state.pfs
    some { state with table := closed.1, pfs := closed.2 }

/-- The open of a read session: it neither creates a file nor asks for write access. -/
def OpenFlags.ReadOnly (flags : OpenFlags) : Prop :=
  flags.creat = false ∧ (decodeAccess flags).writable = false

/-- Write sessions ask for write access and avoid the reserved first byte. -/
def ProperSession (state : SessionState) : SessionEvent → Prop
  | .write name flags _ _ => (decodeAccess flags).writable = true ∧ name.bytes.head? ≠ some 1
  | .open _ flags _ => flags.ReadOnly
  | .read _ _ => True
  | .lseek _ _ _ => True
  | .close fd => (state.table.fds fd).flags.writable = false

/-- Every buffer that is written fits into the address space beside the flash. -/
def BuffersFit (state : SessionState) : SessionEvent → Prop
  | .write _ _ _ buffers => ∀ buffer ∈ buffers, buffer.length + state.pfs.maxSize ≤ 2 ^ 32
  | _ => True

/-- The start of a run: a WOFS that has been formatted, and arbitrary descriptors. -/
structure SessionInitial (state : SessionState) : Prop where
  wo_eq : state.pfs.wo = true
  writing_eq : state.pfs.writing = false
  formatted : Formatted state.pfs
  history_eq : state.history = []

/-- The runs of sessions. -/
def sessionSystem : TransitionSystem SessionState SessionEvent where
  initial := SessionInitial
  step := fun state event after ↦ ∃ fuel, sessionStep fuel state event = some after

/-! ### The log of a history -/

/-- What lookups compare: the first bytes of a name, folded to lower case. -/
def nameKey (name : FileName) : List UInt8 := foldedPrefix dmMaxFnameLength name.bytes

/-- The file that a session leaves. -/
def fileOf (entry : Bool × FileName × List UInt8) : File := ⟨entry.2.1, entry.1, entry.2.2⟩

/-- The log that a history of sessions leaves. -/
def logOf (history : List (FileName × List UInt8)) : Log :=
  ⟨(supersede nameKey history).map fileOf, none⟩

/-- A session deletes the old version of its file and adds the new one at the end. -/
theorem logOf_append (history : List (FileName × List UInt8)) (name : FileName)
    (data : List UInt8) :
    logOf (history ++ [(name, data)]) =
      ((((logOf history).delete name.toCString).start name).append data).finish := by
  have hmark : ∀ entry : Bool × FileName × List UInt8,
      fileOf (markKey nameKey (nameKey name) entry) = (fileOf entry).delete name.toCString := by
    rintro ⟨superseded, other, contents⟩
    have hsame : nameKey other = nameKey name ↔
        SameName dmMaxFnameLength name.bytes other.bytes := eq_comm
    simp only [fileOf, markKey, File.delete, hsame]
    split_ifs with hname <;> simp [hname]
  simp only [logOf, supersede_append, List.map_append, List.map_map, Log.finish, Log.files,
    Log.append, Log.start, Log.delete, Option.map_some, Option.toList_some, List.map_cons,
    List.map_nil, List.nil_append]
  congr 2
  exact List.map_congr_left fun entry _ ↦ hmark entry

theorem Log.append_append (log : Log) (first second : List UInt8) :
    (log.append first).append second = log.append (first ++ second) := by
  obtain ⟨closed, pending⟩ := log
  cases pending with
  | none => rfl
  | some pending => simp only [Log.append, Option.map_some, List.append_assoc]

/-! ### What a session does to the log -/

section Sessions

variable {log : Log} {pfs : Fsdata} {table : FdTable} {fd : Fin totalMaxFds}

/-- A buffer that fits into the address space beside the flash ends below its end. -/
theorem Holds.fits (hholds : Holds log pfs) {file : Fd} (hwriter : WriterAt log file) {length : ℕ}
    (hlength : length + pfs.maxSize ≤ 2 ^ 32) : file.baseaddr + file.size + length < 2 ^ 32 := by
  have hroom := hholds.room
  rw [hwriter.length_bytes] at hroom
  unfold romfsAlign at hroom
  omega

/-- A write has a result. -/
theorem Holds.exists_romfsWriteR (hholds : Holds log pfs) (hwriter : WriterAt log (table.fds fd))
    (hwritable : (table.fds fd).flags.writable = true) {data : List UInt8}
    (hfits : data.length + pfs.maxSize ≤ 2 ^ 32) :
    ∃ outcome, Romfs.romfsWriteR fd data table pfs = some outcome := by
  have hseek : WriterAt log (table.fds fd).seekForWrite := by
    unfold Fd.seekForWrite
    split <;> exact hwriter
  rw [Romfs.romfsWriteR, if_pos hwritable]
  simp only
  rw [hholds.writeLength_eq hseek (hholds.fits hseek hfits), if_pos (Nat.min_le_left _ _)]
  split_ifs <;> exact ⟨_, rfl⟩

/-- A write keeps the size of the flash. -/
theorem maxSize_of_romfsWriteR {data : List UInt8} {outcome : Outcome ℕ}
    (hwrite : romfsWriteR fd data table pfs = some outcome) :
    outcome.pfs.maxSize = pfs.maxSize := by
  unfold romfsWriteR at hwrite
  simp only at hwrite
  split_ifs at hwrite <;> (obtain rfl := Option.some.inj hwrite; rfl)

/-- The writes of a session all have results and append what they accept to the file being
written. -/
theorem Holds.writeAll (hholds : Holds log pfs) (hwriter : WriterAt log (table.fds fd))
    (hwritable : (table.fds fd).flags.writable = true) {buffers : List (List UInt8)}
    (hfits : ∀ buffer ∈ buffers, buffer.length + pfs.maxSize ≤ 2 ^ 32) :
    ∃ accepted table' pfs', Romfs.writeAll fd buffers table pfs = some (accepted, table', pfs') ∧
      Holds (log.append accepted) pfs' ∧ WriterAt (log.append accepted) (table'.fds fd) ∧
      (table'.fds fd).flags.writable = true := by
  induction buffers generalizing log table pfs with
  | nil =>
    refine ⟨[], table, pfs, rfl, ?_⟩
    rw [Log.append_nil]
    exact ⟨hholds, hwriter, hwritable⟩
  | cons buffer buffers ih =>
    obtain ⟨hbuffer, hrest⟩ := List.forall_mem_cons.mp hfits
    obtain ⟨outcome, hwrite⟩ := hholds.exists_romfsWriteR hwriter hwritable hbuffer
    obtain ⟨len, hresult, hholds', hwriter'⟩ :=
      hholds.romfsWriteR hwriter hwritable (hholds.fits hwriter hbuffer) hwrite
    obtain ⟨⟨file, htable, -, hflags⟩, -, -⟩ := romfsWriteR_moved hwrite
    have hwritable' : (outcome.table.fds fd).flags.writable = true := by
      simpa only [htable, FdTable.set, Function.update_self, hflags] using hwritable
    have hmaxSize := maxSize_of_romfsWriteR hwrite
    obtain ⟨accepted, table', pfs', hwriteAll, hholdsAll, hwriterAll, hwritableAll⟩ :=
      ih hholds' hwriter' hwritable' (by rwa [hmaxSize])
    rw [Log.append_append] at hholdsAll hwriterAll
    refine ⟨buffer.take len ++ accepted, table', pfs', ?_, hholdsAll, hwriterAll, hwritableAll⟩
    rw [Romfs.writeAll, hwrite, Option.bind_some, hresult, hwriteAll]
    rfl

/-- While no file is being written, every open has a result. -/
theorem Holds.exists_romfsOpenR (hholds : Holds log pfs) (hpending : log.pending = none)
    (path : CString) (flags : OpenFlags) (junk : ℕ) (table : FdTable) :
    ∃ fuel outcome, Romfs.romfsOpenR fuel path flags junk table pfs = some outcome := by
  obtain ⟨fuel, lookup, hlookup, -⟩ := hholds.lookup hpending path
  obtain ⟨more, probe, hprobe, -⟩ :=
    (hholds.invalidateOld hpending hlookup).lookup hpending invalidName
  have hlookup' : romfsOpenFile (max fuel more) path pfs = some lookup :=
    runLoop_mono (Nat.le_max_left _ _) hlookup
  have hprobe' : romfsOpenFile (max fuel more) invalidName (Romfs.invalidateOld pfs lookup) =
      some probe := runLoop_mono (Nat.le_max_right _ _) hprobe
  refine ⟨max fuel more, ?_⟩
  rw [Romfs.romfsOpenR, hlookup', Option.bind_some]
  split_ifs
  · exact ⟨_, rfl⟩
  · split
    · exact ⟨_, rfl⟩
    · rw [createFile]
      simp only [hprobe', Option.map_some]
      exact ⟨_, rfl⟩
    · exact ⟨_, rfl⟩

/-- An open with write access that succeeds begins the new version of its file. -/
theorem Holds.romfsOpenR (hholds : Holds log pfs) (hpending : log.pending = none)
    (hreserved : ¬Found pfs invalidName) {fuel junk : ℕ} {name : FileName} {flags : OpenFlags}
    (hwritable : (decodeAccess flags).writable = true) {outcome : Outcome (Fin totalMaxFds)}
    (hopen : Romfs.romfsOpenR fuel name.toCString flags junk table pfs = some outcome)
    (hok : outcome.result = .ok fd) :
    Holds ((log.delete name.toCString).start name) outcome.pfs ∧
      WriterAt ((log.delete name.toCString).start name) (outcome.table.fds fd) ∧
      (outcome.table.fds fd).flags.writable = true ∧ outcome.pfs.maxSize = pfs.maxSize := by
  cases openCase_of_romfsOpenR hopen with
  | tableFull => cases hok
  | refused => cases hok
  | notFound => cases hok
  | noSlot => cases hok
  | opened hlookup hdecode hslot =>
    obtain ⟨-, -, haccess, hmust, -⟩ := decodeOpen_eq_ok_iff.mp hdecode
    rw [(haccess hwritable).1] at hmust
    cases hmust
  | creationFailed => cases hok
  | @created lookup probe lflags _ hroom hlookup hdecode hprobe hspace hslot =>
    obtain rfl := Except.ok.inj hok
    obtain ⟨-, -, -, -, hlflags⟩ := decodeOpen_eq_ok_iff.mp hdecode
    have hname : IsFileName name.toCString := ⟨name.length_le, name.not_end⟩
    obtain ⟨hstart, hwriter⟩ := hholds.created hpending hlookup hprobe hname
      (fun _ hfound ↦ absurd hfound hreserved) rfl hspace lflags
    rw [Log.startPath, dif_pos hname] at hstart hwriter
    refine ⟨hstart, ?_, ?_, ?_⟩
    · simpa only [FdTable.install, FdTable.set, Function.update_self] using hwriter
    · simpa only [FdTable.install, FdTable.set, Function.update_self, ← hlflags] using hwritable
    · cases lookup <;> rfl

end Sessions

/-- A read only open creates nothing. -/
theorem OpenFlags.ReadOnly.mustCreate_eq {flags : OpenFlags} (hreadOnly : flags.ReadOnly)
    (present : Bool) : mustCreate flags present = false := by
  obtain ⟨hcreat, haccess⟩ := hreadOnly
  unfold decodeAccess FileFlags.writable at haccess
  unfold mustCreate
  cases hwronly : flags.wronly <;> cases hrdwr : flags.rdwr <;> simp_all

/-- A read only open leaves the instance as it is. -/
theorem pfs_of_romfsOpenR_readOnly {fuel junk : ℕ} {path : CString} {flags : OpenFlags}
    {table : FdTable} {pfs : Fsdata} {outcome : Outcome (Fin totalMaxFds)}
    (hreadOnly : flags.ReadOnly)
    (hopen : romfsOpenR fuel path flags junk table pfs = some outcome) : outcome.pfs = pfs := by
  cases openCase_of_romfsOpenR hopen with
  | tableFull => rfl
  | refused => rfl
  | notFound => rfl
  | noSlot => rfl
  | opened => rfl
  | creationFailed code hroom hlookup hdecode =>
    obtain ⟨-, -, -, hmust, -⟩ := decodeOpen_eq_ok_iff.mp hdecode
    rw [hreadOnly.mustCreate_eq] at hmust
    cases hmust
  | created hroom hlookup hdecode =>
    obtain ⟨-, -, -, hmust, -⟩ := decodeOpen_eq_ok_iff.mp hdecode
    rw [hreadOnly.mustCreate_eq] at hmust
    cases hmust

/-! ### The invariant of the sessions -/

/-- The instance holds the log of the history, in which the reserved name does not occur. -/
structure Kept (state : SessionState) : Prop where
  holds : Holds (logOf state.history) state.pfs
  unreserved : ∀ entry ∈ state.history, entry.1.bytes.head? ≠ some 1

theorem tolower_eq_one {byte : UInt8} (hfold : tolower byte = 1) : byte = 1 := by
  unfold tolower at hfold
  split_ifs at hfold with hupper
  · have hnat := congrArg UInt8.toNat hfold
    rw [UInt8.toNat_add] at hnat
    have hsum : (32 : UInt8).toNat = 32 := rfl
    have hone : (1 : UInt8).toNat = 1 := rfl
    omega
  · exact hfold

/-- Only the reserved name itself is taken for the reserved name. -/
theorem head?_of_sameName_invalidName {name : List UInt8}
    (hsame : SameName dmMaxFnameLength invalidName.bytes name) : name.head? = some 1 := by
  cases name with
  | nil => cases hsame
  | cons byte rest =>
    have hfold := (List.cons.inj hsame).1
    exact congrArg some (tolower_eq_one hfold.symm)

/-- No file has the reserved name. -/
theorem Kept.not_found_invalidName {state : SessionState} (hkept : Kept state) :
    ¬Found state.pfs invalidName := by
  rw [hkept.holds.found_iff rfl]
  rintro ⟨file, hfile, -, hsame⟩
  obtain ⟨entry, hentry, rfl⟩ := List.mem_map.mp hfile
  have hmem := List.mem_map_of_mem (f := Prod.snd) hentry
  rw [map_snd_supersede] at hmem
  exact hkept.unreserved _ hmem (head?_of_sameName_invalidName hsame)

/-- A write session keeps the log of the history. -/
theorem Kept.writeSession {state after : SessionState} (hkept : Kept state) {fuel junk : ℕ}
    {name : FileName} {flags : OpenFlags} {buffers : List (List UInt8)}
    (hproper : ProperSession state (.write name flags junk buffers))
    (hfits : BuffersFit state (.write name flags junk buffers))
    (hstep : writeSession fuel state name flags junk buffers = some after) : Kept after := by
  obtain ⟨outcome, hopen, hstep⟩ := Option.bind_eq_some_iff.mp hstep
  split at hstep
  case h_1 => cases hstep
  case h_2 fd hok =>
    obtain ⟨hholds, hwriter, hwritable, hmaxSize⟩ :=
      hkept.holds.romfsOpenR rfl hkept.not_found_invalidName hproper.1 hopen hok
    obtain ⟨accepted, table, pfs, hwriteAll, hholdsAll, hwriterAll, hwritableAll⟩ :=
      hholds.writeAll hwriter hwritable fun buffer hbuffer ↦ hmaxSize ▸ hfits buffer hbuffer
    rw [hwriteAll, Option.map_some, Option.some.injEq] at hstep
    subst hstep
    refine ⟨?_, ?_⟩
    · rw [logOf_append]
      exact hholdsAll.romfsCloseR hwriterAll hwritableAll
    · intro entry hentry
      obtain hentry | hentry := List.mem_append.mp hentry
      · exact hkept.unreserved entry hentry
      · rw [List.mem_singleton.mp hentry]
        exact hproper.2

/-- Every permitted event keeps the log of the history. -/
theorem Kept.step {state after : SessionState} {event : SessionEvent} (hkept : Kept state)
    (hproper : ProperSession state event) (hfits : BuffersFit state event)
    (hstep : sessionSystem.step state event after) : Kept after := by
  obtain ⟨fuel, hstep⟩ := hstep
  cases event with
  | write name flags junk buffers => exact hkept.writeSession hproper hfits hstep
  | «open» path flags junk =>
    obtain ⟨outcome, hopen, rfl⟩ := Option.map_eq_some_iff.mp hstep
    rw [pfs_of_romfsOpenR_readOnly hproper hopen]
    exact ⟨hkept.holds, hkept.unreserved⟩
  | read fd len =>
    obtain ⟨outcome, hread, rfl⟩ := Option.map_eq_some_iff.mp hstep
    rw [(romfsReadR_sought hread).2]
    exact ⟨hkept.holds, hkept.unreserved⟩
  | lseek fd off whence =>
    obtain rfl := Option.some.inj hstep
    exact ⟨hkept.holds, hkept.unreserved⟩
  | close fd =>
    obtain rfl := Option.some.inj hstep
    have hreadOnly : (state.table.fds fd).flags.writable = false := hproper
    simp only [romfsCloseR, hreadOnly, Bool.false_eq_true, if_false]
    exact ⟨hkept.holds, hkept.unreserved⟩

/-- In every run of proper sessions whose buffers fit, the instance holds the log of the history. -/
theorem kept_of_sessions {state : SessionState}
    (hreach : sessionSystem.ReachableUnder
      (fun state event ↦ ProperSession state event ∧ BuffersFit state event) state) :
    Kept state :=
  hreach.invariant Kept
    (fun state hinitial ↦ by
      refine ⟨?_, ?_⟩
      · rw [hinitial.history_eq]
        exact holds_of_formatted hinitial.wo_eq hinitial.writing_eq hinitial.formatted
      · rw [hinitial.history_eq]
        exact fun entry hentry ↦ by cases hentry)
    fun _ _ _ hkept hpermitted hstep ↦ hkept.step hpermitted.1 hpermitted.2 hstep

end Elua.Romfs
