import Elua.Foundation.BitFields
import Elua.Foundation.Overwrite
import Elua.Foundation.Slots
import Elua.Foundation.TransitionSystem

/-!
# Opening files of the SD card

`mmcfs_open_r` translates the flags of an open into a mode of FatFs, and keeps the files that are
open in a table of four. FatFs is followed as it is documented, for files: `f_open`, `f_write`,
`f_read` and `f_lseek` on a volume that gives every file its contents.

`OpenRight` says that an open follows the rules for the flags of POSIX. `O_EXCL` is translated to a
mode that asks for a file that exists, and `O_APPEND` is looked for in the wrong argument. So an
open is right exactly if it fails for want of a descriptor or of memory, or if it appends nothing
and creates a file exclusively only where it truncates as well and finds none (`openRight_iff`). -/

set_option autoImplicit false
set_option relaxedAutoImplicit false

namespace Elua.Mmcfs

open Foundation TransitionSystem

/-! ### FatFs -/

/-- `FA_READ`. -/
def faRead : BitVec 8 := 0x01

/-- `FA_OPEN_EXISTING`. -/
def faOpenExisting : BitVec 8 := 0x00

/-- `FA_WRITE`. -/
def faWrite : BitVec 8 := 0x02

/-- `FA_CREATE_NEW`. -/
def faCreateNew : BitVec 8 := 0x04

/-- `FA_CREATE_ALWAYS`. -/
def faCreateAlways : BitVec 8 := 0x08

/-- `FA_OPEN_ALWAYS`. -/
def faOpenAlways : BitVec 8 := 0x10

/-- `FA__WRITTEN`. -/
def faWritten : BitVec 8 := 0x20

/-- The contents of the files of a volume. -/
abbrev Volume (Name : Type*) := Name → Option (List UInt8)

/-- `FIL`. -/
structure Fil (Name : Type*) where
  file : Name
  flag : BitVec 8
  fptr : ℕ
  fsize : ℕ

section FatFs

variable {Name : Type*} [DecidableEq Name]

/-- `f_open`: the file object, and the volume that it leaves. -/
def fOpen (volume : Volume Name) (file : Name) (mode : BitVec 8) :
    Option (Fil Name × Volume Name) :=
  if mode &&& (faCreateAlways ||| faOpenAlways ||| faCreateNew) ≠ 0 then
    let created := (⟨file, mode ||| faCreateAlways ||| faWritten, 0, 0⟩,
      Function.update volume file (some []))
    match volume file with
    | none => some created
    | some contents =>
      if mode &&& faCreateNew ≠ 0 then none
      else if mode &&& faCreateAlways ≠ 0 then some created
      else some (⟨file, mode, 0, contents.length⟩, volume)
  else (volume file).map fun contents ↦ (⟨file, mode, 0, contents.length⟩, volume)

/-- `f_write`, which takes as many of the bytes as the disk has room for. It fails for a file that
is not open for writing. -/
def fWrite (fil : Fil Name) (data : List UInt8) (room : ℕ) (volume : Volume Name) :
    Option (Fil Name × Volume Name) :=
  if fil.flag &&& faWrite = 0 then none
  else
    let taken := data.take room
    let contents := (volume fil.file).getD []
    let behind := contents.drop (fil.fptr + taken.length)
    some ({ fil with
        fptr := fil.fptr + taken.length, fsize := max fil.fsize (fil.fptr + taken.length) },
      Function.update volume fil.file (some (contents.take fil.fptr ++ taken ++ behind)))

/-- `f_read`. It fails for a file that is not open for reading. -/
def fRead (fil : Fil Name) (length : ℕ) : Option (Fil Name) :=
  if fil.flag &&& faRead = 0 then none
  else some { fil with fptr := fil.fptr + min length (fil.fsize - fil.fptr) }

/-- `f_lseek`. A file that is open for writing is made longer, by bytes that are not specified, as
far as the disk has room. -/
def fLseek (fil : Fil Name) (ofs : ℕ) (added : List UInt8) (volume : Volume Name) :
    Fil Name × Volume Name :=
  if ofs ≤ fil.fsize then ({ fil with fptr := ofs }, volume)
  else if fil.flag &&& faWrite = 0 then ({ fil with fptr := fil.fsize }, volume)
  else
    let taken := added.take (ofs - fil.fsize)
    let contents := (volume fil.file).getD []
    ({ fil with fptr := fil.fsize + taken.length, fsize := fil.fsize + taken.length },
      Function.update volume fil.file (some (contents ++ taken)))

end FatFs

/-! ### The code -/

/-- `MMCFS_MAX_FDS`. -/
abbrev mmcfsMaxFds : ℕ := 4

/-- `O_RDONLY`. -/
def oRdonly : BitVec 32 := 0x0000

/-- `O_WRONLY`. -/
def oWronly : BitVec 32 := 0x0001

/-- `O_RDWR`. -/
def oRdwr : BitVec 32 := 0x0002

/-- `O_ACCMODE`. -/
def oAccmode : BitVec 32 := 0x0003

/-- `O_APPEND`. -/
def oAppend : BitVec 32 := 0x0008

/-- `O_CREAT`. -/
def oCreat : BitVec 32 := 0x0200

/-- `O_TRUNC`. -/
def oTrunc : BitVec 32 := 0x0400

/-- `O_EXCL`. -/
def oExcl : BitVec 32 := 0x0800

/-- The errors of an open. -/
inductive Errno
  | enfile
  | enomem
  | einval
  | enoent
  deriving DecidableEq

/-- The part of the mode for what is to happen to the file. There is none for flags that are not
valid. -/
def creationMode (flags : BitVec 32) : Option (BitVec 8) :=
  if flags &&& (oCreat ||| oTrunc) = oCreat ||| oTrunc ∧ flags &&& (oRdwr ||| oWronly) ≠ 0 then
    some faCreateAlways
  else if flags &&& (oCreat ||| oExcl) = oCreat ||| oExcl then some faOpenExisting
  else if flags &&& oCreat = oCreat then some faOpenAlways
  else if flags = oRdonly ∨ flags = oWronly ∨ flags = oRdwr then some faOpenExisting
  else none

/-- The part of the mode for the access. -/
def accessMode (flags : BitVec 32) : Option (BitVec 8) :=
  if flags &&& oAccmode = oRdonly then some faRead
  else if flags &&& oAccmode = oWronly then some faWrite
  else if flags &&& oAccmode = oRdwr then some (faRead ||| faWrite)
  else none

/-- `mmc_mode`. -/
def mmcMode (flags : BitVec 32) : Option (BitVec 8) :=
  (creationMode flags).bind fun creation ↦ (accessMode flags).map fun access ↦ creation ||| access

/-- The name that is made of the number of the drive and the path. -/
def mmcPath (drvNum : ℕ) (path : List UInt8) : List UInt8 :=
  (Nat.toDigits 10 drvNum).map (fun digit ↦ UInt8.ofNat digit.toNat) ++
    58 :: if 47 ∈ path then path else 47 :: path

/-- `mmcfs_fd_table`, where an entry without a file system is free, and `mmcfs_num_fd`. -/
structure MmcTable (Name : Type*) where
  fds : Fin mmcfsMaxFds → Option (Fil Name)
  numFd : ℤ

section Code

variable {Name : Type*} [DecidableEq Name]

/-- A slot that `mmcfs_find_empty_fd` takes for empty. -/
def MmcTable.free (table : MmcTable Name) (fd : Fin mmcfsMaxFds) : Bool := (table.fds fd).isNone

/-- `mmcfs_find_empty_fd`. -/
def mmcfsFindEmptyFd (table : MmcTable Name) : Option (Fin mmcfsMaxFds) := firstFree table.free

/-- An open: the drive, the path, the flags and the mode, and whether there is memory for the
name. -/
structure OpenCall where
  drvNum : ℕ
  path : List UInt8
  flags : BitVec 32
  mode : BitVec 32
  memory : Bool

/-- What an open returns, and what it leaves. -/
structure OpenOutcome (Name : Type*) where
  value : Except Errno (Fin mmcfsMaxFds)
  table : MmcTable Name
  volume : Volume Name

/-- `mmcfs_open_r`, where `follow` is the file that a name leads to. There is no result where it
stores in front of the table. -/
def mmcfsOpenR (follow : List UInt8 → Name) (call : OpenCall) (volume : Volume Name)
    (table : MmcTable Name) : Option (OpenOutcome Name) :=
  if table.numFd = mmcfsMaxFds then some ⟨.error .enfile, table, volume⟩
  else if call.memory = false then some ⟨.error .enomem, table, volume⟩
  else
    match mmcMode call.flags with
    | none => some ⟨.error .einval, table, volume⟩
    | some mmcMode =>
      match fOpen volume (follow (mmcPath call.drvNum call.path)) mmcMode with
      | none => some ⟨.error .enoent, table, volume⟩
      | some (fil, volume) =>
        let fil := if call.mode &&& oAppend ≠ 0 then { fil with fptr := fil.fsize } else fil
        (mmcfsFindEmptyFd table).map fun fd ↦
          ⟨.ok fd, ⟨Function.update table.fds fd (some fil), table.numFd + 1⟩, volume⟩

/-- `mmcfs_close_r`. -/
def mmcfsCloseR (fd : Fin mmcfsMaxFds) (table : MmcTable Name) : MmcTable Name :=
  ⟨Function.update table.fds fd none, table.numFd - 1⟩

/-- The origin of a seek. -/
inductive Whence
  | set
  | cur
  | «end»
  deriving DecidableEq

/-- A call for a descriptor, with how the disk has room for it. -/
inductive FileCall
  | write (data : List UInt8) (room : ℕ)
  | read (length : ℕ)
  | lseek (off : ℤ) (whence : Whence) (added : List UInt8)

/-- The new position of `mmcfs_lseek_r`. -/
def newpos (fil : Fil Name) (off : ℤ) : Whence → ℕ
  | .set => (off % 2 ^ 32).toNat
  | .cur => ((fil.fptr + off) % 2 ^ 32).toNat
  | .end => ((fil.fsize + off) % 2 ^ 32).toNat

/-- The files that are open, and the volume. -/
structure MmcState (Name : Type*) where
  table : MmcTable Name
  volume : Volume Name

/-- Puts a file object back into the table. -/
def MmcState.store (state : MmcState Name) (fd : Fin mmcfsMaxFds) (fil : Fil Name)
    (volume : Volume Name) : MmcState Name :=
  ⟨{ state.table with fds := Function.update state.table.fds fd (some fil) }, volume⟩

/-- `mmcfs_write_r`, `mmcfs_read_r` and `mmcfs_lseek_r` for a descriptor that is open. A call that
fails changes nothing. -/
def fileCall (fd : Fin mmcfsMaxFds) (state : MmcState Name) (call : FileCall) :
    Option (MmcState Name) :=
  (state.table.fds fd).map fun fil ↦
    match call with
    | .write data room =>
      ((fWrite fil data room state.volume).map fun done ↦ state.store fd done.1 done.2).getD state
    | .read length =>
      ((fRead fil length).map fun fil ↦ state.store fd fil state.volume).getD state
    | .lseek off whence added =>
      let sought := fLseek fil (newpos fil off whence) added state.volume
      state.store fd sought.1 sought.2

/-! ### What an open owes -/

/-- The file of an open. -/
def OpenCall.file (follow : List UInt8 → Name) (call : OpenCall) : Name :=
  follow (mmcPath call.drvNum call.path)

/-- A flag is set. -/
def OpenCall.Has (call : OpenCall) (flag : BitVec 32) : Prop := call.flags &&& flag = flag

/-- The access mode lets the file be written. -/
def OpenCall.Writes (call : OpenCall) : Prop := call.flags &&& (oRdwr ||| oWronly) ≠ 0

/-- The rules of POSIX by which an open fails. The last two are about the file. -/
def PosixFails (follow : List UInt8 → Name) (call : OpenCall) (state : MmcState Name) : Prop :=
  (occupied state.table.free).length = mmcfsMaxFds ∨ call.memory = false ∨
    (call.Has oCreat ∧ call.Has oExcl ∧ state.volume (call.file follow) ≠ none) ∨
    (¬call.Has oCreat ∧ state.volume (call.file follow) = none)

/-- In every state that calls for the descriptor lead to, its position is at the end of the file if
it can be written. -/
def WritesAtEnd (fd : Fin mmcfsMaxFds) (state : MmcState Name) : Prop :=
  ∀ calls after, runEvents (fileCall fd) state calls = some after →
    ∀ fil, after.table.fds fd = some fil → fil.flag &&& faWrite ≠ 0 →
      fil.fptr = ((after.volume fil.file).getD []).length

/-- An open follows the rules of POSIX: it fails exactly by one of them, and then leaves the
descriptors and their count alone. Otherwise the file is empty if the open has created or truncated
it, and is as it was if not, and with `O_APPEND` all writes are at the end of the file. -/
structure OpenRight (follow : List UInt8 → Name) (call : OpenCall) (state : MmcState Name)
    (outcome : OpenOutcome Name) : Prop where
  fails_iff : (∃ errno, outcome.value = .error errno) ↔ PosixFails follow call state
  unchanged : ∀ errno, outcome.value = .error errno → outcome.table = state.table
  emptied : ∀ fd, outcome.value = .ok fd →
    state.volume (call.file follow) = none ∨ call.Has oTrunc ∧ call.Writes →
    outcome.volume (call.file follow) = some []
  kept : ∀ fd, outcome.value = .ok fd → state.volume (call.file follow) ≠ none →
    ¬(call.Has oTrunc ∧ call.Writes) →
    outcome.volume (call.file follow) = state.volume (call.file follow)
  appends : ∀ fd, outcome.value = .ok fd → call.Has oAppend →
    WritesAtEnd fd ⟨outcome.table, outcome.volume⟩

/-- There is neither a descriptor nor memory for the open; or a file that is created exclusively is
truncated by the mode as well and does not exist, and the open does not append. -/
def OpenGranted (follow : List UInt8 → Name) (call : OpenCall) (state : MmcState Name) : Prop :=
  ((occupied state.table.free).length = mmcfsMaxFds ∨ call.memory = false) ∨
    (call.Has oCreat → call.Has oExcl →
      call.Has oTrunc ∧ call.Writes ∧ state.volume (call.file follow) = none) ∧
    (call.Has oAppend → ¬call.Writes)

/-! ### Runs -/

/-- The state, and the descriptors that opens have returned and that have not been closed. -/
structure MmcRun (Name : Type*) where
  state : MmcState Name
  live : List (Fin mmcfsMaxFds)

/-- What happens: calls, and any change of the card. -/
inductive MmcEvent (Name : Type*)
  | open (call : OpenCall)
  | close (fd : Fin mmcfsMaxFds)
  | file (fd : Fin mmcfsMaxFds) (call : FileCall)
  | card (volume : Volume Name)

/-- An event. A close is of a descriptor that is open. -/
def mmcStep (follow : List UInt8 → Name) (run : MmcRun Name) : MmcEvent Name → Option (MmcRun Name)
  | .open call => (mmcfsOpenR follow call run.state.volume run.state.table).map fun outcome ↦
      ⟨⟨outcome.table, outcome.volume⟩, run.live ++ outcome.value.toOption.toList⟩
  | .close fd => if fd ∈ run.live then
      some ⟨{ run.state with table := mmcfsCloseR fd run.state.table }, run.live.erase fd⟩ else none
  | .file fd call => (fileCall fd run.state call).map fun state ↦ ⟨state, run.live⟩
  | .card volume => some { run with state := { run.state with volume := volume } }

/-- The start, with any card. -/
def MmcRun.start (volume : Volume Name) : MmcRun Name := ⟨⟨⟨fun _ ↦ none, 0⟩, volume⟩, []⟩

/-- The file system as a transition system. -/
def mmcSystem (follow : List UInt8 → Name) : TransitionSystem (MmcRun Name) (MmcEvent Name) :=
  .ofFunction (fun run ↦ ∃ volume, run = .start volume) (mmcStep follow)

end Code

/-! ### The modes -/

section Modes

variable {call : OpenCall} {mode : BitVec 8}

/-- What the flags are translated to. -/
theorem creationMode_cases {creation : BitVec 8}
    (hcreation : creationMode call.flags = some creation) :
    (call.Has oCreat ∧ call.Has oTrunc ∧ call.Writes ∧ creation = faCreateAlways) ∨
    (call.Has oCreat ∧ call.Has oExcl ∧ ¬(call.Has oTrunc ∧ call.Writes) ∧
      creation = faOpenExisting) ∨
    (call.Has oCreat ∧ ¬call.Has oExcl ∧ ¬(call.Has oTrunc ∧ call.Writes) ∧
      creation = faOpenAlways) ∨
    (¬call.Has oCreat ∧ ¬call.Has oTrunc ∧ ¬call.Has oAppend ∧ creation = faOpenExisting) := by
  unfold creationMode at hcreation
  simp only [and_or_eq_iff] at hcreation
  split_ifs at hcreation with htrunc hexcl hcreat hplain
  · exact .inl ⟨htrunc.1.1, htrunc.1.2, htrunc.2, (Option.some.inj hcreation).symm⟩
  · exact .inr (.inl ⟨hexcl.1, hexcl.2, fun hboth ↦ htrunc ⟨⟨hexcl.1, hboth.1⟩, hboth.2⟩,
      (Option.some.inj hcreation).symm⟩)
  · exact .inr (.inr (.inl ⟨hcreat, fun hboth ↦ hexcl ⟨hcreat, hboth⟩,
      fun hboth ↦ htrunc ⟨⟨hcreat, hboth.1⟩, hboth.2⟩, (Option.some.inj hcreation).symm⟩))
  · refine .inr (.inr (.inr ⟨hcreat, ?_, ?_, (Option.some.inj hcreation).symm⟩))
    · unfold OpenCall.Has
      rcases hplain with hflags | hflags | hflags <;> rw [hflags] <;> decide
    · unfold OpenCall.Has
      rcases hplain with hflags | hflags | hflags <;> rw [hflags] <;> decide

/-- The access of the mode. -/
theorem accessMode_cases {access : BitVec 8} (haccess : accessMode call.flags = some access) :
    (¬call.Writes ∧ access = faRead) ∨
      (call.Writes ∧ (access = faWrite ∨ access = faRead ||| faWrite)) := by
  have hmask : oRdwr ||| oWronly = oAccmode := rfl
  unfold accessMode at haccess
  unfold OpenCall.Writes
  rw [hmask]
  split_ifs at haccess with hread hwrite hboth
  · exact .inl ⟨not_not.mpr hread, (Option.some.inj haccess).symm⟩
  · refine .inr ⟨?_, .inl (Option.some.inj haccess).symm⟩
    rw [hwrite]
    decide
  · refine .inr ⟨?_, .inr (Option.some.inj haccess).symm⟩
    rw [hboth]
    decide

variable {Name : Type*} [DecidableEq Name] {volume : Volume Name} {file : Name} {access : BitVec 8}

/-- The accesses that there are. -/
def IsAccess (access : BitVec 8) : Prop :=
  access = faRead ∨ access = faWrite ∨ access = faRead ||| faWrite

/-- The file object is one of the file, with the access. -/
def OpenedWith (file : Name) (access : BitVec 8) (fil : Fil Name) : Prop :=
  fil.file = file ∧ fil.flag &&& faWrite = access &&& faWrite

/-- `f_open` that creates the file or truncates it. -/
theorem fOpen_createAlways (haccess : IsAccess access) :
    ∃ fil, fOpen volume file (faCreateAlways ||| access) =
      some (fil, Function.update volume file (some [])) ∧ OpenedWith file access fil := by
  obtain ⟨hmode, hnew, hcreate, hflag⟩ : (faCreateAlways ||| access) &&&
        (faCreateAlways ||| faOpenAlways ||| faCreateNew) ≠ 0 ∧
      ¬(faCreateAlways ||| access) &&& faCreateNew ≠ 0 ∧
      (faCreateAlways ||| access) &&& faCreateAlways ≠ 0 ∧
      (faCreateAlways ||| access ||| faCreateAlways ||| faWritten) &&& faWrite =
        access &&& faWrite := by
    rcases haccess with rfl | rfl | rfl <;> decide
  unfold fOpen
  rw [if_pos hmode]
  dsimp only
  cases volume file with
  | none => exact ⟨_, rfl, rfl, hflag⟩
  | some contents =>
    dsimp only
    rw [if_neg hnew, if_pos hcreate]
    exact ⟨_, rfl, rfl, hflag⟩

/-- `f_open` that creates the file if there is none. -/
theorem fOpen_openAlways (haccess : IsAccess access) :
    ∃ fil, fOpen volume file (faOpenAlways ||| access) =
      some (fil, Function.update volume file (some ((volume file).getD []))) ∧
        OpenedWith file access fil := by
  obtain ⟨hmode, hnew, hcreate, hflag, hplain⟩ : (faOpenAlways ||| access) &&&
        (faCreateAlways ||| faOpenAlways ||| faCreateNew) ≠ 0 ∧
      ¬(faOpenAlways ||| access) &&& faCreateNew ≠ 0 ∧
      ¬(faOpenAlways ||| access) &&& faCreateAlways ≠ 0 ∧
      (faOpenAlways ||| access ||| faCreateAlways ||| faWritten) &&& faWrite =
        access &&& faWrite ∧ (faOpenAlways ||| access) &&& faWrite = access &&& faWrite := by
    rcases haccess with rfl | rfl | rfl <;> decide
  unfold fOpen
  rw [if_pos hmode]
  dsimp only
  cases hvolume : volume file with
  | none => exact ⟨_, rfl, rfl, hflag⟩
  | some contents =>
    dsimp only
    rw [if_neg hnew, if_neg hcreate, Option.getD_some, ← hvolume, Function.update_eq_self]
    exact ⟨_, rfl, rfl, hplain⟩

/-- `f_open` of a file that must exist. -/
theorem fOpen_openExisting (haccess : IsAccess access) :
    (volume file = none → fOpen volume file (faOpenExisting ||| access) = none) ∧
      (volume file ≠ none → ∃ fil, fOpen volume file (faOpenExisting ||| access) =
        some (fil, volume) ∧ OpenedWith file access fil) := by
  obtain ⟨hmode, hflag⟩ : ¬(faOpenExisting ||| access) &&&
        (faCreateAlways ||| faOpenAlways ||| faCreateNew) ≠ 0 ∧
      (faOpenExisting ||| access) &&& faWrite = access &&& faWrite := by
    rcases haccess with rfl | rfl | rfl <;> decide
  unfold fOpen
  rw [if_neg hmode]
  constructor
  · intro hnone
    rw [hnone, Option.map_none]
  · intro hsome
    obtain ⟨contents, hcontents⟩ := Option.ne_none_iff_exists'.mp hsome
    rw [hcontents, Option.map_some]
    exact ⟨_, rfl, rfl, hflag⟩

end Modes

/-! ### Writes at the end -/

section Appending

variable {Name : Type*} {fd : Fin mmcfsMaxFds} {state after : MmcState Name} {fil : Fil Name}

theorem store_self (state : MmcState Name) (fd : Fin mmcfsMaxFds) (fil : Fil Name)
    (volume : Volume Name) : (state.store fd fil volume).table.fds fd = some fil := by
  unfold MmcState.store
  exact Function.update_self ..

variable [DecidableEq Name]

/-- A call keeps the access of the descriptor. -/
theorem fileCall_flag {call : FileCall} (hfil : state.table.fds fd = some fil)
    (hcall : fileCall fd state call = some after) :
    ∃ next, after.table.fds fd = some next ∧ next.flag = fil.flag := by
  unfold fileCall at hcall
  rw [hfil, Option.map_some] at hcall
  obtain rfl := Option.some.inj hcall
  cases call with
  | write data room =>
    dsimp only
    unfold fWrite
    split_ifs
    · exact ⟨fil, hfil, rfl⟩
    · exact ⟨_, store_self .., rfl⟩
  | read length =>
    dsimp only
    unfold fRead
    split_ifs
    · exact ⟨fil, hfil, rfl⟩
    · exact ⟨_, store_self .., rfl⟩
  | lseek off whence added =>
    refine ⟨_, store_self .., ?_⟩
    unfold fLseek
    split_ifs <;> rfl

/-- A descriptor that is not open for writing writes nowhere. -/
theorem writesAtEnd_of_readOnly (hfil : state.table.fds fd = some fil)
    (hread : fil.flag &&& faWrite = 0) : WritesAtEnd fd state := by
  intro calls after hrun other hother hwrite
  have hkept : ∃ next, after.table.fds fd = some next ∧ next.flag = fil.flag := by
    induction calls generalizing state fil with
    | nil =>
      obtain rfl := Option.some.inj hrun
      exact ⟨fil, hfil, rfl⟩
    | cons call calls ih =>
      obtain ⟨middle, hcall, hrest⟩ := Option.bind_eq_some_iff.mp hrun
      obtain ⟨next, hnext, hflag⟩ := fileCall_flag hfil hcall
      obtain ⟨last, hlast, hsame⟩ := ih hnext (hflag ▸ hread) hrest
      exact ⟨last, hlast, hsame.trans hflag⟩
  obtain ⟨next, hnext, hflag⟩ := hkept
  obtain rfl := Option.some.inj (hother.symm.trans hnext)
  exact absurd (hflag ▸ hread) hwrite

/-- A byte is written, and the position is set back to the start. -/
theorem not_writesAtEnd_of_writes (hfil : state.table.fds fd = some fil)
    (hwrite : fil.flag &&& faWrite ≠ 0) : ¬WritesAtEnd fd state := by
  intro hend
  obtain ⟨next, volume, hdone, hflag, hfile, hlength⟩ : ∃ next volume,
      fWrite fil [0] 1 state.volume = some (next, volume) ∧ next.flag = fil.flag ∧
        next.file = fil.file ∧ 0 < ((volume fil.file).getD []).length := by
    unfold fWrite
    rw [if_neg hwrite]
    refine ⟨_, _, rfl, rfl, rfl, ?_⟩
    rw [Function.update_self, Option.getD_some, List.length_append, List.length_append]
    exact Nat.lt_of_lt_of_le Nat.zero_lt_one ((Nat.le_add_left 1 _).trans (Nat.le_add_right _ _))
  have hfirst : fileCall fd state (.write [0] 1) = some (state.store fd next volume) := by
    unfold fileCall
    rw [hfil, Option.map_some]
    dsimp only
    rw [hdone]
    rfl
  have hsecond : fileCall fd (state.store fd next volume) (.lseek 0 .set []) =
      some ((state.store fd next volume).store fd { next with fptr := 0 } volume) := by
    unfold fileCall
    rw [store_self, Option.map_some]
    exact congrArg (fun sought : Fil Name × Volume Name ↦
      some ((state.store fd next volume).store fd sought.1 sought.2)) (if_pos (Nat.zero_le _))
  have hrun : runEvents (fileCall fd) state [.write [0] 1, .lseek 0 .set []] =
      some ((state.store fd next volume).store fd { next with fptr := 0 } volume) := by
    rw [runEvents, hfirst, Option.bind_some, runEvents, hsecond]
    rfl
  have hposition := hend _ _ hrun _ (store_self ..) (hflag ▸ hwrite)
  rw [hfile] at hposition
  exact hlength.ne hposition

/-- All writes are at the end exactly if there are none. -/
theorem writesAtEnd_iff (hfil : state.table.fds fd = some fil) :
    WritesAtEnd fd state ↔ fil.flag &&& faWrite = 0 := by
  refine ⟨fun hend ↦ ?_, writesAtEnd_of_readOnly hfil⟩
  by_contra hwrite
  exact not_writesAtEnd_of_writes hfil hwrite hend

end Appending

/-! ### Consistent tables -/

section Runs

variable {Name : Type*} {run : MmcRun Name}

/-- The count is the number of the open descriptors, and these are the slots that are not free. -/
structure Consistent (run : MmcRun Name) : Prop where
  numFd_eq : run.state.table.numFd = run.live.length
  tracks : Tracks run.state.table.free run.live

/-- Storing a file object takes a slot, and taking it out frees the slot. -/
theorem free_update {table : MmcTable Name} {fd : Fin mmcfsMaxFds} {entry : Option (Fil Name)}
    {numFd : ℤ} : MmcTable.free ⟨Function.update table.fds fd entry, numFd⟩ =
      Function.update table.free fd entry.isNone :=
  Function.comp_update Option.isNone table.fds fd entry

/-- Putting a file object back keeps which slots are free. -/
theorem free_store {state : MmcState Name} {fd : Fin mmcfsMaxFds} {fil next : Fil Name}
    {volume : Volume Name} (hfil : state.table.fds fd = some fil) :
    (state.store fd next volume).table.free = state.table.free := by
  unfold MmcState.store
  refine free_update.trans (Function.update_eq_iff.mpr ⟨?_, fun _ _ ↦ rfl⟩)
  unfold MmcTable.free
  rw [hfil]
  rfl

theorem Consistent.full_iff (hrun : Consistent run) :
    run.state.table.numFd = mmcfsMaxFds ↔
      (occupied run.state.table.free).length = mmcfsMaxFds := by
  rw [hrun.numFd_eq, hrun.tracks.length_eq, Int.natCast_inj]

/-- There is no descriptor, or no memory. -/
def Exhausted (call : OpenCall) (state : MmcState Name) : Prop :=
  (occupied state.table.free).length = mmcfsMaxFds ∨ call.memory = false

/-- With a descriptor and memory, only the rules about the file are left. -/
theorem posixFails_iff {follow : List UInt8 → Name} {call : OpenCall} {state : MmcState Name}
    (hroom : ¬Exhausted call state) :
    PosixFails follow call state ↔
      (call.Has oCreat ∧ call.Has oExcl ∧ state.volume (call.file follow) ≠ none) ∨
        (¬call.Has oCreat ∧ state.volume (call.file follow) = none) := by
  unfold PosixFails
  rw [← or_assoc]
  exact or_iff_right hroom

variable [DecidableEq Name]

/-- A call for a descriptor keeps which slots are free, and the count. -/
theorem fileCall_keeps {fd : Fin mmcfsMaxFds} {call : FileCall} {state after : MmcState Name}
    (hcall : fileCall fd state call = some after) :
    after.table.free = state.table.free ∧ after.table.numFd = state.table.numFd := by
  unfold fileCall at hcall
  obtain ⟨fil, hfil, rfl⟩ := Option.map_eq_some_iff.mp hcall
  cases call with
  | write data room =>
    dsimp only
    cases fWrite fil data room state.volume with
    | none => exact ⟨rfl, rfl⟩
    | some done => exact ⟨free_store hfil, rfl⟩
  | read length =>
    dsimp only
    cases fRead fil length with
    | none => exact ⟨rfl, rfl⟩
    | some done => exact ⟨free_store hfil, rfl⟩
  | lseek off whence added => exact ⟨free_store hfil, rfl⟩

variable {follow : List UInt8 → Name} {call : OpenCall}

/-- An open for which there is no descriptor or no memory. -/
theorem Consistent.open_exhausted (hrun : Consistent run) (hexhausted : Exhausted call run.state) :
    ∃ errno, mmcfsOpenR follow call run.state.volume run.state.table =
      some ⟨.error errno, run.state.table, run.state.volume⟩ := by
  unfold mmcfsOpenR
  by_cases hfull : run.state.table.numFd = mmcfsMaxFds
  · exact ⟨_, if_pos hfull⟩
  · rw [if_neg hfull, if_pos (hexhausted.resolve_left fun hall ↦ hfull (hrun.full_iff.mpr hall))]
    exact ⟨_, rfl⟩

/-- An open with a valid mode fails if FatFs does. -/
theorem Consistent.open_none {mode : BitVec 8} (hrun : Consistent run)
    (hroom : ¬Exhausted call run.state) (hmode : mmcMode call.flags = some mode)
    (hopen : fOpen run.state.volume (call.file follow) mode = none) :
    mmcfsOpenR follow call run.state.volume run.state.table =
      some ⟨.error .enoent, run.state.table, run.state.volume⟩ := by
  unfold OpenCall.file at hopen
  unfold mmcfsOpenR
  rw [if_neg fun hfull ↦ hroom (.inl (hrun.full_iff.mp hfull)),
    if_neg fun hnone ↦ hroom (.inr hnone), hmode]
  dsimp only
  rw [hopen]

/-- An open with a valid mode takes a free slot if FatFs opens the file. -/
theorem Consistent.open_some {mode : BitVec 8} {fil : Fil Name} {volume : Volume Name}
    (hrun : Consistent run) (hroom : ¬Exhausted call run.state)
    (hmode : mmcMode call.flags = some mode)
    (hopen : fOpen run.state.volume (call.file follow) mode = some (fil, volume)) :
    ∃ fd next, run.state.table.free fd = true ∧ next.flag = fil.flag ∧
      mmcfsOpenR follow call run.state.volume run.state.table =
        some ⟨.ok fd, ⟨Function.update run.state.table.fds fd (some next),
          run.state.table.numFd + 1⟩, volume⟩ := by
  have hlength : run.live.length < mmcfsMaxFds := by
    refine hrun.tracks.length_le.lt_of_ne fun hall ↦ hroom (.inl ?_)
    rw [← hrun.tracks.length_eq, hall]
  obtain ⟨fd, hfirst⟩ := hrun.tracks.exists_firstFree hlength
  have hfind : mmcfsFindEmptyFd run.state.table = some fd := hfirst
  unfold OpenCall.file at hopen
  refine ⟨fd, if call.mode &&& oAppend ≠ 0 then { fil with fptr := fil.fsize } else fil,
    free_of_firstFree hfirst, ?_, ?_⟩
  · split_ifs <;> rfl
  · unfold mmcfsOpenR
    rw [if_neg fun hfull ↦ hroom (.inl (hrun.full_iff.mp hfull)),
      if_neg fun hnone ↦ hroom (.inr hnone), hmode]
    dsimp only
    rw [hopen]
    dsimp only
    rw [hfind]
    rfl

/-- An open, whether it fails or not, keeps the table consistent. -/
theorem Consistent.open_keeps {outcome : OpenOutcome Name} (hrun : Consistent run)
    (hopen : mmcfsOpenR follow call run.state.volume run.state.table = some outcome) :
    Consistent ⟨⟨outcome.table, outcome.volume⟩,
      run.live ++ outcome.value.toOption.toList⟩ := by
  have hfailed : ∀ errno, outcome = ⟨.error errno, run.state.table, run.state.volume⟩ →
      Consistent ⟨⟨outcome.table, outcome.volume⟩,
        run.live ++ outcome.value.toOption.toList⟩ := by
    rintro errno rfl
    dsimp only [Except.toOption]
    rw [Option.toList_none, List.append_nil]
    exact ⟨hrun.numFd_eq, hrun.tracks⟩
  by_cases hexhausted : Exhausted call run.state
  · obtain ⟨errno, herror⟩ := @Consistent.open_exhausted _ _ _ follow _ hrun hexhausted
    exact hfailed errno (Option.some.inj (hopen.symm.trans herror))
  cases hmode : mmcMode call.flags with
  | none =>
    unfold mmcfsOpenR at hopen
    rw [if_neg fun hfull ↦ hexhausted (.inl (hrun.full_iff.mp hfull)),
      if_neg fun hnone ↦ hexhausted (.inr hnone), hmode] at hopen
    exact hfailed _ (Option.some.inj hopen).symm
  | some mode =>
    cases hfatfs : fOpen run.state.volume (call.file follow) mode with
    | none =>
      have herror := hrun.open_none hexhausted hmode hfatfs
      exact hfailed _ (Option.some.inj (hopen.symm.trans herror))
    | some opened =>
      obtain ⟨fd, next, hfree, -, hopened⟩ := hrun.open_some hexhausted hmode hfatfs
      obtain rfl := Option.some.inj (hopened.symm.trans hopen)
      refine ⟨?_, ?_⟩
      · dsimp only [Except.toOption]
        rw [Option.toList_some, List.length_append, List.length_singleton, hrun.numFd_eq]
        rfl
      · rw [free_update]
        exact hrun.tracks.take hfree

/-- An event keeps the table consistent. -/
theorem Consistent.step {event : MmcEvent Name} {after : MmcRun Name} (hrun : Consistent run)
    (hstep : mmcStep follow run event = some after) : Consistent after := by
  cases event with
  | «open» call =>
    obtain ⟨outcome, hopen, rfl⟩ := Option.map_eq_some_iff.mp hstep
    exact hrun.open_keeps hopen
  | close fd =>
    rw [mmcStep] at hstep
    split_ifs at hstep with hmem
    obtain rfl := Option.some.inj hstep
    refine ⟨?_, ?_⟩
    · have hpos := List.length_pos_of_mem hmem
      have hcount := hrun.numFd_eq
      change run.state.table.numFd - 1 = ((run.live.erase fd).length : ℤ)
      rw [List.length_erase_of_mem hmem]
      omega
    · unfold mmcfsCloseR
      rw [free_update]
      exact hrun.tracks.giveBack
  | file fd call =>
    obtain ⟨state, hcall, rfl⟩ := Option.map_eq_some_iff.mp hstep
    obtain ⟨hfree, hcount⟩ := fileCall_keeps hcall
    exact ⟨hcount.trans hrun.numFd_eq, hfree ▸ hrun.tracks⟩
  | card volume =>
    obtain rfl := Option.some.inj hstep
    exact ⟨hrun.numFd_eq, hrun.tracks⟩

theorem consistent_of_reachable (hreach : (mmcSystem follow).Reachable run) : Consistent run := by
  refine hreach.invariant Consistent ?_ fun _ _ _ hrun _ hstep ↦ hrun.step hstep
  rintro _ ⟨volume, rfl⟩
  exact ⟨rfl, List.nodup_nil, fun _ ↦ iff_of_false List.not_mem_nil Bool.noConfusion⟩

end Runs

/-! ### Which opens are right -/

section Right

variable {Name : Type*} [DecidableEq Name] {follow : List UInt8 → Name} {call : OpenCall}
  {state : MmcState Name} {run : MmcRun Name}

/-- An open that has failed is right if it had to fail. -/
theorem openRight_error {errno : Errno} {outcome : OpenOutcome Name}
    (houtcome : outcome = ⟨.error errno, state.table, state.volume⟩) :
    OpenRight follow call state outcome ↔ PosixFails follow call state := by
  subst houtcome
  refine ⟨fun hright ↦ hright.fails_iff.mp ⟨errno, rfl⟩, fun hfails ↦ ?_⟩
  have hnone : ∀ fd, (Except.error errno : Except Errno (Fin mmcfsMaxFds)) ≠ .ok fd := by
    intro fd hvalue
    cases hvalue
  exact ⟨iff_of_true ⟨errno, rfl⟩ hfails, fun _ _ ↦ rfl, fun fd hvalue ↦ absurd hvalue (hnone fd),
    fun fd hvalue ↦ absurd hvalue (hnone fd), fun fd hvalue ↦ absurd hvalue (hnone fd)⟩

/-- An open that has returned a descriptor. -/
theorem openRight_ok {fd : Fin mmcfsMaxFds} {table : MmcTable Name} {volume : Volume Name}
    {fil : Fil Name} (hfil : table.fds fd = some fil)
    (hwrites : fil.flag &&& faWrite ≠ 0 ↔ call.Writes) :
    OpenRight follow call state ⟨.ok fd, table, volume⟩ ↔
      ¬PosixFails follow call state ∧
        (state.volume (call.file follow) = none ∨ call.Has oTrunc ∧ call.Writes →
          volume (call.file follow) = some []) ∧
        (state.volume (call.file follow) ≠ none → ¬(call.Has oTrunc ∧ call.Writes) →
          volume (call.file follow) = state.volume (call.file follow)) ∧
        (call.Has oAppend → ¬call.Writes) := by
  have hend : WritesAtEnd fd ⟨table, volume⟩ ↔ ¬call.Writes := by
    rw [writesAtEnd_iff hfil, ← hwrites, not_not]
  have hok : ¬∃ errno, (Except.ok fd : Except Errno (Fin mmcfsMaxFds)) = .error errno := by
    rintro ⟨errno, herror⟩
    cases herror
  constructor
  · intro hright
    exact ⟨fun hfails ↦ hok (hright.fails_iff.mpr hfails), hright.emptied fd rfl,
      hright.kept fd rfl, fun happend ↦ hend.mp (hright.appends fd rfl happend)⟩
  · rintro ⟨hposix, hemptied, hkept, happends⟩
    refine ⟨iff_of_false hok hposix, fun errno herror ↦ absurd ⟨errno, herror⟩ hok,
      fun _ _ ↦ hemptied, fun _ _ ↦ hkept, fun other hother happend ↦ ?_⟩
    obtain rfl := Except.ok.inj hother
    exact hend.mpr (happends happend)

/-- The access of a valid mode. -/
theorem isAccess_of_accessMode {access : BitVec 8} (haccess : accessMode call.flags = some access) :
    IsAccess access ∧ (access &&& faWrite ≠ 0 ↔ call.Writes) := by
  rcases accessMode_cases haccess with ⟨hwrites, rfl⟩ | ⟨hwrites, rfl | rfl⟩
  · exact ⟨.inl rfl, iff_of_false (by decide) hwrites⟩
  · exact ⟨.inr (.inl rfl), iff_of_true (by decide) hwrites⟩
  · exact ⟨.inr (.inr rfl), iff_of_true (by decide) hwrites⟩

/-- What an open with a valid mode leaves, where FatFs opens the file. -/
theorem Consistent.openRight_some {access mode : BitVec 8} {fil : Fil Name}
    {volume : Volume Name} (hrun : Consistent run) (hroom : ¬Exhausted call run.state)
    (hmode : mmcMode call.flags = some mode) (haccess : access &&& faWrite ≠ 0 ↔ call.Writes)
    (hopen : fOpen run.state.volume (call.file follow) mode = some (fil, volume))
    (hfil : OpenedWith (call.file follow) access fil) :
    (∃ outcome, mmcfsOpenR follow call run.state.volume run.state.table = some outcome ∧
        OpenRight follow call run.state outcome) ↔
      ¬PosixFails follow call run.state ∧
        (run.state.volume (call.file follow) = none ∨ call.Has oTrunc ∧ call.Writes →
          volume (call.file follow) = some []) ∧
        (run.state.volume (call.file follow) ≠ none → ¬(call.Has oTrunc ∧ call.Writes) →
          volume (call.file follow) = run.state.volume (call.file follow)) ∧
        (call.Has oAppend → ¬call.Writes) := by
  obtain ⟨fd, next, -, hflag, hopened⟩ := hrun.open_some hroom hmode hopen
  have hflags : next.flag &&& faWrite ≠ 0 ↔ call.Writes := by
    rw [hflag, hfil.2, haccess]
  simp only [hopened, Option.some.injEq, exists_eq_left']
  exact openRight_ok (Function.update_self ..) hflags

/-- What an open with a valid mode leaves, where FatFs does not open the file. -/
theorem Consistent.openRight_none {mode : BitVec 8} (hrun : Consistent run)
    (hroom : ¬Exhausted call run.state) (hmode : mmcMode call.flags = some mode)
    (hopen : fOpen run.state.volume (call.file follow) mode = none) :
    (∃ outcome, mmcfsOpenR follow call run.state.volume run.state.table = some outcome ∧
        OpenRight follow call run.state outcome) ↔ PosixFails follow call run.state := by
  simp only [hrun.open_none hroom hmode hopen, Option.some.injEq, exists_eq_left']
  exact openRight_error rfl

/-- For every name, flags and memory of an open that is not rejected as invalid, in every state that
a run reaches, with every card: the open follows the rules for the flags exactly if it is
granted. -/
theorem openRight_iff {mode : BitVec 8} (hreach : (mmcSystem follow).Reachable run)
    (haccepted : mmcMode call.flags = some mode) :
    (∃ outcome, mmcfsOpenR follow call run.state.volume run.state.table = some outcome ∧
        OpenRight follow call run.state outcome) ↔ OpenGranted follow call run.state := by
  have hrun := consistent_of_reachable hreach
  by_cases hroom : Exhausted call run.state
  · obtain ⟨errno, herror⟩ := @Consistent.open_exhausted _ _ _ follow _ hrun hroom
    refine iff_of_true ⟨_, herror, (openRight_error rfl).mpr ?_⟩ (.inl hroom)
    exact hroom.elim .inl fun hmemory ↦ .inr (.inl hmemory)
  have hgranted : OpenGranted follow call run.state ↔
      (call.Has oCreat → call.Has oExcl →
        call.Has oTrunc ∧ call.Writes ∧ run.state.volume (call.file follow) = none) ∧
      (call.Has oAppend → ¬call.Writes) := or_iff_right hroom
  have hposix := @posixFails_iff _ follow _ _ hroom
  obtain ⟨creation, hcreation, hrest⟩ := Option.bind_eq_some_iff.mp haccepted
  obtain ⟨access, haccess, rfl⟩ := Option.map_eq_some_iff.mp hrest
  obtain ⟨hisAccess, hwrites⟩ := isAccess_of_accessMode haccess
  rw [hgranted]
  rcases creationMode_cases hcreation with ⟨hcreat, htrunc, hwritten, rfl⟩ |
    ⟨hcreat, hexcl, hkeeps, rfl⟩ | ⟨hcreat, hexcl, hkeeps, rfl⟩ | ⟨hcreat, htrunc, happend, rfl⟩
  · -- The file is created, or an old one is emptied, also where the creation is exclusive.
    obtain ⟨fil, hopen, hfil⟩ :=
      @fOpen_createAlways _ _ run.state.volume (call.file follow) _ hisAccess
    rw [hrun.openRight_some hroom haccepted hwrites hopen hfil, hposix, Function.update_self]
    constructor
    · rintro ⟨hfails, -, -, happends⟩
      refine ⟨fun _ hexcl ↦ ⟨htrunc, hwritten, ?_⟩, happends⟩
      by_contra hfile
      exact hfails (.inl ⟨hcreat, hexcl, hfile⟩)
    · rintro ⟨hexclusive, happends⟩
      refine ⟨?_, fun _ ↦ rfl, fun _ hno ↦ absurd ⟨htrunc, hwritten⟩ hno, happends⟩
      rintro (⟨-, hexcl, hfile⟩ | ⟨hno, -⟩)
      · exact hfile (hexclusive hcreat hexcl).2.2
      · exact hno hcreat
  · -- An exclusive creation asks for a file that exists.
    refine iff_of_false ?_ fun hright ↦ ?_
    · obtain ⟨habsent, hpresent⟩ :=
        @fOpen_openExisting _ _ run.state.volume (call.file follow) _ hisAccess
      by_cases hfile : run.state.volume (call.file follow) = none
      · rw [hrun.openRight_none hroom haccepted (habsent hfile), hposix]
        rintro (⟨-, -, hno⟩ | ⟨hno, -⟩)
        · exact hno hfile
        · exact hno hcreat
      · obtain ⟨fil, hopen, hfil⟩ := hpresent hfile
        rw [hrun.openRight_some hroom haccepted hwrites hopen hfil, hposix]
        exact fun hright ↦ hright.1 (.inl ⟨hcreat, hexcl, hfile⟩)
    · obtain ⟨htrunc, hwritten, -⟩ := hright.1 hcreat hexcl
      exact hkeeps ⟨htrunc, hwritten⟩
  · obtain ⟨fil, hopen, hfil⟩ :=
      @fOpen_openAlways _ _ run.state.volume (call.file follow) _ hisAccess
    rw [hrun.openRight_some hroom haccepted hwrites hopen hfil, hposix, Function.update_self]
    constructor
    · rintro ⟨-, -, -, happends⟩
      exact ⟨fun _ hno ↦ absurd hno hexcl, happends⟩
    · rintro ⟨-, happends⟩
      refine ⟨?_, fun hempty ↦ ?_, fun hfile _ ↦ ?_, happends⟩
      · rintro (⟨-, hno, -⟩ | ⟨hno, -⟩)
        · exact hexcl hno
        · exact hno hcreat
      · rw [hempty.resolve_right hkeeps, Option.getD_none]
      · obtain ⟨contents, hcontents⟩ := Option.ne_none_iff_exists'.mp hfile
        rw [hcontents, Option.getD_some]
  · have hright : (call.Has oCreat → call.Has oExcl →
        call.Has oTrunc ∧ call.Writes ∧ run.state.volume (call.file follow) = none) ∧
        (call.Has oAppend → ¬call.Writes) :=
      ⟨fun hno ↦ absurd hno hcreat, fun hno ↦ absurd hno happend⟩
    obtain ⟨habsent, hpresent⟩ :=
      @fOpen_openExisting _ _ run.state.volume (call.file follow) _ hisAccess
    by_cases hfile : run.state.volume (call.file follow) = none
    · rw [hrun.openRight_none hroom haccepted (habsent hfile), hposix]
      exact iff_of_true (.inr ⟨hcreat, hfile⟩) hright
    · obtain ⟨fil, hopen, hfil⟩ := hpresent hfile
      rw [hrun.openRight_some hroom haccepted hwrites hopen hfil, hposix]
      refine iff_of_true ⟨?_, fun hempty ↦ ?_, fun _ _ ↦ rfl, hright.2⟩ hright
      · rintro (⟨hno, -, -⟩ | ⟨-, hno⟩)
        · exact hcreat hno
        · exact hfile hno
      · exact absurd hempty (not_or.mpr ⟨hfile, fun hboth ↦ htrunc hboth.1⟩)

end Right

/-- A card without files. -/
def emptyVolume : Volume (List UInt8) := fun _ ↦ none

/-- An open of `a` that creates it. -/
def creation : OpenCall := ⟨0, [0x61], oCreat ||| oWronly, 0, true⟩

/-- An open of `a` for writing. -/
def reopening : OpenCall := ⟨0, [0x61], oWronly, 0, true⟩

/-- The file is created and written, and then it is opened again. -/
theorem openRight_iff_reopening :
    ∃ run outcome, runEvents (mmcStep id) (.start emptyVolume)
        [.open creation, .file 0 (.write [1, 2] 2)] = some run ∧
      mmcfsOpenR id reopening run.state.volume run.state.table = some outcome ∧
      OpenRight id reopening run.state outcome := by
  have hisSome : (runEvents (mmcStep id) (.start emptyVolume)
      [.open creation, .file 0 (.write [1, 2] 2)]).isSome = true := rfl
  obtain ⟨run, hrun⟩ := Option.isSome_iff_exists.mp hisSome
  have hreach : (mmcSystem id).Reachable run :=
    reachableUnder_of_runEvents (fun _ _ _ hstep ↦ hstep) _ (.start ⟨emptyVolume, rfl⟩)
      (fun _ _ _ ↦ trivial) hrun
  have hnoCreat : ¬reopening.Has oCreat := by
    unfold OpenCall.Has
    decide
  have hnoAppend : ¬reopening.Has oAppend := by
    unfold OpenCall.Has
    decide
  have haccepted : mmcMode reopening.flags = some (faOpenExisting ||| faWrite) := rfl
  obtain ⟨outcome, hopen, hright⟩ := (openRight_iff hreach haccepted).mpr
    (.inr ⟨fun hcreat ↦ absurd hcreat hnoCreat, fun happend ↦ absurd happend hnoAppend⟩)
  exact ⟨run, outcome, hrun, hopen, hright⟩

/-- An open of `a` that creates it exclusively. -/
def exclusiveCreation : OpenCall := ⟨0, [0x61], oCreat ||| oExcl ||| oWronly, 0, true⟩

/-- An exclusive creation of a file that does not exist fails. -/
theorem not_openRight_exclusiveCreation :
    (mmcSystem id).Reachable (MmcRun.start emptyVolume) ∧
      mmcMode exclusiveCreation.flags = some (faOpenExisting ||| faWrite) ∧
      ¬∃ outcome, mmcfsOpenR id exclusiveCreation emptyVolume
        (MmcRun.start emptyVolume).state.table = some outcome ∧
          OpenRight id exclusiveCreation (MmcRun.start emptyVolume).state outcome := by
  refine ⟨.start ⟨emptyVolume, rfl⟩, rfl, ?_⟩
  rintro ⟨outcome, houtcome, hright⟩
  have hfailed : mmcfsOpenR id exclusiveCreation emptyVolume
      (MmcRun.start emptyVolume).state.table =
        some ⟨.error .enoent, (MmcRun.start emptyVolume).state.table, emptyVolume⟩ := rfl
  have hposix := (openRight_error (Option.some.inj (houtcome.symm.trans hfailed))).mp hright
  rcases hposix with hfull | hmemory | ⟨-, -, hpresent⟩ | ⟨habsent, -⟩
  · exact absurd hfull (by decide)
  · cases hmemory
  · exact hpresent rfl
  · exact habsent rfl

end Elua.Mmcfs
