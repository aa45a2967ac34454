import Elua.Devman.Registry
import Elua.Foundation.TransitionSystem
import Mathlib.Algebra.Group.Int.Defs
import Mathlib.Algebra.Group.Nat.Defs

/-!
# Descriptors and directory handles of the device manager

A descriptor is the index of a device in the table and a file number packed into 15 bits, a
directory handle holds an index. `dmSystem` runs the calls of `stubs.c` and `devman.c` on them, with
devices registered and unregistered in between; what a device function returns is part of the event.
Beside the descriptors and handles the state records which instance returned each, and which file
number.

`RoutesRight` says that every call on an open descriptor or handle goes to the instance that
returned it, with what that instance returned, or fails. Unregistering a device moves the later ones
up, so it needs a condition on the runs (`KeepsRoutes`), under which it holds in every state reached
(`routesRight_of_keepsRoutes`). -/

set_option autoImplicit false
set_option relaxedAutoImplicit false

namespace Elua.Devman

open Foundation TransitionSystem

/-! ### Descriptors -/

/-- The bits of a descriptor that hold the file number. -/
def dmFdBits : ℕ := 15 - dmMaxDevicesBits

/-- `DM_MAKE_DESC`. -/
def dmMakeDesc (devid fd : ℕ) : ℕ := devid <<< dmFdBits ||| fd

/-- `DM_GET_DEVID`. -/
def dmGetDevid (desc : ℕ) : ℕ := desc >>> dmFdBits

/-- `DM_GET_FD`. -/
def dmGetFd (desc : ℕ) : ℕ := desc &&& (1 <<< dmFdBits - 1)

theorem dmMakeDesc_eq {devid fd : ℕ} (hfd : fd < 2 ^ dmFdBits) :
    dmMakeDesc devid fd = devid * 2 ^ dmFdBits + fd := by
  rw [dmMakeDesc, ← Nat.shiftLeft_add_eq_or_of_lt hfd, Nat.shiftLeft_eq]

theorem dmGetDevid_dmMakeDesc {devid fd : ℕ} (hfd : fd < 2 ^ dmFdBits) :
    dmGetDevid (dmMakeDesc devid fd) = devid := by
  rw [dmMakeDesc_eq hfd, dmGetDevid, Nat.shiftRight_eq_div_pow, Nat.mul_comm,
    Nat.mul_add_div (Nat.two_pow_pos _), Nat.div_eq_of_lt hfd, Nat.add_zero]

theorem dmGetFd_dmMakeDesc {devid fd : ℕ} (hfd : fd < 2 ^ dmFdBits) :
    dmGetFd (dmMakeDesc devid fd) = fd := by
  rw [dmMakeDesc_eq hfd, dmGetFd, Nat.one_shiftLeft, Nat.and_two_pow_sub_one_eq_mod,
    Nat.mul_add_mod_of_lt hfd]

/-! ### Calls -/

/-- The error numbers of the calls. -/
inductive Errno
  | enodev | enosys | ebadf | enomem
  deriving DecidableEq, Repr

/-- What a call comes to: a function of a device with its argument and the data of the instance, an
error number, or an access through a null pointer. -/
inductive Outcome (Pdata Function Argument : Type*)
  | called (function : Function) (argument : Argument) (pdata : Pdata)
  | failed (errno : Errno)
  | faulted

/-- `DM_DIR`. -/
structure DmDir (Userdata : Type*) where
  devid : ℕ
  userdata : Userdata
  deriving DecidableEq

section Calls

variable {Pdata Function Userdata : Type*} (table : DmList Pdata Function)

/-- A call on a descriptor. The instance is used without a test for `NULL`. -/
def descriptorCall (op : DmOp) (file : ℕ) : Outcome Pdata Function ℕ :=
  match dmGetInstanceAt table (dmGetDevid file) with
  | none => .faulted
  | some pinst =>
    match pinst.pdev op with
    | none => .failed .enosys
    | some function => .called function (dmGetFd file) pinst.pdata

/-- `_close_r`. -/
def closeR (file : ℕ) : Outcome Pdata Function ℕ := descriptorCall table .close file

/-- `_lseek_r`. -/
def lseekR (file : ℕ) : Outcome Pdata Function ℕ := descriptorCall table .lseek file

/-- `_read_r`. -/
def readR (file : ℕ) : Outcome Pdata Function ℕ := descriptorCall table .read file

/-- `_write_r`. -/
def writeR (file : ℕ) : Outcome Pdata Function ℕ := descriptorCall table .write file

/-- `dm_getaddr`, the one call on a descriptor that tests the instance for `NULL`. -/
def dmGetaddr (file : ℕ) : Outcome Pdata Function ℕ :=
  match dmGetInstanceAt table (dmGetDevid file) with
  | none => .failed .enosys
  | some pinst =>
    match pinst.pdev .getaddr with
    | none => .failed .enosys
    | some function => .called function (dmGetFd file) pinst.pdata

/-- `_open_r`, where `pOpen` is what the function of a device returns for a path: the result, with
the instance whose function was called. -/
def openR (name : CString) (pOpen : Function → List UInt8 → Pdata → ℤ) :
    Except Errno (ℤ × DmInstanceData Pdata Function) :=
  match findDmEntry table name with
  | none => .error .enodev
  | some (devid, actname) =>
    match dmGetInstanceAt table devid with
    | none => .error .enodev
    | some pinst =>
      match pinst.pdev .open with
      | none => .error .enosys
      | some function =>
        let res := pOpen function actname pinst.pdata
        if res < 0 then .ok (res, pinst) else .ok (dmMakeDesc devid res.toNat, pinst)

/-- `dm_opendir` up to the call of the device: the index and the instance of the device, its
function, and the path the function gets. -/
def dmOpendirTarget (dirname : CString) :
    Except Errno (ℕ × DmInstanceData Pdata Function × Function × List UInt8) :=
  match dmDeviceIdFromName table dirname with
  | .error _ => .error .enosys
  | .ok (pos, rest) =>
    match dmGetInstanceAt table pos with
    | none => .error .enosys
    | some pinst =>
      match pinst.pdev .opendir with
      | none => .error .enosys
      | some function => .ok (pos, pinst, function, rest)

/-- `dm_opendir`, where `pOpendir` is what the function of a device returns for a path, and `malloc`
succeeds or not: the handle, with the instance whose function was called. -/
def dmOpendir (dirname : CString) (pOpendir : Function → List UInt8 → Pdata → Option Userdata)
    (allocated : Bool) : Except Errno (Option (DmDir Userdata × DmInstanceData Pdata Function)) :=
  match dmOpendirTarget table dirname with
  | .error errno => .error errno
  | .ok (pos, pinst, function, rest) =>
    match pOpendir function rest pinst.pdata with
    | none => .ok none
    | some data => if allocated then .ok (some (⟨pos, data⟩, pinst)) else .error .enomem

/-- `dm_readdir`. -/
def dmReaddir (d : DmDir Userdata) : Outcome Pdata Function Userdata :=
  match dmGetInstanceAt table d.devid with
  | none => .failed .ebadf
  | some pinst =>
    match pinst.pdev .readdir with
    | none => .failed .ebadf
    | some function => .called function d.userdata pinst.pdata

/-- `dm_closedir`, with whether it frees the handle. -/
def dmClosedir (d : DmDir Userdata) : Outcome Pdata Function Userdata × Bool :=
  match dmGetInstanceAt table d.devid with
  | none => (.failed .ebadf, false)
  | some pinst =>
    match pinst.pdev .closedir with
    | none => (.failed .ebadf, true)
    | some function => (.called function d.userdata pinst.pdata, true)

end Calls

/-! ### Runs -/

/-- An open descriptor, with the instance and the file number that `open` got it from. -/
structure OpenFile (Pdata Function : Type*) where
  desc : ℕ
  inst : DmInstanceData Pdata Function
  fd : ℕ

/-- An open directory handle, with the instance that `dm_opendir` got it from. -/
structure OpenDir (Pdata Function Userdata : Type*) where
  dir : DmDir Userdata
  inst : DmInstanceData Pdata Function

/-- The device table and what is open. -/
structure DmWorld (Pdata Function Userdata : Type*) where
  table : DmList Pdata Function
  files : List (OpenFile Pdata Function)
  dirs : List (OpenDir Pdata Function Userdata)

/-- A call. Open descriptors and handles are given by their place in the lists of those open. The
arguments `res`, `data` and `allocated` are what the function of the device and `malloc` return. -/
inductive DmEvent (Pdata Function Userdata : Type*)
  | register (name : Option CString) (pdata : Pdata) (pdev : Option (DmOp → Option Function))
  | unregister (name : Option CString)
  | open (name : CString) (res : ℤ)
  | read (index : ℕ)
  | write (index : ℕ)
  | lseek (index : ℕ)
  | close (index : ℕ) (res : ℤ)
  | opendir (dirname : CString) (data : Option Userdata) (allocated : Bool)
  | readdir (index : ℕ)
  | closedir (index : ℕ)

variable {Pdata Function Userdata : Type*}

/-- One call. A descriptor is closed when the function of its device says so; reading, writing and
seeking change nothing here. -/
def dmStep (world : DmWorld Pdata Function Userdata) :
    DmEvent Pdata Function Userdata → DmWorld Pdata Function Userdata
  | .register name pdata pdev => { world with table := (dmRegister world.table name pdata pdev).2 }
  | .unregister name => { world with table := (dmUnregister world.table name).2 }
  | .open name res =>
    match openR world.table name (fun _ _ _ ↦ res) with
    | .error _ => world
    | .ok (desc, pinst) =>
      if desc < 0 then world
      else { world with files := world.files ++ [⟨desc.toNat, pinst, res.toNat⟩] }
  | .read _ | .write _ | .lseek _ | .readdir _ => world
  | .close index res =>
    match world.files[index]? with
    | none => world
    | some file =>
      match closeR world.table file.desc with
      | .called .. =>
        if res = 0 then { world with files := world.files.eraseIdx index } else world
      | _ => world
  | .opendir dirname data allocated =>
    match dmOpendir world.table dirname (fun _ _ _ ↦ data) allocated with
    | .ok (some (dir, pinst)) => { world with dirs := world.dirs ++ [⟨dir, pinst⟩] }
    | _ => world
  | .closedir index =>
    match world.dirs[index]? with
    | none => world
    | some d =>
      if (dmClosedir world.table d.dir).2 then { world with dirs := world.dirs.eraseIdx index }
      else world

/-- The runs of the device manager, from an empty table. -/
def dmSystem (Pdata Function Userdata : Type*) :
    TransitionSystem (DmWorld Pdata Function Userdata) (DmEvent Pdata Function Userdata) where
  initial := fun world ↦ world = ⟨.empty, [], []⟩
  step := fun world event after ↦ dmStep world event = after

/-! ### What descriptors are for -/

/-- The call goes to the function of the instance, with the argument, or fails. -/
def Reaches {Argument : Type*} (inst : DmInstanceData Pdata Function) (op : DmOp)
    (argument : Argument) (outcome : Outcome Pdata Function Argument) : Prop :=
  (∃ function, inst.pdev op = some function ∧ outcome = .called function argument inst.pdata) ∨
    ∃ errno, outcome = .failed errno

/-- Every call on an open descriptor or handle goes to the instance that returned it, with what that
instance returned, or fails; distinct open files have distinct descriptors. -/
structure RoutesRight (world : DmWorld Pdata Function Userdata) : Prop where
  read : ∀ file ∈ world.files, Reaches file.inst .read file.fd (readR world.table file.desc)
  write : ∀ file ∈ world.files, Reaches file.inst .write file.fd (writeR world.table file.desc)
  lseek : ∀ file ∈ world.files, Reaches file.inst .lseek file.fd (lseekR world.table file.desc)
  close : ∀ file ∈ world.files, Reaches file.inst .close file.fd (closeR world.table file.desc)
  getaddr : ∀ file ∈ world.files,
    Reaches file.inst .getaddr file.fd (dmGetaddr world.table file.desc)
  readdir : ∀ d ∈ world.dirs,
    Reaches d.inst .readdir d.dir.userdata (dmReaddir world.table d.dir)
  closedir : ∀ d ∈ world.dirs,
    Reaches d.inst .closedir d.dir.userdata (dmClosedir world.table d.dir).1
  distinct : ∀ first ∈ world.files, ∀ second ∈ world.files, first.desc = second.desc →
    first.inst = second.inst ∧ first.fd = second.fd

/-- What keeps the routes: devices return file numbers of 11 bits; a device is unregistered only
while no descriptor belongs to it or to a later device, and no directory handle either, unless the
handle's index is the last one (it then refers to no device); and nothing is registered while a
handle refers to no device. -/
def KeepsRoutes (world : DmWorld Pdata Function Userdata) :
    DmEvent Pdata Function Userdata → Prop
  | .open _ res => res < 2 ^ dmFdBits
  | .unregister name => ∀ i dev, world.table.devs[i]? = some dev →
      (∃ string, name = some string ∧ dev.named string.bytes = true) →
      (∀ file ∈ world.files, dmGetDevid file.desc < i) ∧
        ∀ d ∈ world.dirs, d.dir.devid < i ∨ world.table.devs.length ≤ d.dir.devid + 1
  | .register name pdata pdev => ∀ index, (dmRegister world.table name pdata pdev).1 = .ok index →
      ∀ d ∈ world.dirs, d.dir.devid < world.table.devs.length
  | _ => True

/-! ### What the calls do -/

/-- What `dm_register` can do to the table. -/
theorem dmRegister_cases (table : DmList Pdata Function) (name : Option CString) (pdata : Pdata)
    (pdev : Option (DmOp → Option Function)) :
    (dmRegister table name pdata pdev).2 = table ∨
      (∃ index, (dmRegister table name pdata pdev).1 = .ok index) ∧
        ∃ dev, (dmRegister table name pdata pdev).2.devs = table.devs ++ [dev] := by
  unfold dmRegister
  split
  · exact .inl rfl
  · exact .inl rfl
  · split_ifs
    · exact .inr ⟨⟨_, rfl⟩, _, rfl⟩
    · exact .inl rfl
    · exact .inl rfl
    · exact .inl rfl

/-- What `dm_unregister` can do to the table. -/
theorem dmUnregister_cases (table : DmList Pdata Function) (name : Option CString) :
    (dmUnregister table name).2 = table ∨
      ∃ i dev, table.devs[i]? = some dev ∧
        (∃ string, name = some string ∧ dev.named string.bytes = true) ∧
        (dmUnregister table name).2.devs = table.devs.eraseIdx i := by
  cases name with
  | none => exact .inl rfl
  | some name =>
    unfold dmUnregister
    dsimp only
    split_ifs with hname
    · cases hfind : table.devs.findIdx? (·.named name.bytes) with
      | none => exact .inl rfl
      | some i =>
        obtain ⟨hlt, hnamed, -⟩ := List.findIdx?_eq_some_iff_getElem.mp hfind
        exact .inr ⟨i, _, List.getElem?_eq_getElem hlt, ⟨name, rfl, hnamed⟩, rfl⟩
    · exact .inl rfl

/-- A successful open returns the descriptor of the instance whose function it called. -/
theorem openR_ok {table : DmList Pdata Function} {name : CString} {res desc : ℤ}
    {pinst : DmInstanceData Pdata Function}
    (hopen : openR table name (fun _ _ _ ↦ res) = .ok (desc, pinst)) (hdesc : ¬ desc < 0) :
    ∃ devid, table.devs[devid]? = some pinst ∧ desc.toNat = dmMakeDesc devid res.toNat := by
  unfold openR at hopen
  split at hopen
  · cases hopen
  · rename_i devid actname hentry
    split at hopen
    · cases hopen
    · rename_i inst hinst
      split at hopen
      · cases hopen
      · dsimp only at hopen
        split_ifs at hopen with hnegative
        · obtain ⟨rfl, rfl⟩ := Prod.mk.inj (Except.ok.inj hopen)
          exact absurd hnegative hdesc
        · obtain ⟨rfl, rfl⟩ := Prod.mk.inj (Except.ok.inj hopen)
          exact ⟨devid, hinst, Int.toNat_natCast _⟩

/-- A directory handle holds the index of the instance whose function was called. -/
theorem dmOpendir_ok {table : DmList Pdata Function} {dirname : CString}
    {pOpendir : Function → List UInt8 → Pdata → Option Userdata} {allocated : Bool}
    {dir : DmDir Userdata} {pinst : DmInstanceData Pdata Function}
    (hopen : dmOpendir table dirname pOpendir allocated = .ok (some (dir, pinst))) :
    table.devs[dir.devid]? = some pinst := by
  unfold dmOpendir dmOpendirTarget at hopen
  cases hdevice : dmDeviceIdFromName table dirname with
  | error err =>
    rw [hdevice] at hopen
    cases hopen
  | ok found =>
    rw [hdevice] at hopen
    dsimp only at hopen
    cases hinst : dmGetInstanceAt table found.1 with
    | none =>
      rw [hinst] at hopen
      cases hopen
    | some inst =>
      rw [hinst] at hopen
      dsimp only at hopen
      cases hop : inst.pdev .opendir with
      | none =>
        rw [hop] at hopen
        cases hopen
      | some function =>
        rw [hop] at hopen
        dsimp only at hopen
        cases hdata : pOpendir function found.2 inst.pdata with
        | none =>
          rw [hdata] at hopen
          cases hopen
        | some data =>
          rw [hdata] at hopen
          dsimp only at hopen
          split_ifs at hopen
          obtain ⟨rfl, rfl⟩ := Prod.mk.inj (Option.some.inj (Except.ok.inj hopen))
          exact hinst

/-! ### The invariant -/

/-- A file is recorded with the device it belongs to. -/
def FileRouted (table : DmList Pdata Function) (file : OpenFile Pdata Function) : Prop :=
  file.fd < 2 ^ dmFdBits ∧
    ∃ devid, file.desc = dmMakeDesc devid file.fd ∧ table.devs[devid]? = some file.inst

/-- A directory handle belongs to its device, or refers to none. -/
def DirRouted (table : DmList Pdata Function) (d : OpenDir Pdata Function Userdata) : Prop :=
  table.devs[d.dir.devid]? = some d.inst ∨ table.devs.length ≤ d.dir.devid

/-- Everything open is routed. -/
structure Routed (world : DmWorld Pdata Function Userdata) : Prop where
  files : ∀ file ∈ world.files, FileRouted world.table file
  dirs : ∀ d ∈ world.dirs, DirRouted world.table d

/-- A call on a routed descriptor. -/
theorem FileRouted.reaches {table : DmList Pdata Function} {file : OpenFile Pdata Function}
    (hrouted : FileRouted table file) (op : DmOp) :
    Reaches file.inst op file.fd (descriptorCall table op file.desc) := by
  obtain ⟨hfd, devid, hdesc, hinst⟩ := hrouted
  unfold descriptorCall
  rw [hdesc, dmGetDevid_dmMakeDesc hfd, dmGetFd_dmMakeDesc hfd, dmGetInstanceAt, hinst]
  dsimp only
  cases hop : file.inst.pdev op with
  | none => exact .inr ⟨_, rfl⟩
  | some function => exact .inl ⟨function, hop, rfl⟩

/-- In a routed world the calls go where they should. -/
theorem Routed.routesRight {world : DmWorld Pdata Function Userdata} (hrouted : Routed world) :
    RoutesRight world where
  read := fun file hfile ↦ (hrouted.files file hfile).reaches .read
  write := fun file hfile ↦ (hrouted.files file hfile).reaches .write
  lseek := fun file hfile ↦ (hrouted.files file hfile).reaches .lseek
  close := fun file hfile ↦ (hrouted.files file hfile).reaches .close
  getaddr := fun file hfile ↦ by
    obtain ⟨hfd, devid, hdesc, hinst⟩ := hrouted.files file hfile
    unfold dmGetaddr
    rw [hdesc, dmGetDevid_dmMakeDesc hfd, dmGetFd_dmMakeDesc hfd, dmGetInstanceAt, hinst]
    dsimp only
    cases hop : file.inst.pdev .getaddr with
    | none => exact .inr ⟨_, rfl⟩
    | some function => exact .inl ⟨function, hop, rfl⟩
  readdir := fun d hd ↦ by
    unfold dmReaddir dmGetInstanceAt
    obtain hinst | hstale := hrouted.dirs d hd
    · rw [hinst]
      dsimp only
      cases hop : d.inst.pdev .readdir with
      | none => exact .inr ⟨_, rfl⟩
      | some function => exact .inl ⟨function, hop, rfl⟩
    · rw [List.getElem?_eq_none hstale]
      exact .inr ⟨_, rfl⟩
  closedir := fun d hd ↦ by
    unfold dmClosedir dmGetInstanceAt
    obtain hinst | hstale := hrouted.dirs d hd
    · rw [hinst]
      dsimp only
      cases hop : d.inst.pdev .closedir with
      | none => exact .inr ⟨_, rfl⟩
      | some function => exact .inl ⟨function, hop, rfl⟩
    · rw [List.getElem?_eq_none hstale]
      exact .inr ⟨_, rfl⟩
  distinct := fun first hfirst second hsecond hsame ↦ by
    obtain ⟨hfd, devid, hdesc, hinst⟩ := hrouted.files first hfirst
    obtain ⟨hfd', devid', hdesc', hinst'⟩ := hrouted.files second hsecond
    rw [hdesc, hdesc'] at hsame
    have hdevid := congrArg dmGetDevid hsame
    have hnumber := congrArg dmGetFd hsame
    rw [dmGetDevid_dmMakeDesc hfd, dmGetDevid_dmMakeDesc hfd'] at hdevid
    rw [dmGetFd_dmMakeDesc hfd, dmGetFd_dmMakeDesc hfd'] at hnumber
    rw [hdevid, hinst'] at hinst
    exact ⟨(Option.some.inj hinst).symm, hnumber⟩

/-! ### One call -/

/-- A device registered behind the others leaves the routes. -/
theorem Routed.registered {world : DmWorld Pdata Function Userdata} (hrouted : Routed world)
    {table : DmList Pdata Function} {dev : DmInstanceData Pdata Function}
    (hdevs : table.devs = world.table.devs ++ [dev])
    (hcurrent : ∀ d ∈ world.dirs, d.dir.devid < world.table.devs.length) :
    Routed { world with table := table } where
  files := fun file hfile ↦ by
    obtain ⟨hfd, devid, hdesc, hinst⟩ := hrouted.files file hfile
    refine ⟨hfd, devid, hdesc, ?_⟩
    change table.devs[devid]? = some file.inst
    rw [hdevs, List.getElem?_append_left (List.getElem?_eq_some_iff.mp hinst).1]
    exact hinst
  dirs := fun d hd ↦ by
    refine .inl ?_
    change table.devs[d.dir.devid]? = some d.inst
    rw [hdevs, List.getElem?_append_left (hcurrent d hd)]
    exact (hrouted.dirs d hd).resolve_right (Nat.not_le_of_lt (hcurrent d hd))

/-- A device taken out leaves the routes to the devices before it. -/
theorem Routed.unregistered {world : DmWorld Pdata Function Userdata} (hrouted : Routed world)
    {table : DmList Pdata Function} {i : ℕ} (hi : i < world.table.devs.length)
    (hdevs : table.devs = world.table.devs.eraseIdx i)
    (hfiles : ∀ file ∈ world.files, dmGetDevid file.desc < i)
    (hdirs : ∀ d ∈ world.dirs,
      d.dir.devid < i ∨ world.table.devs.length ≤ d.dir.devid + 1) :
    Routed { world with table := table } where
  files := fun file hfile ↦ by
    obtain ⟨hfd, devid, hdesc, hinst⟩ := hrouted.files file hfile
    have hlt := hfiles file hfile
    rw [hdesc, dmGetDevid_dmMakeDesc hfd] at hlt
    refine ⟨hfd, devid, hdesc, ?_⟩
    change table.devs[devid]? = some file.inst
    rw [hdevs, List.getElem?_eraseIdx_of_lt hlt]
    exact hinst
  dirs := fun d hd ↦ by
    have hlength : table.devs.length + 1 = world.table.devs.length := by
      rw [hdevs, List.length_eraseIdx_of_lt hi]
      omega
    obtain hlt | hlast := hdirs d hd
    · refine (hrouted.dirs d hd).imp (fun hinst ↦ ?_) fun hstale ↦ ?_
      · change table.devs[d.dir.devid]? = some d.inst
        rw [hdevs, List.getElem?_eraseIdx_of_lt hlt]
        exact hinst
      · omega
    · refine .inr ?_
      change table.devs.length ≤ d.dir.devid
      omega

/-- Closing leaves the routes of the others. -/
theorem Routed.sublists {world : DmWorld Pdata Function Userdata} (hrouted : Routed world)
    {files : List (OpenFile Pdata Function)} {dirs : List (OpenDir Pdata Function Userdata)}
    (hfiles : files ⊆ world.files) (hdirs : dirs ⊆ world.dirs) :
    Routed { world with files := files, dirs := dirs } where
  files := fun file hfile ↦ hrouted.files file (hfiles hfile)
  dirs := fun d hd ↦ hrouted.dirs d (hdirs hd)

theorem Routed.step {world : DmWorld Pdata Function Userdata} (hrouted : Routed world)
    (event : DmEvent Pdata Function Userdata) (hkeeps : KeepsRoutes world event) :
    Routed (dmStep world event) := by
  cases event with
  | register name pdata pdev =>
    unfold dmStep
    dsimp only
    obtain hsame | ⟨⟨index, hok⟩, dev, hdevs⟩ := dmRegister_cases world.table name pdata pdev
    · rw [hsame]
      exact hrouted
    · exact hrouted.registered hdevs (hkeeps index hok)
  | unregister name =>
    unfold dmStep
    dsimp only
    obtain hsame | ⟨i, dev, hi, hnamed, hdevs⟩ := dmUnregister_cases world.table name
    · rw [hsame]
      exact hrouted
    · obtain ⟨hfiles, hdirs⟩ := hkeeps i dev hi hnamed
      exact hrouted.unregistered (List.getElem?_eq_some_iff.mp hi).1 hdevs hfiles hdirs
  | «open» name res =>
    unfold dmStep
    dsimp only
    split
    · exact hrouted
    · rename_i desc pinst hopen
      split_ifs with hdesc
      · exact hrouted
      · obtain ⟨devid, hinst, hmake⟩ := openR_ok hopen hdesc
        have hfd : res.toNat < 2 ^ dmFdBits := by
          change res < 2 ^ 11 at hkeeps
          change res.toNat < 2 ^ 11
          omega
        exact ⟨List.forall_mem_append.mpr ⟨hrouted.files,
          List.forall_mem_singleton.mpr ⟨hfd, devid, hmake, hinst⟩⟩, hrouted.dirs⟩
  | read index => exact hrouted
  | write index => exact hrouted
  | lseek index => exact hrouted
  | close index res =>
    unfold dmStep
    dsimp only
    split
    · exact hrouted
    · split
      · split_ifs
        · exact hrouted.sublists (List.eraseIdx_subset) (List.Subset.refl _)
        · exact hrouted
      · exact hrouted
  | opendir dirname data allocated =>
    unfold dmStep
    dsimp only
    split
    · rename_i dir pinst hopen
      exact ⟨hrouted.files, List.forall_mem_append.mpr ⟨hrouted.dirs,
        List.forall_mem_singleton.mpr (.inl (dmOpendir_ok hopen))⟩⟩
    · exact hrouted
  | readdir index => exact hrouted
  | closedir index =>
    unfold dmStep
    dsimp only
    split
    · exact hrouted
    · split_ifs
      · exact hrouted.sublists (List.Subset.refl _) (List.eraseIdx_subset)
      · exact hrouted

/-! ### Runs -/

/-- In every run whose events keep the routes, every call on an open descriptor or directory handle
goes to the instance that returned it, with what it returned, or fails, and distinct open files have
distinct descriptors. -/
theorem routesRight_of_keepsRoutes {world : DmWorld Pdata Function Userdata}
    (hreach : (dmSystem Pdata Function Userdata).ReachableUnder KeepsRoutes world) :
    RoutesRight world := by
  refine Routed.routesRight (hreach.invariant Routed ?_ ?_)
  · rintro _ rfl
    exact ⟨fun _ hmem ↦ absurd hmem List.not_mem_nil, fun _ hmem ↦ absurd hmem List.not_mem_nil⟩
  · rintro state event _ hrouted hkeeps rfl
    exact hrouted.step event hkeeps

theorem reachableUnder_initial (permitted : DmWorld Pdata Function Userdata →
    DmEvent Pdata Function Userdata → Prop) :
    (dmSystem Pdata Function Userdata).ReachableUnder permitted ⟨.empty, [], []⟩ := .start rfl

theorem reachableUnder_dmStep {permitted : DmWorld Pdata Function Userdata →
      DmEvent Pdata Function Userdata → Prop} {world : DmWorld Pdata Function Userdata}
    (hreach : (dmSystem Pdata Function Userdata).ReachableUnder permitted world)
    (event : DmEvent Pdata Function Userdata) (hpermitted : permitted world event) :
    (dmSystem Pdata Function Userdata).ReachableUnder permitted (dmStep world event) :=
  hreach.andThen event hpermitted rfl

/-- Two devices "/a" and "/b" that have every function: a file is open on "/a" as number 5, and "/b"
is unregistered. -/
theorem routesRight_one_device_left :
    let register (name : CString) : DmEvent Unit Unit Unit :=
      .register (some name) () (some fun _ ↦ some ())
    let registered := dmStep (dmStep ⟨.empty, [], []⟩ (register ⟨[0x2F, 0x61], by decide⟩))
      (register ⟨[0x2F, 0x62], by decide⟩)
    let opened := dmStep registered (.open ⟨[0x2F, 0x61, 0x2F, 0x78], by decide⟩ 5)
    let left := dmStep opened (.unregister (some ⟨[0x2F, 0x62], by decide⟩))
    left.files.map (·.desc) = [5] ∧ left.table.devs.length = 1 ∧ RoutesRight left := by
  intro register registered opened left
  have hregistered : (dmSystem Unit Unit Unit).ReachableUnder KeepsRoutes registered :=
    reachableUnder_dmStep (reachableUnder_dmStep (reachableUnder_initial _) _
      fun _ _ _ hmem ↦ absurd hmem List.not_mem_nil) _
      fun _ _ _ hmem ↦ absurd hmem List.not_mem_nil
  have hopened : (dmSystem Unit Unit Unit).ReachableUnder KeepsRoutes opened :=
    reachableUnder_dmStep hregistered _ (show (5 : ℤ) < 2 ^ dmFdBits by decide)
  refine ⟨rfl, rfl, routesRight_of_keepsRoutes (reachableUnder_dmStep hopened _ ?_)⟩
  rintro i dev hdev ⟨string, heq, hnamed⟩
  obtain rfl := Option.some.inj heq
  cases i with
  | zero =>
    obtain rfl := Option.some.inj hdev
    exact absurd hnamed (by decide)
  | succ i =>
    refine ⟨fun file hfile ↦ ?_, fun d hmem ↦ absurd hmem List.not_mem_nil⟩
    obtain rfl := List.mem_singleton.mp hfile
    exact Nat.succ_pos i

/-- With a file open on "/b", unregistering "/a" leaves a descriptor whose device index is out of
the table: reading from it goes through a null pointer. -/
theorem unregistering_loses_descriptors :
    ¬ ∀ world : DmWorld Unit Unit Unit,
      (dmSystem Unit Unit Unit).Reachable world → RoutesRight world := by
  intro hall
  let register (name : CString) : DmEvent Unit Unit Unit :=
    .register (some name) () (some fun _ ↦ some ())
  have hfirst := reachableUnder_dmStep (reachableUnder_initial fun _ _ ↦ True)
    (register ⟨[0x2F, 0x61], by decide⟩) trivial
  have hsecond := reachableUnder_dmStep hfirst (register ⟨[0x2F, 0x62], by decide⟩) trivial
  have hopened := reachableUnder_dmStep hsecond
    (.open ⟨[0x2F, 0x62, 0x2F, 0x78], by decide⟩ 0) trivial
  have hroutes := hall _ (reachableUnder_dmStep hopened
    (.unregister (some ⟨[0x2F, 0x61], by decide⟩)) trivial)
  obtain ⟨function, -, hcalled⟩ | ⟨errno, hfailed⟩ := hroutes.read _ List.mem_cons_self
  · cases hcalled
  · cases hfailed

end Elua.Devman
