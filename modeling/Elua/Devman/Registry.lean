import Elua.Foundation.CString

/-!
# The device manager and its two path resolvers

The table of devices of `devman.c`. `DmList` is the table with what every registration checks: the
number of devices, the form of their names, and that no two names agree up to case, so a table that
breaks one of these cannot be built. `dmRegister` and `dmUnregister` are the only ways to change it.

A path is resolved in two places. `findDmEntry` (`stubs.c`, for `open` and the other calls on files)
splits off the first component and compares it with the device names. `dmDeviceIdFromName`
(`devman.c`, for `dm_opendir`) looks for the longest device name that begins the path.
-/

set_option autoImplicit false
set_option relaxedAutoImplicit false

namespace Elua.Devman

open Foundation

/-! ### Devices -/

/-- `DM_MAX_DEVICES`. -/
def dmMaxDevices : ℕ := 16

/-- `DM_MAX_DEVICES_BITS`. -/
def dmMaxDevicesBits : ℕ := 4

/-- `DM_MAX_DEV_NAME`. -/
def dmMaxDevName : ℕ := 12

/-- The byte between the components of a path. -/
def slash : UInt8 := 0x2F

/-- The functions a device may have. -/
inductive DmOp
  | open | close | write | read | lseek | opendir | readdir | closedir | getaddr
  deriving DecidableEq, Repr

/-- `DM_INSTANCE_DATA`: a name, the data of the instance, and the functions of its device, where a
function that is not implemented is `none`. -/
structure DmInstanceData (Pdata Function : Type*) where
  name : CString
  pdata : Pdata
  pdev : DmOp → Option Function

/-- The errors of the device manager. -/
inductive DmErr
  | alreadyRegistered | notRegistered | noSpace | invalidName | noDevice | invalidOps
  deriving DecidableEq, Repr

/-- Two instances have the same name. -/
def DmInstanceData.named {Pdata Function : Type*} (dev : DmInstanceData Pdata Function)
    (name : List UInt8) : Bool :=
  strcasecmp name dev.name.bytes = 0

/-- The table `dm_list` with its number of devices. -/
structure DmList (Pdata Function : Type*) where
  devs : List (DmInstanceData Pdata Function)
  length_le : devs.length ≤ dmMaxDevices
  name_head : ∀ dev ∈ devs, dev.name.bytes.head? = some slash
  name_length : ∀ dev ∈ devs, dev.name.strlen ≤ dmMaxDevName
  distinct : devs.Pairwise fun first second ↦
    folded first.name.bytes ≠ folded second.name.bytes

section Operations

variable {Pdata Function : Type*}

theorem DmInstanceData.named_iff {dev : DmInstanceData Pdata Function} {name : List UInt8}
    (hname : (0 : UInt8) ∉ name) : dev.named name = true ↔ folded name = folded dev.name.bytes := by
  rw [named, decide_eq_true_eq, strcasecmp_eq_zero_iff hname dev.name.zero_notMem]

/-- The table at the start. -/
def DmList.empty : DmList Pdata Function where
  devs := []
  length_le := Nat.zero_le _
  name_head := fun _ hmem ↦ absurd hmem List.not_mem_nil
  name_length := fun _ hmem ↦ absurd hmem List.not_mem_nil
  distinct := .nil

/-- A device behind the others, under a name that `dm_register` has checked. -/
def DmList.push (table : DmList Pdata Function) (dev : DmInstanceData Pdata Function)
    (hhead : dev.name.bytes.head? = some slash) (hlength : dev.name.strlen ≤ dmMaxDevName)
    (hnew : ∀ other ∈ table.devs, other.named dev.name.bytes = false)
    (hroom : table.devs.length < dmMaxDevices) : DmList Pdata Function where
  devs := table.devs ++ [dev]
  length_le := by
    rw [List.length_append]
    exact hroom
  name_head := List.forall_mem_append.mpr ⟨table.name_head, List.forall_mem_singleton.mpr hhead⟩
  name_length :=
    List.forall_mem_append.mpr ⟨table.name_length, List.forall_mem_singleton.mpr hlength⟩
  distinct := by
    refine List.pairwise_append.mpr ⟨table.distinct, List.pairwise_singleton _ _, ?_⟩
    intro other hother last hlast hsame
    rw [List.mem_singleton.mp hlast] at hsame
    have hnamed := (DmInstanceData.named_iff dev.name.zero_notMem).mpr hsame.symm
    rw [hnew other hother] at hnamed
    exact Bool.false_ne_true hnamed

/-- A device taken out, the ones behind it moved up. -/
def DmList.remove (table : DmList Pdata Function) (i : ℕ) : DmList Pdata Function where
  devs := table.devs.eraseIdx i
  length_le := Nat.le_trans (List.length_eraseIdx_le ..) table.length_le
  name_head := fun dev hmem ↦ table.name_head dev (List.mem_of_mem_eraseIdx hmem)
  name_length := fun dev hmem ↦ table.name_length dev (List.mem_of_mem_eraseIdx hmem)
  distinct := table.distinct.sublist (List.eraseIdx_sublist ..)

/-- `dm_register`: the index of the device in the table, or an error. `NULL` is `none`. -/
def dmRegister (table : DmList Pdata Function) (name : Option CString) (pdata : Pdata)
    (pdev : Option (DmOp → Option Function)) : Except DmErr ℕ × DmList Pdata Function :=
  match pdev, name with
  | none, _ => (.error .invalidOps, table)
  | some _, none => (.error .invalidName, table)
  | some pdev, some name =>
    if hname : name.bytes.head? = some slash ∧ name.strlen ≤ dmMaxDevName then
      if hnew : ∀ dev ∈ table.devs, dev.named name.bytes = false then
        if hroom : table.devs.length < dmMaxDevices then
          (.ok table.devs.length, table.push ⟨name, pdata, pdev⟩ hname.1 hname.2 hnew hroom)
        else (.error .noSpace, table)
      else (.error .alreadyRegistered, table)
    else (.error .invalidName, table)

/-- `dm_unregister`. -/
def dmUnregister (table : DmList Pdata Function) (name : Option CString) :
    Except DmErr Unit × DmList Pdata Function :=
  match name with
  | none => (.error .invalidName, table)
  | some name =>
    if name.bytes.head? = some slash ∧ name.strlen ≤ dmMaxDevName then
      match table.devs.findIdx? (·.named name.bytes) with
      | none => (.error .notRegistered, table)
      | some i => (.ok (), table.remove i)
    else (.error .invalidName, table)

/-- `dm_get_instance_at`. -/
def dmGetInstanceAt (table : DmList Pdata Function) (idx : ℕ) :
    Option (DmInstanceData Pdata Function) := table.devs[idx]?

/-! ### Resolving a path -/

/-- `find_dm_entry`: the index of the device that a path names, with the path behind the device. -/
def findDmEntry (table : DmList Pdata Function) (name : CString) : Option (ℕ × List UInt8) := do
  guard (name.bytes.head? = some slash)
  -- with no second slash the path is looked up on the device "/"
  let (tempname, preal) ← match name.bytes.tail.idxOf? slash with
    | none => some ([slash], 0)
    | some offset =>
      if dmMaxDevName < offset + 1 ∨ offset + 1 = 1 then none
      else some (name.bytes.take (offset + 1), offset + 1)
  let i ← table.devs.findIdx? (·.named tempname)
  let actname := name.bytes.drop (preal + 1)
  guard (actname ≠ [])
  return (i, actname)

/-- The search of `dm_device_id_from_name` from device `i` on, with the best position and the length
of its name so far. -/
def deviceIdLoop (name : List UInt8) :
    List (DmInstanceData Pdata Function) → ℕ → ℕ → ℕ → ℕ × ℕ
  | [], _, pos, matchlen => (pos, matchlen)
  | dev :: devs, i, pos, matchlen =>
    if strncasecmp dev.name.strlen name dev.name.bytes = 0 ∧ matchlen < dev.name.strlen then
      deviceIdLoop name devs (i + 1) i dev.name.strlen
    else deviceIdLoop name devs (i + 1) pos matchlen

/-- `dm_device_id_from_name`: the index of the device with the longest name that begins the path,
with the path behind that name. -/
def dmDeviceIdFromName (table : DmList Pdata Function) (name : CString) :
    Except DmErr (ℕ × List UInt8) :=
  let (pos, matchlen) := deviceIdLoop name.bytes table.devs 0 0 0
  if matchlen = 0 then .error .noDevice
  else .ok (pos, name.bytes.drop matchlen)

end Operations

end Elua.Devman
