import Elua.Flash.Sectors
import Elua.Romfs.LogRefinement

/-!
# Formatting the internal flash

On real hardware a WOFS lies behind the program in the internal flash. `wofs_format` erases the
sectors from the first free one to that of the end of the last file, which it finds by looking up
the name that no file should have; what lies behind is erased already.

`FormatRight` says that a format which reports success has erased the file system and nothing else.
The variable `sect_last` is only set by a lookup that fails, so whatever it holds otherwise, a
format of a closed file system is right exactly if no file has the reserved name
(`formatRight_iff`). Runs are of orderly calls and of formats that succeed. -/

set_option autoImplicit false
set_option relaxedAutoImplicit false

namespace Elua.Romfs

open Foundation TransitionSystem Flash

/-! ### The code -/

/-- `platform_flash_erase_sector`: whether it returns `PLATFORM_OK`, and the flash that it
leaves. -/
abbrev EraseSector := ℕ → List UInt8 → Bool × List UInt8

/-- Whether a format returns 1, the flash that it leaves, and the sectors that it has the platform
erase. -/
structure FormatOutcome where
  ok : Bool
  flash : List UInt8
  attempted : List ℕ
  deriving DecidableEq

/-- The loop of `wofs_format`, over the numbers from `sect_first` to `sect_last`. -/
def eraseSectors (erase : EraseSector) : List ℕ → List UInt8 → FormatOutcome
  | [], flash => ⟨true, flash, []⟩
  | sect :: sects, flash =>
    let done := erase sect flash
    if done.1 then
      let rest := eraseSectors erase sects done.2
      { rest with attempted := sect :: rest.attempted }
    else ⟨false, done.2, [sect]⟩

/-- `wofs_fsdata.pbase`. -/
def wofsBase (chip : InternalFlash) : ℕ := (platformFlashGetFirstFreeBlockAddress chip).1

/-- `wofs_fsdata.max_size`. -/
def wofsMaxSize (chip : InternalFlash) : ℕ :=
  sub32 chip.sizes.sum (sub32 (wofsBase chip) chip.startAddress)

/-- `wofs_format`, where the flash holds `program` in front of the file system. `sect_last` holds
`junk` unless the lookup sets it. A sector has more than one byte, so its number does not wrap. -/
def wofsFormat (fuel : ℕ) (chip : InternalFlash) (erase : EraseSector) (junk : ℕ)
    (program : List UInt8) (pfs : Fsdata) : Option FormatOutcome :=
  let sectFirst := (platformFlashGetFirstFreeBlockAddress chip).2
  (romfsOpenFile fuel invalidName pfs).map fun found ↦
    let sectLast :=
      platformFlashGetSectorOfAddress chip (add32 (found.last junk) (wofsBase chip))
    eraseSectors erase (List.range' sectFirst (sectLast + 1 - sectFirst)) (program ++ pfs.image)

/-! ### What a format owes -/

/-- The instance in front of a flash. -/
def Fsdata.remount (pfs : Fsdata) (program flash : List UInt8) : Fsdata :=
  { pfs with image := flash.drop program.length }

/-- The sector is erased where the platform says so, and nothing else is changed. -/
def Erases (chip : InternalFlash) (erase : EraseSector) : Prop :=
  ∀ sect < chip.sizes.length, ∀ flash, (erase sect flash).1 = true →
    (erase sect flash).2 = fillBlock chip.sizes 0xFF flash sect

/-- Creating a file succeeds as long as there is a descriptor, and space behind address zero. -/
def Creates (pfs : Fsdata) : Prop :=
  ∀ path flags junk (table : FdTable) fd, flags.creat = true →
    (decodeAccess flags).writable = true → table.numFd ≠ totalMaxFds →
    romfsFindEmptyFd table = some fd → lacksSpace pfs path 0 = false →
      ∃ fuel outcome, romfsOpenR fuel path flags junk table pfs = some outcome ∧
        outcome.result = .ok fd

/-- A format touches no sector that holds a byte of the program. If it reports success, the file
system is erased, and so it is empty and files can be created in it. -/
structure FormatRight (chip : InternalFlash) (program : List UInt8) (pfs : Fsdata)
    (outcome : FormatOutcome) : Prop where
  spares : ∀ sect ∈ outcome.attempted, chip.flashUsedSize ≤ blockStart chip.sizes sect
  erases : outcome.ok = true → outcome.flash = program ++ erased pfs.maxSize
  empty : outcome.ok = true → ∀ path, ∃ fuel,
    romfsOpenFile fuel path (pfs.remount program outcome.flash) = some (.notFound 0)
  creates : outcome.ok = true → Creates (pfs.remount program outcome.flash)

/-! ### Runs -/

section Runs

variable {Instance : Type*} [DecidableEq Instance]

/-- The file systems, and the flash in front of the WOFS. -/
structure WofsDevice (Instance : Type*) where
  world : World Instance
  program : List UInt8

/-- A call of the file systems, or a format, with the platform that it meets. -/
inductive DeviceEvent (Instance : Type*)
  | call (event : FsEvent Instance)
  | format (erase : EraseSector) (junk : ℕ)

/-- An event. A format begins the log of the WOFS anew. -/
def deviceStep (chip : InternalFlash) (inst : Instance) (fuel : ℕ) (device : WofsDevice Instance) :
    DeviceEvent Instance → Option (WofsDevice Instance)
  | .call event => (fsStep fuel device.world event).map fun world ↦ { device with world }
  | .format erase junk =>
    (wofsFormat fuel chip erase junk device.program (device.world.fs inst)).map fun outcome ↦
      { program := outcome.flash.take device.program.length
        world := { device.world with
          fs := Function.update device.world.fs inst
            ((device.world.fs inst).remount device.program outcome.flash)
          log := Function.update device.world.log inst .empty } }

/-- The WOFS is the one that `romfs_init` sets up. -/
structure Mounted (chip : InternalFlash) (inst : Instance) (device : WofsDevice Instance) :
    Prop where
  wo_eq : (device.world.fs inst).wo = true
  maxSize_eq : (device.world.fs inst).maxSize = wofsMaxSize chip
  length_program : device.program.length = sub32 (wofsBase chip) chip.startAddress

/-- The runs of the file systems with a WOFS in the internal flash. -/
def deviceSystem (chip : InternalFlash) (inst : Instance) :
    TransitionSystem (WofsDevice Instance) (DeviceEvent Instance) where
  initial := fun device ↦ FsInitial device.world ∧ Mounted chip inst device
  step := fun device event after ↦ ∃ fuel, deviceStep chip inst fuel device event = some after

/-- Calls are orderly, and formats are of a file system in which no file is being written and none
has the reserved name, and succeed. -/
def OrderlyDeviceUse (chip : InternalFlash) (inst : Instance) (device : WofsDevice Instance) :
    DeviceEvent Instance → Prop
  | .call event => OrderlyUse device.world event
  | .format erase junk => (device.world.log inst).pending = none ∧
      (∀ file ∈ (device.world.log inst).closed, ¬file.Answers invalidName) ∧ Erases chip erase ∧
      ∀ fuel outcome, wofsFormat fuel chip erase junk device.program (device.world.fs inst) =
        some outcome → outcome.ok = true

end Runs

/-! ### Erasing sectors -/

section Erasing

variable {chip : InternalFlash} {erase : EraseSector}

/-- Only sectors of the list are attempted. -/
theorem attempted_subset (sects : List ℕ) (flash : List UInt8) :
    (eraseSectors erase sects flash).attempted ⊆ sects := by
  induction sects generalizing flash with
  | nil => exact List.Subset.refl []
  | cons sect sects ih =>
    unfold eraseSectors
    dsimp only
    split_ifs
    · exact List.cons_subset_cons sect (ih _)
    · exact List.cons_subset_cons sect (List.nil_subset sects)

/-- A loop that succeeds has erased its sectors. -/
theorem flash_eraseSectors (herase : Erases chip erase) {sects : List ℕ} {flash : List UInt8}
    (hsects : ∀ sect ∈ sects, sect < chip.sizes.length)
    (hok : (eraseSectors erase sects flash).ok = true) :
    (eraseSectors erase sects flash).flash = sects.foldl (fillBlock chip.sizes 0xFF) flash := by
  induction sects generalizing flash with
  | nil => rfl
  | cons sect sects ih =>
    unfold eraseSectors at hok ⊢
    dsimp only at hok ⊢
    split_ifs at hok ⊢ with hdone
    have hfirst := herase sect (hsects sect List.mem_cons_self) flash hdone
    rw [hfirst] at hok ⊢
    exact ih (fun other hother ↦ hsects other (List.mem_cons_of_mem sect hother)) hok

end Erasing

/-! ### A format of a closed file system -/

section Format

variable {chip : InternalFlash} {erase : EraseSector} {program : List UInt8} {log : Log}
  {pfs : Fsdata}

/-- Where the file system lies: from the sector behind that of the last byte of the program to the
end of the flash. -/
theorem exists_area (hfits : chip.Fits) (hpos : 0 < wofsMaxSize chip) :
    ∃ sect, platformFlashGetFirstFreeBlockAddress chip =
        (chip.startAddress + blockStart chip.sizes sect, sect) ∧
      chip.flashUsedSize ≤ blockStart chip.sizes sect ∧
      sub32 (wofsBase chip) chip.startAddress = blockStart chip.sizes sect ∧
      blockStart chip.sizes sect + wofsMaxSize chip = chip.sizes.sum := by
  obtain ⟨last, hlast, hfree⟩ := firstFreeBlock_spec hfits
  have hused := hlast.lt_start_succ
  have hle := blockStart_le_sum chip.sizes (last + 1)
  have hsum := hfits.sum_lt
  have hend := hfits.end_le
  have husedPos := hfits.used_pos
  unfold wofsMaxSize wofsBase at hpos ⊢
  rw [hfree] at hpos ⊢
  dsimp only at hpos ⊢
  by_cases hwraps : chip.startAddress + blockStart chip.sizes (last + 1) = 2 ^ 32
  · rw [hwraps, Nat.mod_self] at hpos
    unfold sub32 at hpos
    split_ifs at hpos <;> omega
  · rw [Nat.mod_eq_of_lt (by omega)] at hpos ⊢
    have hbase : sub32 (chip.startAddress + blockStart chip.sizes (last + 1)) chip.startAddress =
        blockStart chip.sizes (last + 1) := by
      rw [sub32_eq (Nat.le_add_right ..), Nat.add_sub_cancel_left]
    refine ⟨last + 1, rfl, by omega, hbase, ?_⟩
    rw [hbase, sub32_eq hle, Nat.add_sub_cancel' hle]

/-- An erased image holds the empty log. -/
theorem Holds.holds_erased (hholds : Holds log pfs) (hpending : log.pending = none) :
    Holds .empty { pfs with image := erased pfs.maxSize } where
  wo_eq := hholds.wo_eq
  writing_eq := hholds.writing_eq.trans (by rw [hpending]; rfl)
  maxSize_mod := hholds.maxSize_mod
  maxSize_lt := hholds.maxSize_lt
  image_eq := rfl
  room := (Nat.add_le_add_right (Nat.zero_le _) romfsAlign).trans hholds.room
  live_apart := .nil
  writes_safe := hholds.writes_safe

/-- In an empty file system a lookup ends at its start. -/
theorem Holds.lookup_empty (hempty : Holds .empty pfs) (path : CString) :
    ∃ fuel, romfsOpenFile fuel path pfs = some (.notFound 0) := by
  obtain ⟨fuel, lookup, hlookup, ⟨rfl, -⟩ | ⟨before, file, after, hclosed, -, -⟩⟩ :=
    hempty.lookup rfl path
  · exact ⟨fuel, hlookup⟩
  · exact absurd hclosed.symm (List.append_ne_nil_of_right_ne_nil before (List.cons_ne_nil _ _))

/-- Files can be created in an empty file system. -/
theorem Holds.creates_empty (hempty : Holds .empty pfs) : Creates pfs := by
  intro path flags junk table fd hcreat haccess hroom hslot hspace
  obtain ⟨fuel, hlookup⟩ := hempty.lookup_empty path
  obtain ⟨more, hprobe⟩ := hempty.lookup_empty invalidName
  have hlookup' : romfsOpenFile (max fuel more) path pfs = some (.notFound 0) :=
    runLoop_mono (Nat.le_max_left ..) hlookup
  have hprobe' : romfsOpenFile (max fuel more) invalidName
      (Romfs.invalidateOld pfs (.notFound 0)) = some (.notFound 0) :=
    runLoop_mono (Nat.le_max_right ..) hprobe
  have hspace' : lacksSpace (Romfs.invalidateOld pfs (.notFound 0)) path
      (OpenFileResult.last (OpenFileResult.last junk (.notFound 0)) (.notFound 0)) = false := hspace
  have hdecode : decodeOpen flags false pfs = .ok (true, decodeAccess flags) := by
    have hmust : mustCreate flags false = true := by
      unfold mustCreate
      rw [hcreat]
      rfl
    have hwriting : pfs.writing = false := hempty.writing_eq
    exact decodeOpen_eq_ok_iff.mpr ⟨fun hall ↦ Bool.noConfusion hall.2.2, fun _ ↦ hempty.wo_eq,
      fun _ ↦ ⟨hmust, hwriting⟩, hmust, rfl⟩
  refine ⟨max fuel more, ⟨.ok fd, table.install fd ⟨dataAddress path 0, 0, 0, decodeAccess flags⟩,
    (pfs.writef (path.bytes ++ [0]) 0).setWriting true⟩, ?_, rfl⟩
  unfold romfsOpenR
  rw [if_neg hroom, hlookup', Option.bind_some]
  dsimp only [OpenFileResult.found]
  rw [hdecode]
  dsimp only [createFile]
  rw [hprobe', Option.map_some, if_neg (Bool.eq_false_iff.mp hspace'), hslot]
  rfl

/-- The sectors up to the one of the end of the log hold all that is not erased. -/
theorem Holds.flash_erased (hholds : Holds log pfs) (herase : Erases chip erase) {first last : ℕ}
    (hprogram : program.length = blockStart chip.sizes first)
    (hsum : blockStart chip.sizes first + pfs.maxSize = chip.sizes.sum) (hle : first ≤ last)
    (hlast : InBlock chip.sizes (blockStart chip.sizes first + log.bytes.length) last)
    (hok : (eraseSectors erase (List.range' first (last + 1 - first))
      (program ++ pfs.image)).ok = true) :
    (eraseSectors erase (List.range' first (last + 1 - first)) (program ++ pfs.image)).flash =
      program ++ erased pfs.maxSize := by
  have hsects : ∀ sect ∈ List.range' first (last + 1 - first), sect < chip.sizes.length := by
    intro sect hsect
    have hmem := List.mem_range'_1.mp hsect
    have hlt := hlast.block_lt
    omega
  have hnext : first + (last + 1 - first) = last + 1 := by omega
  have hfinish := hlast.lt_start_succ
  rw [flash_eraseSectors herase hsects hok]
  refine List.ext_getElem? fun index ↦ ?_
  rw [getElem?_fillBlocks, hnext, List.length_append, hprogram, hholds.length_image]
  by_cases hindex : index < program.length
  · rw [if_neg fun hinside ↦ hinside.1.not_gt (hprogram ▸ hindex), List.getElem?_append_left hindex,
      List.getElem?_append_left hindex]
  · obtain ⟨offset, rfl⟩ := Nat.exists_eq_add_of_le (not_lt.mp hindex)
    rw [List.getElem?_append_right (Nat.le_add_right ..), Nat.add_sub_cancel_left,
      List.getElem?_append_right (Nat.le_add_right ..), Nat.add_sub_cancel_left, hholds.image_eq,
      hprogram, erased, erased, List.getElem?_replicate]
    by_cases hoffset : offset < log.bytes.length
    · have hroom := hholds.room
      rw [if_pos (by omega), if_pos (by omega)]
    · obtain ⟨more, rfl⟩ := Nat.exists_eq_add_of_le (not_lt.mp hoffset)
      rw [List.getElem?_append_right (Nat.le_add_right ..), Nat.add_sub_cancel_left,
        List.getElem?_replicate]
      split_ifs <;> first | rfl | omega

/-- More fuel finds no other outcome. -/
theorem wofsFormat_unique {fuel more junk : ℕ} {outcome other : FormatOutcome}
    (hformat : wofsFormat fuel chip erase junk program pfs = some outcome)
    (hother : wofsFormat more chip erase junk program pfs = some other) : outcome = other := by
  obtain ⟨found, hfound, rfl⟩ := Option.map_eq_some_iff.mp hformat
  obtain ⟨found', hfound', rfl⟩ := Option.map_eq_some_iff.mp hother
  rw [runLoop_unique hfound hfound']

/-- The instance in front of an erased file system. -/
theorem remount_erased (pfs : Fsdata) (program : List UInt8) :
    pfs.remount program (program ++ erased pfs.maxSize) =
      { pfs with image := erased pfs.maxSize } := by
  rw [Fsdata.remount, List.drop_left]

/-- A format that finds the end of the last file is right. -/
theorem Holds.formatRight (hholds : Holds log pfs) (hpending : log.pending = none)
    (hfits : chip.Fits) (herase : Erases chip erase) (hmax : pfs.maxSize = wofsMaxSize chip)
    (hprogram : program.length = sub32 (wofsBase chip) chip.startAddress)
    (hunused : ∀ file ∈ log.closed, ¬file.Answers invalidName) (junk : ℕ) :
    ∃ fuel outcome, wofsFormat fuel chip erase junk program pfs = some outcome ∧
      FormatRight chip program pfs outcome := by
  have hroom := hholds.room
  unfold romfsAlign at hroom
  obtain ⟨first, hfree, hused, hbase, hsum⟩ := exists_area hfits (by omega)
  obtain ⟨fuel, lookup, hlookup, ⟨rfl, -⟩ | ⟨before, file, after, hclosed, hanswers, -⟩⟩ :=
    hholds.lookup hpending invalidName
  swap
  · exact absurd hanswers (hunused file (hclosed ▸ List.mem_append_right _ List.mem_cons_self))
  rw [bytes_of_pending_none hpending] at hroom
  have hend := hfits.end_le
  -- The end of the last file lies in the flash, and so in one of its sectors.
  have haddress : add32 (filesBytes log.closed).length (wofsBase chip) =
      chip.startAddress + (blockStart chip.sizes first + (filesBytes log.closed).length) := by
    unfold wofsBase
    rw [hfree, add32_eq (by dsimp only; omega)]
    dsimp only
    omega
  obtain ⟨last, hlast, hfound⟩ := @flashhFindSector_spec chip
    (blockStart chip.sizes first + (filesBytes log.closed).length) hfits (by omega)
  have hle : first ≤ last := by
    by_contra hless
    have hmono := blockStart_mono chip.sizes (show last + 1 ≤ first by omega)
    have hlt := hlast.lt_start_succ
    omega
  refine ⟨fuel,
    eraseSectors erase (List.range' first (last + 1 - first)) (program ++ pfs.image), ?_, ?_⟩
  · unfold wofsFormat platformFlashGetSectorOfAddress
    rw [hlookup, Option.map_some]
    dsimp only [OpenFileResult.last]
    rw [haddress, hfound, hfree]
  · have herased := hholds.holds_erased hpending
    have hflash := @Holds.flash_erased _ _ program log pfs hholds herase first last
      (hprogram.trans hbase) (hmax ▸ hsum) hle (bytes_of_pending_none hpending ▸ hlast)
    refine ⟨fun sect hsect ↦ ?_, hflash, fun hok ↦ ?_, fun hok ↦ ?_⟩
    · have hmem := List.mem_range'_1.mp (attempted_subset _ _ hsect)
      exact hused.trans (blockStart_mono chip.sizes hmem.1)
    · rw [hflash hok, remount_erased]
      exact herased.lookup_empty
    · rw [hflash hok, remount_erased]
      exact herased.creates_empty

/-- If a file has the reserved name, a format that begins with an address below the file system in
`sect_last` erases nothing, and reports success. -/
theorem Holds.not_formatRight (hholds : Holds log pfs) (hpending : log.pending = none)
    (hfits : chip.Fits) (hmax : pfs.maxSize = wofsMaxSize chip) {file : File}
    (hfile : file ∈ log.closed) (hanswers : file.Answers invalidName) :
    ∃ junk < 2 ^ 32, ¬∃ fuel outcome, wofsFormat fuel chip erase junk program pfs = some outcome ∧
      FormatRight chip program pfs outcome := by
  have hroom := hholds.room
  unfold romfsAlign at hroom
  obtain ⟨first, hfree, hused, -, hsum⟩ := exists_area hfits (by omega)
  have hend := hfits.end_le
  have husedPos := hfits.used_pos
  have hbase : wofsBase chip = chip.startAddress + blockStart chip.sizes first := by
    unfold wofsBase
    rw [hfree]
  refine ⟨2 ^ 32 - blockStart chip.sizes first, by omega, ?_⟩
  rintro ⟨fuel, outcome, hformat, hright⟩
  obtain ⟨found, hlookup, houtcome⟩ := Option.map_eq_some_iff.mp hformat
  obtain ⟨more, lookup, hfound, ⟨rfl, hnone⟩ | ⟨before, other, after, -, -, rfl⟩⟩ :=
    hholds.lookup hpending invalidName
  · exact hnone file hfile hanswers
  obtain rfl := runLoop_unique hfound hlookup
  -- The address in `sect_last` becomes the first one of the flash, which is in the first sector.
  have haddress : add32 (2 ^ 32 - blockStart chip.sizes first) (wofsBase chip) =
      chip.startAddress + 0 := by
    rw [hbase]
    unfold add32
    omega
  obtain ⟨last, hlast, hsector⟩ := @flashhFindSector_spec chip 0 hfits (by omega)
  have hless : last < first := by
    by_contra hle
    have hmono := blockStart_mono chip.sizes (not_lt.mp hle)
    have hstart := hlast.start_le
    omega
  have hnothing : last + 1 - first = 0 := by omega
  unfold platformFlashGetSectorOfAddress at houtcome
  dsimp only [OpenFileResult.last] at houtcome
  rw [haddress, hsector, hfree] at houtcome
  dsimp only at houtcome
  rw [hnothing] at houtcome
  obtain rfl := houtcome
  have himage := List.append_cancel_left (hright.erases rfl)
  have hempty := himage ▸ hholds.holds_erased hpending
  obtain ⟨other, hother, -⟩ := (hempty.found_iff rfl invalidName).mp
    ((hholds.found_iff hpending invalidName).mpr ⟨file, hfile, hanswers⟩)
  cases hother

end Format

/-! ### Every state of a run -/

section Runs

variable {Instance : Type*} [DecidableEq Instance] {world after : World Instance}

/-- Changing an instance keeps what its change keeps. -/
theorem keeps_update {fs : Instance → Fsdata} {inst : Instance} {pfs : Fsdata}
    (hwo : pfs.wo = (fs inst).wo) (hmax : pfs.maxSize = (fs inst).maxSize) (other : Instance) :
    (Function.update fs inst pfs other).wo = (fs other).wo ∧
      (Function.update fs inst pfs other).maxSize = (fs other).maxSize := by
  by_cases hsame : other = inst
  · subst hsame
    rw [Function.update_self]
    exact ⟨hwo, hmax⟩
  · rw [Function.update_of_ne hsame]
    exact ⟨rfl, rfl⟩

theorem keeps_invalidateOld (pfs : Fsdata) (lookup : OpenFileResult) :
    (invalidateOld pfs lookup).wo = pfs.wo ∧ (invalidateOld pfs lookup).maxSize = pfs.maxSize := by
  cases lookup <;> exact ⟨rfl, rfl⟩

theorem keeps_romfsWriteR {fd : Fin totalMaxFds} {data : List UInt8} {table : FdTable}
    {pfs : Fsdata} {outcome : Outcome ℕ} (hwrite : romfsWriteR fd data table pfs = some outcome) :
    outcome.pfs.wo = pfs.wo ∧ outcome.pfs.maxSize = pfs.maxSize := by
  unfold romfsWriteR at hwrite
  dsimp only at hwrite
  split_ifs at hwrite <;> obtain rfl := Option.some.inj hwrite <;> exact ⟨rfl, rfl⟩

theorem keeps_romfsCloseR (fd : Fin totalMaxFds) (table : FdTable) (pfs : Fsdata) :
    (romfsCloseR fd table pfs).2.wo = pfs.wo ∧
      (romfsCloseR fd table pfs).2.maxSize = pfs.maxSize := by
  unfold romfsCloseR
  dsimp only
  split_ifs <;> exact ⟨rfl, rfl⟩

/-- A call keeps the kind and the size of every instance. -/
theorem keeps_fsStep {fuel : ℕ} {event : FsEvent Instance}
    (hstep : fsStep fuel world event = some after) (other : Instance) :
    (after.fs other).wo = (world.fs other).wo ∧
      (after.fs other).maxSize = (world.fs other).maxSize := by
  cases event with
  | «open» inst path flags junk =>
    cases openEffect_of_open hstep with
    | unchanged => exact ⟨rfl, rfl⟩
    | opened => exact ⟨rfl, rfl⟩
    | @creationFailed lookup =>
      obtain ⟨hwo, hmax⟩ := keeps_invalidateOld (world.fs inst) lookup
      exact keeps_update hwo hmax other
    | @created lookup =>
      obtain ⟨hwo, hmax⟩ := keeps_invalidateOld (world.fs inst) lookup
      refine keeps_update ?_ ?_ other
      · exact hwo
      · exact hmax
  | write fd data =>
    obtain ⟨handle, -, hstep⟩ := Option.bind_eq_some_iff.mp hstep
    obtain ⟨outcome, hwrite, rfl⟩ := Option.map_eq_some_iff.mp hstep
    obtain ⟨hwo, hmax⟩ := keeps_romfsWriteR hwrite
    exact keeps_update hwo hmax other
  | read fd len =>
    obtain ⟨handle, -, hstep⟩ := Option.bind_eq_some_iff.mp hstep
    obtain ⟨outcome, hread, rfl⟩ := Option.map_eq_some_iff.mp hstep
    obtain ⟨-, hpfs⟩ := romfsReadR_sought hread
    exact keeps_update (congrArg Fsdata.wo hpfs) (congrArg Fsdata.maxSize hpfs) other
  | lseek fd off whence =>
    obtain ⟨handle, -, rfl⟩ := Option.map_eq_some_iff.mp hstep
    exact ⟨rfl, rfl⟩
  | close fd =>
    obtain ⟨handle, -, rfl⟩ := Option.map_eq_some_iff.mp hstep
    obtain ⟨hwo, hmax⟩ := keeps_romfsCloseR fd world.table (world.fs handle.inst)
    exact keeps_update hwo hmax other

variable {chip : InternalFlash} {inst : Instance} {device next : WofsDevice Instance}

/-- A format that has erased the file system leaves an orderly run. -/
theorem Orderly.format (horderly : Orderly world) (hwo : (world.fs inst).wo = true)
    (hpending : (world.log inst).pending = none) :
    Orderly { world with
      fs := Function.update world.fs inst
        { world.fs inst with image := erased (world.fs inst).maxSize }
      log := Function.update world.log inst .empty } where
  tracked := ⟨horderly.tracked.writers.updateFs rfl (List.Subset.refl _), horderly.tracked.slots⟩
  holds := by
    intro other hother
    by_cases hsame : other = inst
    · subst hsame
      simp only [Function.update_self]
      exact (horderly.holds other hwo).holds_erased hpending
    · simp only [Function.update_of_ne hsame] at hother ⊢
      exact horderly.holds other hother
  writer := by
    intro fd other hfd
    obtain ⟨hother, hwriter⟩ := horderly.writer fd other hfd
    have hsame : other ≠ inst := by
      rintro rfl
      obtain ⟨name, data, hwritten, -, -⟩ := hwriter
      rw [hpending] at hwritten
      cases hwritten
    simp only [Function.update_of_ne hsame]
    exact ⟨hother, hwriter⟩

/-- The state of a run with a WOFS in the internal flash: the calls so far were orderly. -/
structure OrderlyDevice (chip : InternalFlash) (inst : Instance) (device : WofsDevice Instance) :
    Prop where
  orderly : Orderly device.world
  mounted : Mounted chip inst device

/-- Every permitted event leads to such a state again. -/
theorem OrderlyDevice.step {event : DeviceEvent Instance} (hfits : chip.Fits)
    (hdevice : OrderlyDevice chip inst device) (huse : OrderlyDeviceUse chip inst device event)
    (hstep : (deviceSystem chip inst).step device event next) : OrderlyDevice chip inst next := by
  obtain ⟨horderly, hmounted⟩ := hdevice
  obtain ⟨fuel, hstep⟩ := hstep
  cases event with
  | call event =>
    obtain ⟨world, hworld, rfl⟩ := Option.map_eq_some_iff.mp hstep
    obtain ⟨hwo, hmax⟩ := keeps_fsStep hworld inst
    exact ⟨horderly.step huse ⟨fuel, hworld⟩, hwo.trans hmounted.wo_eq,
      hmax.trans hmounted.maxSize_eq, hmounted.length_program⟩
  | format erase junk =>
    obtain ⟨hpending, hunused, herase, hsucceeds⟩ := huse
    obtain ⟨outcome, hformat, rfl⟩ := Option.map_eq_some_iff.mp hstep
    obtain ⟨more, other, hother, hright⟩ :=
      (horderly.holds inst hmounted.wo_eq).formatRight hpending hfits herase hmounted.maxSize_eq
        hmounted.length_program hunused junk
    obtain rfl := wofsFormat_unique hformat hother
    rw [hright.erases (hsucceeds fuel outcome hformat), List.take_left, remount_erased]
    refine ⟨horderly.format hmounted.wo_eq hpending, ?_, ?_, hmounted.length_program⟩
    · dsimp only
      rw [Function.update_self]
      exact hmounted.wo_eq
    · dsimp only
      rw [Function.update_self]
      exact hmounted.maxSize_eq

theorem orderlyDevice_of_reachable (hfits : chip.Fits)
    (hreach : (deviceSystem chip inst).ReachableUnder (OrderlyDeviceUse chip inst) device) :
    OrderlyDevice chip inst device := by
  refine hreach.invariant (OrderlyDevice chip inst) ?_
    fun _ _ _ hdevice huse hstep ↦ hdevice.step hfits huse hstep
  rintro start ⟨hinitial, hmounted⟩
  exact ⟨orderly_of_initial hinitial, hmounted⟩

/-- For every layout of sectors and every program, in every state that a run of orderly calls and of
formats that succeed reaches with no file being written: a format is right, whatever the variable
`sect_last` holds, exactly if no file has the reserved name. -/
theorem formatRight_iff {erase : EraseSector} (hfits : chip.Fits)
    (hreach : (deviceSystem chip inst).ReachableUnder (OrderlyDeviceUse chip inst) device)
    (hclosed : (device.world.log inst).pending = none) (herase : Erases chip erase) :
    (∀ junk < 2 ^ 32, ∃ fuel outcome,
        wofsFormat fuel chip erase junk device.program (device.world.fs inst) = some outcome ∧
          FormatRight chip device.program (device.world.fs inst) outcome) ↔
      ∀ file ∈ (device.world.log inst).closed, ¬file.Answers invalidName := by
  obtain ⟨horderly, hmounted⟩ := orderlyDevice_of_reachable hfits hreach
  have hholds := horderly.holds inst hmounted.wo_eq
  constructor
  · intro hright file hfile hanswers
    obtain ⟨junk, hjunk, hwrong⟩ := @Holds.not_formatRight chip erase device.program _ _ hholds
      hclosed hfits hmounted.maxSize_eq file hfile hanswers
    exact hwrong (hright junk hjunk)
  · intro hunused junk _
    exact hholds.formatRight hclosed hfits herase hmounted.maxSize_eq hmounted.length_program
      hunused junk

end Runs

/-! ### A file with the reserved name -/

/-- A flash of three sectors of 16 bytes, with a program in the first one. -/
def threeSectors : InternalFlash := ⟨0x08000000, .uniform 16 3, 10⟩

theorem fits_threeSectors : threeSectors.Fits where
  size_pos := by decide
  sum_lt := by decide
  end_le := by decide
  used_pos := by decide
  used_le := by decide

/-- A platform on which every sector can be erased. -/
def eraseAll : EraseSector := fun sect flash ↦ (true, fillBlock threeSectors.sizes 0xFF flash sect)

theorem erases_eraseAll : Erases threeSectors eraseAll := fun _ _ _ _ ↦ rfl

/-- A formatted WOFS behind a program. -/
def threeSectorsStart : WofsDevice Unit := ⟨.blank 32, List.replicate 16 0⟩

theorem reachable_threeSectors {events : List (DeviceEvent Unit)} {device : WofsDevice Unit}
    (hrun : runEvents (deviceStep threeSectors () 4) threeSectorsStart events = some device)
    (hevents : ∀ state, ∀ event ∈ events, OrderlyDeviceUse threeSectors () state event) :
    (deviceSystem threeSectors ()).ReachableUnder (OrderlyDeviceUse threeSectors ()) device := by
  have hstart : FsInitial threeSectorsStart.world ∧ Mounted threeSectors () threeSectorsStart :=
    ⟨fsInitial_blank (by decide) (by decide) (by decide), rfl, by decide, by decide⟩
  exact reachableUnder_of_runEvents (fun _ _ _ hstep ↦ Exists.intro 4 hstep) events (.start hstart)
    hevents hrun

/-- Creating a file with write access, and closing it. -/
def createAndClose (path : CString) : List (DeviceEvent Unit) :=
  [.call (.open () path ⟨true, false, false, true, false, false⟩ 0), .call (.close 0)]

theorem orderly_createAndClose {path : CString} (hname : IsFileName path) :
    ∀ state, ∀ event ∈ createAndClose path, OrderlyDeviceUse threeSectors () state event := by
  unfold createAndClose
  simp only [List.forall_mem_cons, List.not_mem_nil, false_imp_iff, implies_true, and_true]
  exact fun state ↦ ⟨⟨.open rfl hname, .open_of_not_trunc rfl⟩, .close, .close⟩

/-- The file `a` is formatted away. -/
theorem formatRight_iff_of_one_file :
    ∃ device : WofsDevice Unit,
      (device.world.log ()).closed.map (fun file ↦ file.name.bytes) = [[0x61]] ∧
      ∀ junk < 2 ^ 32, ∃ fuel outcome,
        wofsFormat fuel threeSectors eraseAll junk device.program (device.world.fs ()) =
          some outcome ∧
        FormatRight threeSectors device.program (device.world.fs ()) outcome := by
  have hrun : (runEvents (deviceStep threeSectors () 4) threeSectorsStart
      (createAndClose ⟨[0x61], by decide⟩)).map (fun device ↦ ((device.world.log ()).pending,
        (device.world.log ()).closed.map fun file ↦ file.name.bytes)) = some (none, [[0x61]]) := by
    rfl
  obtain ⟨device, hdevice, hlog⟩ := Option.map_eq_some_iff.mp hrun
  obtain ⟨hclosed, hnames⟩ := Prod.mk.inj hlog
  refine ⟨device, hnames, (formatRight_iff fits_threeSectors (reachable_threeSectors hdevice
    (orderly_createAndClose (by decide))) hclosed erases_eraseAll).mpr ?_⟩
  rintro file hfile ⟨-, hsame⟩
  have hname := List.mem_map_of_mem hfile (f := fun file ↦ file.name.bytes)
  rw [hnames, List.mem_singleton] at hname
  rw [hname] at hsame
  exact absurd hsame (by decide)

/-- A file with the reserved name is created: a format that erases nothing reports success. -/
theorem not_formatRight_of_reserved_name :
    ∃ device, (deviceSystem threeSectors ()).ReachableUnder
        (OrderlyDeviceUse threeSectors ()) device ∧
      (device.world.log ()).pending = none ∧
      ¬∀ junk < 2 ^ 32, ∃ fuel outcome,
        wofsFormat fuel threeSectors eraseAll junk device.program (device.world.fs ()) =
          some outcome ∧
        FormatRight threeSectors device.program (device.world.fs ()) outcome := by
  have hrun : (runEvents (deviceStep threeSectors () 4) threeSectorsStart
      (createAndClose invalidName)).map (fun device ↦ ((device.world.log ()).pending,
        (device.world.log ()).closed.map fun file ↦ (file.deleted, file.name.bytes))) =
      some (none, [(false, [1])]) := by
    rfl
  obtain ⟨device, hdevice, hlog⟩ := Option.map_eq_some_iff.mp hrun
  obtain ⟨hclosed, hnames⟩ := Prod.mk.inj hlog
  obtain ⟨file, rest, hfiles, hfile, -⟩ := List.map_eq_cons_iff.mp hnames
  obtain ⟨hlive, hname⟩ := Prod.mk.inj hfile
  have hreach := reachable_threeSectors hdevice (orderly_createAndClose (by decide))
  obtain ⟨horderly, hmounted⟩ := orderlyDevice_of_reachable fits_threeSectors hreach
  have hanswers : file.Answers invalidName := by
    refine ⟨hlive, ?_⟩
    rw [hname]
    exact SameName.rfl
  obtain ⟨junk, hjunk, hwrong⟩ := @Holds.not_formatRight threeSectors eraseAll device.program _ _
    (horderly.holds () hmounted.wo_eq) hclosed fits_threeSectors hmounted.maxSize_eq file
    (hfiles ▸ List.mem_cons_self) hanswers
  exact ⟨device, hreach, hclosed, fun hright ↦ hwrong (hright junk hjunk)⟩

end Elua.Romfs
