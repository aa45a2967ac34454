import Elua.Romfs.Operations

/-!
# Opens that fail

`LeftAsItWas` says that a call changed neither the image nor the flags of the instance nor the
table of descriptors, so that every lookup still gives what it gave before. An open that returns an
error leaves everything as it was unless it is a truncating open of an existing file that passes the
checks of the flags (`TruncatesExisting`): such an open deletes the old version before it looks for
space and for a descriptor. `leftAsItWas_iff` is the exact condition, and
`truncating_open_without_space_deletes_the_file` a file lost that way.
-/

set_option autoImplicit false
set_option relaxedAutoImplicit false

namespace Elua.Romfs

open Foundation

/-- Nothing of the file system state has changed. -/
structure LeftAsItWas (table : FdTable) (pfs : Fsdata) (table' : FdTable) (pfs' : Fsdata) :
    Prop where
  image_eq : pfs'.image = pfs.image
  direct_eq : pfs'.direct = pfs.direct
  wo_eq : pfs'.wo = pfs.wo
  writing_eq : pfs'.writing = pfs.writing
  fds_eq : table'.fds = table.fds
  numFd_eq : table'.numFd = table.numFd
  /-- A file that could be opened before is found where it was, with the bytes it had. -/
  files_eq : ∀ fuel name, romfsOpenFile fuel name pfs' = romfsOpenFile fuel name pfs

/-- A truncating open of an existing file that no check of the flags refuses: there is a descriptor
left, the name is found, `O_TRUNC` comes with write access and without `O_CREAT | O_EXCL`, and the
instance is a WOFS on which no file is being written. -/
structure TruncatesExisting (path : CString) (flags : OpenFlags) (table : FdTable) (pfs : Fsdata) :
    Prop where
  room : table.numFd ≠ totalMaxFds
  found : ∃ fuel baseaddr size nameaddr,
    romfsOpenFile fuel path pfs = some (.ok baseaddr size nameaddr)
  trunc : flags.trunc = true
  access : flags.wronly = true ∨ flags.rdwr = true
  not_exclusive : ¬(flags.creat = true ∧ flags.excl = true)
  wo : pfs.wo = true
  not_writing : pfs.writing = false

/-! ### Interpreting the flags -/

/-- When the flags let an existing file be replaced. -/
theorem decodeOpen_replaces_iff {flags : OpenFlags} {pfs : Fsdata} {lflags : FileFlags} :
    decodeOpen flags true pfs = .ok (true, lflags) ↔
      decodeAccess flags = lflags ∧ flags.trunc = true ∧
        (flags.wronly = true ∨ flags.rdwr = true) ∧ ¬(flags.creat = true ∧ flags.excl = true) ∧
        pfs.wo = true ∧ pfs.writing = false := by
  rw [decodeOpen_eq_ok_iff]
  simp only [mustCreate, Bool.not_true, Bool.and_false, Bool.false_or, Bool.and_true,
    Bool.and_eq_true, Bool.or_eq_true]
  have hwritable : flags.wronly = true ∨ flags.rdwr = true → (decodeAccess flags).writable = true := by
    unfold decodeAccess FileFlags.writable
    rintro (haccess | haccess) <;> simp only [haccess] <;> split <;> simp_all
  tauto

/-! ### The entry that a lookup finds -/

/-- The delete word of a WOFS entry that is not deleted, eight bytes before its data, does not hold
the deleted mark. -/
theorem exists_mark_of_readHeader {pfs : Fsdata} {addr baseaddr size : ℕ} (hwo : pfs.wo = true)
    (hheader : readHeader pfs addr = some ⟨false, size, baseaddr⟩) :
    ∃ mark, pfs.image[sub32 (sub32 baseaddr romfsSizeLen) wofsDelFieldSize]? = some mark ∧
      mark ≠ wofsFileDeleted := by
  simp only [readHeader, romfshIsWofs, hwo, if_true, Option.bind_eq_bind,
    Option.bind_eq_some_iff] at hheader
  obtain ⟨mark, hmark, word, -, hheader⟩ := hheader
  simp only [Option.pure_def, Option.some.injEq, Header.mk.injEq, beq_eq_false_iff_ne] at hheader
  obtain ⟨hdeleted, -, rfl⟩ := hheader
  refine ⟨mark, ?_, hdeleted⟩
  rw [sub32_add32 (add32_lt _ _) (by decide), sub32_add32 (alignUp4_lt _) (by decide)]
  exact hmark

/-- Deleting the version that a lookup found changes the image. -/
theorem image_invalidateOld_ne {fuel : ℕ} {path : CString} {pfs : Fsdata}
    {baseaddr size nameaddr : ℕ} (hwo : pfs.wo = true)
    (hlookup : romfsOpenFile fuel path pfs = some (.ok baseaddr size nameaddr)) :
    (invalidateOld pfs (.ok baseaddr size nameaddr)).image ≠ pfs.image := by
  obtain ⟨addr, hheader⟩ := exists_header_of_found hlookup
  obtain ⟨mark, hmark, hne⟩ := exists_mark_of_readHeader hwo hheader
  intro himage
  have hinside := (List.getElem?_eq_some_iff.mp hmark).choose
  have hcell : (invalidateOld pfs (.ok baseaddr size nameaddr)).image[
      sub32 (sub32 baseaddr romfsSizeLen) wofsDelFieldSize]? = some wofsFileDeleted := by
    simp only [invalidateOld, markDeleted, Fsdata.writef]
    rw [getElem?_overwrite, if_pos (by simp [hinside]), Nat.sub_self]
    rfl
  rw [himage, hmark] at hcell
  exact hne (Option.some.inj hcell)

/-! ### The exact condition -/

theorem LeftAsItWas.rfl {table : FdTable} {pfs : Fsdata} : LeftAsItWas table pfs table pfs :=
  ⟨Eq.refl _, Eq.refl _, Eq.refl _, Eq.refl _, Eq.refl _, Eq.refl _, fun _ _ ↦ Eq.refl _⟩

/-- A truncating open of an existing file finds it and goes on to create the new version. -/
theorem TruncatesExisting.decode {fuel : ℕ} {path : CString} {flags : OpenFlags} {table : FdTable}
    {pfs : Fsdata} {lookup : OpenFileResult} (htruncates : TruncatesExisting path flags table pfs)
    (hlookup : romfsOpenFile fuel path pfs = some lookup) :
    lookup.found = true ∧ decodeOpen flags true pfs = .ok (true, decodeAccess flags) := by
  obtain ⟨more, baseaddr, size, nameaddr, hfound⟩ := htruncates.found
  obtain rfl := runLoop_unique hfound hlookup
  exact ⟨rfl, decodeOpen_replaces_iff.mpr ⟨rfl, htruncates.trunc, htruncates.access,
    htruncates.not_exclusive, htruncates.wo, htruncates.not_writing⟩⟩

/-- An open that fails leaves everything as it was exactly when it is not a truncating open of an
existing file. -/
theorem leftAsItWas_iff {fuel : ℕ} {path : CString} {flags : OpenFlags} {junk : ℕ}
    {table table' : FdTable} {pfs pfs' : Fsdata} {code : Errno}
    (hopen : romfsOpenR fuel path flags junk table pfs = some ⟨.error code, table', pfs'⟩) :
    LeftAsItWas table pfs table' pfs' ↔ ¬TruncatesExisting path flags table pfs := by
  cases openCase_of_romfsOpenR hopen with
  | tableFull hfull => exact iff_of_true .rfl fun htruncates ↦ htruncates.room hfull
  | refused hroom hlookup hdecode =>
    refine iff_of_true .rfl fun htruncates ↦ ?_
    obtain ⟨hfound, hok⟩ := htruncates.decode hlookup
    rw [hfound, hok] at hdecode
    cases hdecode
  | notFound hlookup _ =>
    refine iff_of_true .rfl fun htruncates ↦ ?_
    cases (htruncates.decode hlookup).1
  | noSlot hlookup hdecode =>
    refine iff_of_true .rfl fun htruncates ↦ ?_
    obtain ⟨hfound, hok⟩ := htruncates.decode hlookup
    rw [hfound, hok] at hdecode
    cases hdecode
  | @creationFailed lookup _ _ hroom hlookup hdecode =>
    cases lookup with
    | notFound last =>
      refine iff_of_true .rfl fun htruncates ↦ ?_
      cases (htruncates.decode hlookup).1
    | ok baseaddr size nameaddr =>
      obtain ⟨-, htrunc, haccess, hexclusive, hwo, hwriting⟩ := decodeOpen_replaces_iff.mp hdecode
      exact iff_of_false (fun hsame ↦ image_invalidateOld_ne hwo hlookup hsame.image_eq)
        (not_not_intro ⟨hroom, ⟨_, _, _, _, hlookup⟩, htrunc, haccess, hexclusive, hwo, hwriting⟩)

/-! ### A file lost to a failed open -/

/-- A WOFS of 28 bytes that holds one file, named `a`, with one byte of data. -/
def nearlyFull : Fsdata :=
  { direct := true
    wo := true
    writing := false
    maxSize := 28
    image := [0x61, 0, 0xFF, 0xFF] ++ List.replicate 4 0xFF ++ [1, 0, 0, 0] ++
      [0x78, 0xFF, 0xFF, 0xFF] ++ List.replicate 12 0xFF
    writes := [] }

/-- The name `a`. -/
def nameA : CString := ⟨[0x61], zero_notMem_a⟩

/-- Opening for writing, and truncating. -/
def truncating : OpenFlags := ⟨false, false, true, true, false, false⟩

/-- A truncating open on the nearly full device fails for lack of space, and the file is gone. -/
theorem truncating_open_without_space_deletes_the_file :
    romfsOpenR 2 nameA truncating 0 .fresh nearlyFull =
        some ⟨.error .enospc, .fresh, markDeleted nearlyFull 12⟩ ∧
      ¬LeftAsItWas .fresh nearlyFull .fresh (markDeleted nearlyFull 12) ∧
      romfsOpenFile 2 nameA nearlyFull = some (.ok 12 1 0) ∧
      romfsOpenFile 2 nameA (markDeleted nearlyFull 12) = some (.notFound 16) :=
  ⟨rfl, fun hsame ↦ absurd hsame.image_eq (by decide), rfl, rfl⟩

/-- The condition on an open that fails because the name does not exist: nothing has changed. -/
theorem leftAsItWas_iff_missing_file :
    LeftAsItWas .fresh (markDeleted nearlyFull 12) .fresh (markDeleted nearlyFull 12) ↔
      ¬TruncatesExisting nameA ⟨false, false, false, false, false, false⟩ .fresh
        (markDeleted nearlyFull 12) :=
  leftAsItWas_iff (show romfsOpenR 2 nameA ⟨false, false, false, false, false, false⟩ 0 .fresh
    (markDeleted nearlyFull 12) = some ⟨.error .enoent, _, _⟩ from rfl)

end Elua.Romfs
