import Elua.Romfs.Log
import Mathlib.Data.List.Forall2

/-!
# The image encoder and the readers of a read only file system

`mkfs` emits the bytes of a ROMFS image one by one and pads by its running byte count. The image is
the entries of the files back to back, each padded inside for its size field (`bytes_mkfs`), and an
end marker.

`ReadsBack key files pfs` says that an instance shows a list of files: the entries are those of the
list in its order, lookups find the first file of a name, names being compared by `key`, and the
listing is the list. An image that `mkfs` emits reads back with names compared in their first thirty
bytes, ignoring case (`readsBack_mkfs`), but not with names compared as a whole
(`longer_name_is_found_in_image`).
-/

set_option autoImplicit false
set_option relaxedAutoImplicit false

namespace Elua.Romfs

open Foundation

/-! ### The encoder -/

/-- The longest name that is encoded. -/
def maxlen : ℕ := 30

/-- The alignment of the size fields in the image. -/
def alignment : ℕ := 4

/-- The array being emitted, with the running count of its bytes. -/
structure Output where
  bytecnt : ℕ
  bytes : List UInt8
  bytecnt_eq : bytecnt = bytes.length

/-- Nothing emitted so far. -/
def Output.empty : Output := ⟨0, [], rfl⟩

/-- Emits one byte. -/
def Output.addData (out : Output) (data : UInt8) : Output :=
  ⟨out.bytecnt + 1, out.bytes ++ [data], by simp [out.bytecnt_eq]⟩

/-- Emits bytes one after the other. -/
def Output.addAll (out : Output) (data : List UInt8) : Output := data.foldl Output.addData out

/-- Emits zeros up to a multiple of the alignment. -/
def Output.align (out : Output) : Output :=
  if out.bytecnt % alignment = 0 then out else (out.addData 0).align
termination_by (alignment - out.bytecnt % alignment) % alignment
decreasing_by
  unfold alignment at *
  simp only [Output.addData]
  omega

/-- Emits a file: its name with a zero, padding, its size and its data. A file whose name is too
long is skipped. -/
def Output.addFile (out : Output) (fname : CString) (filedata : List UInt8) : Output :=
  if maxlen < fname.bytes.length then out
  else
    ((((out.addAll fname.bytes).addData 0).align).addAll (leBytes32 filedata.length)).addAll filedata

/-- Emits a list of files. -/
def Output.addFiles (out : Output) (flist : List (CString × List UInt8)) : Output :=
  flist.foldl (fun out file ↦ Output.addFile out file.1 file.2) out

/-- Emits a list of files and the end marker. -/
def mkfs (flist : List (CString × List UInt8)) : Output :=
  (Output.empty.addFiles flist).addData 0xFF

/-! ### The bytes of the image -/

/-- The entry of a file that begins at an address. -/
def romEntryBytes (start : ℕ) (fname : CString) (filedata : List UInt8) : List UInt8 :=
  fname.bytes ++ 0 :: (List.replicate (padLength (start + fname.bytes.length + 1)) 0 ++
    (leBytes32 filedata.length ++ filedata))

/-- The entries of files, the first of which begins at an address. -/
def romBytes : ℕ → List (CString × List UInt8) → List UInt8
  | _, [] => []
  | start, (fname, filedata) :: files =>
    romEntryBytes start fname filedata ++
      romBytes (start + (romEntryBytes start fname filedata).length) files

theorem bytes_addData (out : Output) (data : UInt8) : (out.addData data).bytes = out.bytes ++ [data] :=
  rfl

theorem bytes_addAll (out : Output) (data : List UInt8) :
    (out.addAll data).bytes = out.bytes ++ data := by
  induction data generalizing out with
  | nil => exact (List.append_nil _).symm
  | cons byte data ih =>
    rw [Output.addAll, List.foldl_cons, ← Output.addAll, ih, bytes_addData, List.append_assoc]
    rfl

theorem bytes_align (out : Output) :
    out.align.bytes = out.bytes ++ List.replicate (padLength out.bytes.length) 0 := by
  fun_induction Output.align out with
  | case1 out haligned =>
    rw [out.bytecnt_eq] at haligned
    have hpad : padLength out.bytes.length = 0 := by
      unfold padLength romfsAlign alignment at *
      omega
    rw [hpad, List.replicate_zero, List.append_nil]
  | case2 out hunaligned ih =>
    rw [out.bytecnt_eq] at hunaligned
    have hpad : padLength out.bytes.length = padLength (out.bytes.length + 1) + 1 := by
      unfold padLength romfsAlign alignment at *
      omega
    rw [ih, bytes_addData, List.length_append, List.length_singleton, hpad, List.replicate_succ,
      List.append_assoc, List.singleton_append]

/-- A file whose name is not too long adds its entry. -/
theorem bytes_addFile (out : Output) {fname : CString} (hlength : fname.bytes.length ≤ maxlen)
    (filedata : List UInt8) :
    (out.addFile fname filedata).bytes =
      out.bytes ++ romEntryBytes out.bytes.length fname filedata := by
  rw [Output.addFile, if_neg hlength.not_gt, bytes_addAll, bytes_addAll, bytes_align, bytes_addData,
    bytes_addAll]
  simp only [romEntryBytes, List.length_append, List.length_singleton, List.append_assoc,
    List.nil_append, List.cons_append, Nat.add_assoc]

/-- Files whose names are not too long add their entries. -/
theorem bytes_addFiles (out : Output) {files : List (CString × List UInt8)}
    (hlength : ∀ file ∈ files, file.1.bytes.length ≤ maxlen) :
    (out.addFiles files).bytes = out.bytes ++ romBytes out.bytes.length files := by
  induction files generalizing out with
  | nil => exact (List.append_nil _).symm
  | cons file files ih =>
    obtain ⟨hfile, hfiles⟩ := List.forall_mem_cons.mp hlength
    rw [Output.addFiles, List.foldl_cons, ← Output.addFiles, ih _ hfiles, bytes_addFile _ hfile,
      romBytes, List.append_assoc, List.length_append]

/-- The image is the entries and the end marker. -/
theorem bytes_mkfs {files : List (CString × List UInt8)}
    (hlength : ∀ file ∈ files, file.1.bytes.length ≤ maxlen) :
    (mkfs files).bytes = romBytes 0 files ++ [wofsEndMarkerChar] := by
  rw [mkfs, bytes_addData, bytes_addFiles _ hlength]
  rfl

/-! ### Reading the image -/

section Reading

variable {pfs : Fsdata}

/-- The entry that the scanners see for a file. -/
structure IsEntryOf (pfs : Fsdata) (entry : ScannedEntry) (file : FileName × List UInt8) : Prop where
  name_eq : entry.name = file.1.bytes
  deleted_eq : entry.header.deleted = false
  size_eq : entry.header.size = file.2.length
  data_aligned : entry.header.data % romfsAlign = 0
  contents_eq : segment pfs.image entry.header.data file.2.length = file.2

/-- A list of files as the encoder takes it. -/
def namedFiles (files : List (FileName × List UInt8)) : List (CString × List UInt8) :=
  files.map fun file ↦ (file.1.toCString, file.2)

/-- The bytes of the entries are read as a chain of the entries. -/
theorem exists_entriesFrom_romBytes {before rest : List UInt8}
    {files : List (FileName × List UInt8)} (hwo : pfs.wo = false)
    (hbound : pfs.image.length < 2 ^ 32)
    (himage : pfs.image = before ++ (romBytes before.length (namedFiles files) ++ rest)) :
    ∃ entries, EntriesFrom pfs before.length entries
        (before.length + (romBytes before.length (namedFiles files)).length) ∧
      List.Forall₂ (IsEntryOf pfs) entries files := by
  induction files generalizing before with
  | nil => exact ⟨[], rfl, .nil⟩
  | cons file files ih =>
    obtain ⟨name, filedata⟩ := file
    rw [namedFiles, List.map_cons, ← namedFiles, romBytes, List.append_assoc] at himage
    have hmod := add_padLength_mod (before.length + name.bytes.length + 1)
    have hpad := padLength_lt (before.length + name.bytes.length + 1)
    have hsplit : pfs.image = before ++ (name.bytes ++
        0 :: (List.replicate (padLength (before.length + name.bytes.length + 1)) 0 ++
          (delField pfs false ++ (leBytes32 filedata.length ++ (filedata ++
            (romBytes (before.length + (romEntryBytes before.length name.toCString
              filedata).length) (namedFiles files) ++ rest)))))) := by
      rw [himage, romEntryBytes, delField, hwo]
      simp only [List.append_assoc, List.cons_append, Bool.false_eq_true, if_false, List.nil_append]
    have hlength := congrArg List.length hsplit
    have hdelField : (delField pfs false).length = 0 := by
      rw [delField, hwo]
      rfl
    simp only [List.length_append, List.length_cons, List.length_replicate, length_leBytes32,
      hdelField] at hlength
    have hentry := @entryAt_of_image pfs before name.bytes
      (List.replicate (padLength (before.length + name.bytes.length + 1)) 0) _ false filedata.length
      name.zero_notMem name.length_le name.not_end (by rwa [List.length_replicate])
      (by rwa [List.length_replicate]) (fun hdeleted ↦ by cases hdeleted) (by omega) hsplit hbound
    rw [List.length_replicate, hdelField, Nat.add_zero] at hentry
    have hlengthEntry : (romEntryBytes before.length name.toCString filedata).length =
        name.bytes.length + 1 + padLength (before.length + name.bytes.length + 1) + romfsSizeLen +
          filedata.length := by
      simp only [romEntryBytes, List.length_append, List.length_cons, List.length_replicate,
        length_leBytes32, romfsSizeLen]
      omega
    obtain ⟨entries, hentries, hfiles⟩ := @ih
      (before ++ romEntryBytes before.length name.toCString filedata)
      (by rw [himage, List.append_assoc, List.length_append])
    rw [List.length_append] at hentries
    refine ⟨⟨before.length, name.bytes, _⟩ :: entries, ⟨rfl, hentry, ?_⟩,
      .cons ⟨rfl, rfl, rfl, ?_, ?_⟩ hfiles⟩
    · have hnext : nextEntry pfs ⟨false, filedata.length, before.length + name.bytes.length + 1 +
          padLength (before.length + name.bytes.length + 1) + romfsSizeLen⟩ =
          before.length + (romEntryBytes before.length name.toCString filedata).length := by
        simp only [nextEntry, romfshIsWofs, hwo, Bool.false_eq_true, if_false]
        unfold romfsSizeLen at *
        rw [add32_eq (by omega), hlengthEntry]
        omega
      rw [hnext, namedFiles, List.map_cons, ← namedFiles, romBytes, List.length_append,
        ← Nat.add_assoc]
      exact hentries
    · unfold romfsSizeLen romfsAlign at *
      simp only
      omega
    · have hcontents : pfs.image = (before ++ (name.bytes ++
          0 :: (List.replicate (padLength (before.length + name.bytes.length + 1)) 0 ++
            leBytes32 filedata.length))) ++ (filedata ++
              (romBytes (before.length + (romEntryBytes before.length name.toCString
                filedata).length) (namedFiles files) ++ rest)) := by
        rw [himage, romEntryBytes]
        simp only [List.append_assoc, List.cons_append]
      rw [hcontents]
      refine segment_middle ?_ rfl
      simp only [List.length_append, List.length_cons, List.length_replicate, length_leBytes32,
        romfsSizeLen]
      omega

/-- The first file of a list whose name is taken for a path. -/
def firstNamed (key : List UInt8 → List UInt8) (files : List (FileName × List UInt8))
    (path : List UInt8) : Option (FileName × List UInt8) :=
  files.find? fun file ↦ decide (key path = key file.1.bytes)

/-- Entries and files are searched alike. -/
theorem find?_answers {entries : List ScannedEntry} {files : List (FileName × List UInt8)}
    (hfiles : List.Forall₂ (IsEntryOf pfs) entries files) (path : CString) :
    (entries.find? (·.answers path) = none ∧
        firstNamed (foldedPrefix dmMaxFnameLength) files path.bytes = none) ∨
      ∃ entry file, entries.find? (·.answers path) = some entry ∧
        firstNamed (foldedPrefix dmMaxFnameLength) files path.bytes = some file ∧
        IsEntryOf pfs entry file := by
  unfold firstNamed
  induction hfiles with
  | nil => exact .inl ⟨rfl, rfl⟩
  | @cons entry file entries files hentry hrest ih =>
    have hiff : entry.answers path = true ↔
        foldedPrefix dmMaxFnameLength path.bytes = foldedPrefix dmMaxFnameLength file.1.bytes := by
      rw [ScannedEntry.answers, decide_eq_true_eq, hentry.name_eq, hentry.deleted_eq,
        strncasecmp_eq_zero_iff path.zero_notMem file.1.zero_notMem]
      exact and_iff_left rfl
    by_cases hanswers : entry.answers path = true
    · rw [List.find?_cons_of_pos hanswers, 
        List.find?_cons_of_pos (by simpa only [decide_eq_true_eq] using hiff.mp hanswers)]
      exact .inr ⟨entry, file, rfl, rfl, hentry⟩
    · rw [List.find?_cons_of_neg hanswers,
        List.find?_cons_of_neg (by simpa only [decide_eq_true_eq] using mt hiff.mpr hanswers)]
      exact ih

/-- The instance shows a list of files. -/
structure ReadsBack (key : List UInt8 → List UInt8) (files : List (FileName × List UInt8))
    (pfs : Fsdata) : Prop where
  /-- The entries are those of the files in the order of the list, the data of each file is aligned,
  and behind the last entry is the end marker. -/
  entries : ∃ entries finish, EntriesFrom pfs 0 entries finish ∧ EndsAt pfs finish ∧
    List.Forall₂ (IsEntryOf pfs) entries files
  lookup : ∀ path : CString, ∃ fuel result, romfsOpenFile fuel path pfs = some result ∧
    match firstNamed key files path.bytes with
    | none => result.found = false
    | some file => ∃ baseaddr nameaddr, result = .ok baseaddr file.2.length nameaddr ∧
        baseaddr % romfsAlign = 0 ∧ segment pfs.image baseaddr file.2.length = file.2
  listing : ∃ fuel, readdirAll pfs fuel 0 =
    some (files.map fun file ↦ ⟨file.1.bytes, file.2.length⟩)

/-- The listing of the entries of files. -/
theorem map_dirent {entries : List ScannedEntry} {files : List (FileName × List UInt8)}
    (hfiles : List.Forall₂ (IsEntryOf pfs) entries files) :
    (entries.filter (!·.header.deleted)).map (·.dirent) =
      files.map fun file ↦ ⟨file.1.bytes, file.2.length⟩ := by
  induction hfiles with
  | nil => rfl
  | cons hentry _ ih =>
    rw [List.filter_cons_of_pos (by simp [hentry.deleted_eq]), List.map_cons, List.map_cons, ih,
      ScannedEntry.dirent, hentry.name_eq, hentry.size_eq]

end Reading

/-- The instance of the read only file system that is linked into the program. -/
def romfsFsdata (romfilesFs : List UInt8) : Fsdata where
  direct := true
  wo := false
  writing := false
  maxSize := romfilesFs.length
  image := romfilesFs
  writes := []

/-- What the encoder emits for a list of files reads back, names being compared in their first
thirty bytes, ignoring case. -/
theorem readsBack_mkfs {files : List (FileName × List UInt8)} {pfs : Fsdata} (hwo : pfs.wo = false)
    (himage : pfs.image = (mkfs (namedFiles files)).bytes) (hbound : pfs.image.length < 2 ^ 31) :
    ReadsBack (foldedPrefix dmMaxFnameLength) files pfs := by
  have hlength : ∀ file ∈ namedFiles files, file.1.bytes.length ≤ maxlen := fun file hfile ↦ by
    obtain ⟨named, -, rfl⟩ := List.mem_map.mp hfile
    exact named.1.length_le
  rw [bytes_mkfs hlength] at himage
  obtain ⟨entries, hentries, hfiles⟩ :=
    @exists_entriesFrom_romBytes pfs [] [wofsEndMarkerChar] files hwo (by omega) himage
  rw [List.length_nil, Nat.zero_add] at hentries
  have hend : EndsAt pfs (romBytes 0 (namedFiles files)).length := by
    rw [EndsAt, romfshRead8_of_image himage 0 (Nat.add_zero _).symm]
    rfl
  refine ⟨⟨entries, _, hentries, hend, hfiles⟩, fun path ↦ ?_, ?_⟩
  · refine ⟨_, _, runLoop_romfsOpenFileBody path hentries hend, ?_⟩
    obtain ⟨hnone, hfirst⟩ | ⟨entry, file, hsome, hfirst, hentry⟩ := find?_answers hfiles path
    · rw [hnone, hfirst]
      rfl
    · rw [hsome, hfirst]
      exact ⟨entry.header.data, entry.start,
        congrArg (OpenFileResult.ok entry.header.data · entry.start) hentry.size_eq,
        hentry.data_aligned, hentry.contents_eq⟩
  · rw [← map_dirent hfiles]
    exact exists_readdirAll hentries hend

/-- An image of two files. -/
theorem readsBack_mkfs_two_files :
    ReadsBack (foldedPrefix dmMaxFnameLength)
      [(lettersName 1 (by decide), [1, 2, 3]), (lettersName 2 (by decide), [])]
      (romfsFsdata (mkfs (namedFiles
        [(lettersName 1 (by decide), [1, 2, 3]), (lettersName 2 (by decide), [])])).bytes) := by
  refine readsBack_mkfs rfl rfl ?_
  rw [romfsFsdata, bytes_mkfs (by decide)]
  decide

/-- With names compared as a whole the image does not read back: a path of thirty-one letters finds
the file whose name is the first thirty of them. -/
theorem longer_name_is_found_in_image :
    ∃ files : List (FileName × List UInt8),
      (mkfs (namedFiles files)).bytes.length < 2 ^ 31 ∧
        ¬ReadsBack (List.map tolower) files (romfsFsdata (mkfs (namedFiles files)).bytes) := by
  refine ⟨[(lettersName 30 (by decide), [])], ?_, fun hreads ↦ ?_⟩
  · rw [bytes_mkfs (by decide)]
    decide
  · obtain ⟨fuel, result, hresult, hfound⟩ := hreads.lookup ⟨List.replicate 31 0x61, by decide⟩
    rw [bytes_mkfs (by decide)] at hresult
    have hlookup : romfsOpenFile 1 ⟨List.replicate 31 0x61, by decide⟩
        (romfsFsdata (romBytes 0 (namedFiles [(lettersName 30 (by decide), [])]) ++
          [wofsEndMarkerChar])) = some (.ok 36 0 0) := by rfl
    obtain rfl := runLoop_unique hlookup hresult
    cases hfound

end Elua.Romfs
