import Elua.Romfs.Scan

/-!
# A write once file system as a log of files

A WOFS image is an append-only log: the files that have been closed, in the order of their creation,
each with its deleted mark, then the file that is being written, if there is one, then erased bytes.
`Log` is that content and `Log.bytes` its encoding; `Holds log pfs` says that the instance `pfs`
holds the log, that the free space has not run out, and that every write so far stayed inside the
flash and met erased bytes only.

The four things that happen to a log are done to the image by one write each: `Holds.delete`,
`Holds.start`, `Holds.append` and `Holds.finish`. What lookups and listings find in an image that
holds a log follows from the chain of entries that `entriesFrom_files` reads off its bytes.
-/

set_option autoImplicit false
set_option relaxedAutoImplicit false

namespace Elua.Romfs

open Foundation

/-! ### Names, files and logs -/

/-- A name that an entry can have: it fits into the name field, and its first byte is not the end
marker. -/
structure FileName extends CString where
  length_le : bytes.length ≤ dmMaxFnameLength
  not_end : bytes.head? ≠ some wofsEndMarkerChar
  deriving DecidableEq

/-- A name of equal letters. -/
def lettersName (length : ℕ) (hlength : length ≤ dmMaxFnameLength) : FileName where
  bytes := List.replicate length 0x61
  zero_notMem := fun hmem ↦ absurd (List.eq_of_mem_replicate hmem) (by decide)
  length_le := by rwa [List.length_replicate]
  not_end := by
    cases length with
    | zero => exact nofun
    | succ length => simp [List.replicate_succ, wofsEndMarkerChar]

/-- A file whose entry is complete. -/
structure File where
  name : FileName
  deleted : Bool
  contents : List UInt8
  deriving DecidableEq

/-- The content of a WOFS: the complete files, oldest first, and the name of the file being written
with what has been written to it. -/
structure Log where
  closed : List File
  pending : Option (FileName × List UInt8)
  deriving DecidableEq

/-- Two files that are both alive do not share a name. -/
def Apart (first second : File) : Prop :=
  first.deleted = false → second.deleted = false →
    ¬SameName dmMaxFnameLength first.name.bytes second.name.bytes

/-- The files of a log, that being written last. -/
def Log.files (log : Log) : List File :=
  log.closed ++ log.pending.toList.map fun pending ↦ ⟨pending.1, false, pending.2⟩

/-- The empty log. -/
def Log.empty : Log := ⟨[], none⟩

/-- Marks the file with a name as deleted. -/
def File.delete (path : CString) (file : File) : File :=
  if SameName dmMaxFnameLength path.bytes file.name.bytes then { file with deleted := true }
  else file

/-- Deletes the file with a name. -/
def Log.delete (path : CString) (log : Log) : Log :=
  { log with closed := log.closed.map (·.delete path) }

/-- Begins a new file. -/
def Log.start (name : FileName) (log : Log) : Log := { log with pending := some (name, []) }

/-- Adds data to the file being written. -/
def Log.append (data : List UInt8) (log : Log) : Log :=
  { log with pending := log.pending.map fun pending ↦ (pending.1, pending.2 ++ data) }

/-- Completes the file being written. -/
def Log.finish (log : Log) : Log := ⟨log.files, none⟩

/-! ### The encoding -/

/-- A run of erased bytes. -/
def erased (length : ℕ) : List UInt8 := List.replicate length 0xFF

/-- The number of bytes from an address to the next multiple of the alignment. -/
def padLength (length : ℕ) : ℕ := (romfsAlign - length % romfsAlign) % romfsAlign

/-- The delete word of an entry. -/
def delWord (deleted : Bool) : List UInt8 :=
  [if deleted then wofsFileDeleted else 0xFF, 0xFF, 0xFF, 0xFF]

/-- An entry: the name with its zero, padding, the delete word, the size field and the data. -/
def entryBytes (name : FileName) (deleted : Bool) (size data : List UInt8) : List UInt8 :=
  name.bytes ++ 0 :: (erased (padLength (name.bytes.length + 1)) ++
    (delWord deleted ++ (size ++ data)))

/-- The length of an entry before its data. -/
def headLength (name : FileName) : ℕ :=
  name.bytes.length + 1 + padLength (name.bytes.length + 1) + wofsDelFieldSize + romfsSizeLen

/-- The bytes of a complete file; its data is padded to the alignment. -/
def File.bytes (file : File) : List UInt8 :=
  entryBytes file.name file.deleted (leBytes32 file.contents.length)
    (file.contents ++ erased (padLength file.contents.length))

/-- The bytes of the file being written, whose size field is still erased. -/
def pendingBytes : Option (FileName × List UInt8) → List UInt8
  | none => []
  | some (name, data) => entryBytes name false (erased romfsSizeLen) data

/-- The bytes of a list of complete files. -/
def filesBytes (files : List File) : List UInt8 := files.flatMap File.bytes

/-- The bytes of a log. -/
def Log.bytes (log : Log) : List UInt8 := filesBytes log.closed ++ pendingBytes log.pending

/-- A write stays inside the flash and meets erased bytes only. -/
def FlashWrite.Safe (maxSize : ℕ) (write : FlashWrite) : Prop :=
  write.addr + write.bytes.length ≤ maxSize ∧ write.before = erased write.bytes.length

/-- The instance holds the log. -/
structure Holds (log : Log) (pfs : Fsdata) : Prop where
  wo_eq : pfs.wo = true
  writing_eq : pfs.writing = log.pending.isSome
  maxSize_mod : pfs.maxSize % romfsAlign = 0
  maxSize_lt : pfs.maxSize < 2 ^ 32
  image_eq : pfs.image = log.bytes ++ erased (pfs.maxSize - log.bytes.length)
  /-- The end marker and the padding of the data have their place. -/
  room : log.bytes.length + romfsAlign ≤ pfs.maxSize
  live_apart : log.files.Pairwise Apart
  writes_safe : ∀ write ∈ pfs.writes, write.Safe pfs.maxSize

/-! ### Lengths -/

@[simp] theorem length_erased (length : ℕ) : (erased length).length = length :=
  List.length_replicate

@[simp] theorem length_delWord (deleted : Bool) : (delWord deleted).length = wofsDelFieldSize := rfl

theorem erased_add (first second : ℕ) : erased (first + second) = erased first ++ erased second :=
  List.replicate_add ..

theorem padLength_lt (length : ℕ) : padLength length < romfsAlign := Nat.mod_lt _ (by decide)

theorem add_padLength_mod (length : ℕ) : (length + padLength length) % romfsAlign = 0 := by
  unfold padLength romfsAlign
  omega

theorem headLength_mod (name : FileName) : headLength name % romfsAlign = 0 := by
  have hmod := add_padLength_mod (name.bytes.length + 1)
  unfold headLength wofsDelFieldSize romfsSizeLen
  unfold romfsAlign at *
  omega

theorem length_entryBytes {name : FileName} {deleted : Bool} {size data : List UInt8}
    (hsize : size.length = romfsSizeLen) :
    (entryBytes name deleted size data).length = headLength name + data.length := by
  simp only [entryBytes, headLength, List.length_append, List.length_cons, length_erased,
    length_delWord, hsize]
  omega

theorem length_fileBytes (file : File) :
    file.bytes.length =
      headLength file.name + (file.contents.length + padLength file.contents.length) := by
  rw [File.bytes, length_entryBytes (length_leBytes32 _), List.length_append, length_erased]

theorem filesBytes_append (firsts seconds : List File) :
    filesBytes (firsts ++ seconds) = filesBytes firsts ++ filesBytes seconds :=
  List.flatMap_append

theorem filesBytes_cons (file : File) (files : List File) :
    filesBytes (file :: files) = file.bytes ++ filesBytes files :=
  List.flatMap_cons

theorem filesBytes_singleton (file : File) : filesBytes [file] = file.bytes :=
  List.append_nil _

theorem length_fileBytes_mod (file : File) : file.bytes.length % romfsAlign = 0 := by
  have hhead := headLength_mod file.name
  have hdata := add_padLength_mod file.contents.length
  rw [length_fileBytes]
  unfold romfsAlign at *
  omega

/-- Complete files end at a multiple of the alignment. -/
theorem length_filesBytes_mod (files : List File) : (filesBytes files).length % romfsAlign = 0 := by
  induction files with
  | nil => rfl
  | cons file files ih =>
    have hfile := length_fileBytes_mod file
    rw [filesBytes_cons, List.length_append]
    unfold romfsAlign at *
    omega

/-! ### The chain of entries -/

section Chain

variable {pfs : Fsdata}

/-- The header of a file whose entry begins at an address. -/
def File.header (file : File) (start : ℕ) : Header :=
  ⟨file.deleted, file.contents.length, start + headLength file.name⟩

/-- The entries of complete files, the first of which begins at an address. -/
def scannedFiles : ℕ → List File → List ScannedEntry
  | _, [] => []
  | start, file :: files =>
    ⟨start, file.name.bytes, file.header start⟩ :: scannedFiles (start + file.bytes.length) files

/-- An entry is read where its bytes stand. -/
theorem entryAt_of_entryBytes {before rest data : List UInt8} {name : FileName} {deleted : Bool}
    {size : ℕ} (hwo : pfs.wo = true) (hbound : pfs.image.length < 2 ^ 32)
    (hstart : before.length % romfsAlign = 0) (hsize : size < 2 ^ 32)
    (himage : pfs.image = before ++ (entryBytes name deleted (leBytes32 size) data ++ rest)) :
    EntryAt pfs before.length name.bytes
      ⟨deleted, size, before.length + headLength name⟩ := by
  have hfield : delField pfs deleted = delWord deleted := by
    rw [delField, hwo]
    rfl
  have hmod := add_padLength_mod (name.bytes.length + 1)
  have hpad := padLength_lt (name.bytes.length + 1)
  have hsplit : pfs.image = before ++ (name.bytes ++
      0 :: (erased (padLength (name.bytes.length + 1)) ++
        (delField pfs deleted ++ (leBytes32 size ++ (data ++ rest))))) := by
    rw [himage, entryBytes, hfield]
    simp only [List.append_assoc, List.cons_append]
  have hentry := entryAt_of_image name.zero_notMem name.length_le name.not_end
    (by rwa [length_erased]) (by rw [length_erased]; unfold romfsAlign at *; omega) (fun _ ↦ hwo)
    hsize hsplit hbound
  rw [hfield, length_delWord, length_erased] at hentry
  simpa only [headLength, ← Nat.add_assoc] using hentry

/-- The scanners go from a complete file to the address behind its bytes. -/
theorem nextEntry_file {file : File} {start : ℕ} (hwo : pfs.wo = true)
    (hstart : start % romfsAlign = 0) (hbound : start + file.bytes.length + romfsAlign ≤ 2 ^ 32) :
    nextEntry pfs (file.header start) = start + file.bytes.length := by
  have hhead := headLength_mod file.name
  have hmod := add_padLength_mod file.contents.length
  have hpad := padLength_lt file.contents.length
  rw [length_fileBytes] at *
  unfold romfsAlign at *
  simp only [nextEntry, romfshIsWofs, hwo, if_true, File.header]
  rw [add32_eq (by omega), alignUp4_eq_add (by omega) hpad (by omega)]
  omega

/-- The bytes of complete files are a chain of entries. -/
theorem entriesFrom_files {before rest : List UInt8} {files : List File} (hwo : pfs.wo = true)
    (hbound : pfs.image.length + romfsAlign ≤ 2 ^ 32) (hstart : before.length % romfsAlign = 0)
    (himage : pfs.image = before ++ (filesBytes files ++ rest)) :
    EntriesFrom pfs before.length (scannedFiles before.length files)
      (before.length + (filesBytes files).length) := by
  induction files generalizing before with
  | nil => rfl
  | cons file files ih =>
    rw [filesBytes_cons, List.append_assoc] at himage
    have hlength := congrArg List.length himage
    simp only [List.length_append] at hlength
    have hfile := length_fileBytes file
    have hsplit : pfs.image = (before ++ file.bytes) ++ (filesBytes files ++ rest) := by
      rw [himage, List.append_assoc]
    have hnextMod := length_fileBytes_mod file
    have hnext : (before ++ file.bytes).length % romfsAlign = 0 := by
      rw [List.length_append]
      unfold romfsAlign at *
      omega
    have hrest := ih hnext hsplit
    rw [List.length_append] at hrest
    refine ⟨rfl, ?_, ?_⟩
    · refine entryAt_of_entryBytes hwo ?_ hstart ?_ himage <;> unfold romfsAlign at * <;> omega
    · rw [nextEntry_file hwo hstart (by omega), filesBytes_cons, List.length_append, ← Nat.add_assoc]
      exact hrest

end Chain

/-! ### The four writes -/

section Writes

variable {log : Log} {pfs : Fsdata}

/-- A write that covers a part of the image exactly. -/
theorem writef_of_image {before old rest bytes : List UInt8} {addr : ℕ}
    (himage : pfs.image = before ++ (old ++ rest)) (haddr : addr = before.length)
    (hlength : old.length = bytes.length) :
    pfs.writef bytes addr =
      { pfs with
        image := before ++ (bytes ++ rest)
        writes := pfs.writes ++ [⟨addr, bytes, old⟩] } := by
  rw [Fsdata.writef, himage, overwrite_middle haddr hlength, segment_middle haddr hlength]

/-- A write of erased bytes that turns the encoding of one log into that of another makes the
instance hold that log. -/
theorem Holds.write {next : Log} (hholds : Holds log pfs) (before rest : List UInt8)
    {bytes : List UInt8} {addr : ℕ} (haddr : addr = before.length)
    (himage : log.bytes ++ erased (pfs.maxSize - log.bytes.length) =
      before ++ (erased bytes.length ++ rest))
    (hnext : next.bytes ++ erased (pfs.maxSize - next.bytes.length) = before ++ (bytes ++ rest))
    (hroom : next.bytes.length + romfsAlign ≤ pfs.maxSize)
    (hapart : next.files.Pairwise Apart) :
    Holds next ((pfs.writef bytes addr).setWriting next.pending.isSome) := by
  rw [writef_of_image (hholds.image_eq.trans himage) haddr (length_erased _)]
  refine ⟨hholds.wo_eq, rfl, hholds.maxSize_mod, hholds.maxSize_lt, hnext.symm, hroom, hapart, ?_⟩
  intro write hwrite
  simp only [Fsdata.setWriting, List.mem_append, List.mem_singleton] at hwrite
  obtain hwrite | rfl := hwrite
  · exact hholds.writes_safe write hwrite
  · refine ⟨?_, rfl⟩
    have hlength := congrArg List.length himage
    have hlogRoom := hholds.room
    simp only [List.length_append, length_erased] at hlength
    simp only [Fsdata.setWriting]
    omega

theorem erased_split {first total : ℕ} (hle : first ≤ total) :
    erased total = erased first ++ erased (total - first) := by
  rw [← erased_add, Nat.add_sub_cancel' hle]

/-- Beginning a file writes its name behind the log. -/
theorem Holds.start (hholds : Holds log pfs) (hpending : log.pending = none) {name : FileName}
    (hspace : log.bytes.length + headLength name + romfsAlign ≤ pfs.maxSize)
    (hnew : ∀ file ∈ log.closed, file.deleted = false →
      ¬SameName dmMaxFnameLength file.name.bytes name.bytes) :
    Holds (log.start name)
      ((pfs.writef (name.bytes ++ [0]) log.bytes.length).setWriting true) := by
  obtain ⟨closed, pending⟩ := log
  obtain rfl : pending = none := hpending
  have hbytes : (Log.start name ⟨closed, none⟩).bytes = filesBytes closed ++
      ((name.bytes ++ [0]) ++ erased (padLength (name.bytes.length + 1) + 8)) := by
    simp only [Log.bytes, Log.start, pendingBytes, entryBytes, List.append_assoc,
      List.singleton_append, List.append_nil]
    rw [erased_add (padLength (name.bytes.length + 1)) 8]
    rfl
  have hold : Log.bytes ⟨closed, none⟩ = filesBytes closed := List.append_nil _
  have hlength : (Log.start name ⟨closed, none⟩).bytes.length =
      (filesBytes closed).length + headLength name := by
    rw [hbytes]
    simp only [List.length_append, length_erased, List.length_singleton, headLength,
      wofsDelFieldSize, romfsSizeLen]
    omega
  rw [hold] at hspace ⊢
  have hhead : (name.bytes ++ [0]).length + (padLength (name.bytes.length + 1) + 8) =
      headLength name := by
    simp only [List.length_append, List.length_singleton, headLength, wofsDelFieldSize,
      romfsSizeLen]
    omega
  refine hholds.write (filesBytes closed)
    (erased (pfs.maxSize - (filesBytes closed).length - (name.bytes ++ [0]).length)) rfl
    ?_ ?_ ?_ ?_
  · rw [hold, ← erased_split (by omega)]
  · rw [hlength, hbytes, List.append_assoc, List.append_assoc (name.bytes ++ [0]), ← erased_add]
    congr 3
    omega
  · rw [hlength]
    exact hspace
  · have hclosed := hholds.live_apart
    simp only [Log.files, Log.start, Option.toList_none, Option.toList_some, List.map_nil,
      List.append_nil, List.map_cons] at hclosed ⊢
    refine List.pairwise_append.mpr ⟨hclosed, List.pairwise_singleton _ _, ?_⟩
    intro file hfile started hstarted hlive _
    obtain rfl := List.mem_singleton.mp hstarted
    exact hnew file hfile hlive

/-- Data is written behind the log. -/
theorem Holds.append (hholds : Holds log pfs) {name : FileName} {data more : List UInt8}
    (hpending : log.pending = some (name, data))
    (hspace : log.bytes.length + more.length + romfsAlign ≤ pfs.maxSize) :
    Holds (log.append more) (pfs.writef more log.bytes.length) := by
  obtain ⟨closed, pending⟩ := log
  obtain rfl : pending = some (name, data) := hpending
  have hbytes : (Log.append more ⟨closed, some (name, data)⟩).bytes =
      Log.bytes ⟨closed, some (name, data)⟩ ++ more := by
    simp only [Log.bytes, Log.append, Option.map_some, pendingBytes, entryBytes, List.append_assoc,
      List.cons_append]
  have hsame : (pfs.writef more (Log.bytes ⟨closed, some (name, data)⟩).length).setWriting true =
      pfs.writef more (Log.bytes ⟨closed, some (name, data)⟩).length := by
    rw [Fsdata.setWriting, Fsdata.writef, ← show pfs.writing = true from hholds.writing_eq]
  rw [← hsame]
  refine hholds.write (Log.bytes ⟨closed, some (name, data)⟩)
    (erased (pfs.maxSize - (Log.bytes ⟨closed, some (name, data)⟩).length - more.length)) rfl
    ?_ ?_ ?_ ?_
  · rw [← erased_split (by omega)]
  · rw [hbytes, List.append_assoc, List.length_append, Nat.sub_sub]
  · rw [hbytes, List.length_append]
    exact hspace
  · have hfiles := hholds.live_apart
    simp only [Log.files, Log.append, Option.map_some, Option.toList_some, List.map_cons,
      List.map_nil] at hfiles ⊢
    obtain ⟨hclosed, -, hcross⟩ := List.pairwise_append.mp hfiles
    refine List.pairwise_append.mpr ⟨hclosed, List.pairwise_singleton _ _, ?_⟩
    intro file hfile written hwritten
    obtain rfl := List.mem_singleton.mp hwritten
    exact fun hlive _ ↦ hcross file hfile ⟨name, false, data⟩ (List.mem_singleton.mpr rfl) hlive rfl

/-- The length of a log with a file being written. -/
theorem length_bytes_pending {closed : List File} {name : FileName} {data : List UInt8} :
    (Log.bytes ⟨closed, some (name, data)⟩).length =
      (filesBytes closed).length + headLength name + data.length := by
  rw [Log.bytes, pendingBytes, List.length_append, length_entryBytes (length_erased _),
    Nat.add_assoc]

/-- Closing the file being written writes its size in front of its data. -/
theorem Holds.finish (hholds : Holds log pfs) {name : FileName} {data : List UInt8}
    (hpending : log.pending = some (name, data)) :
    Holds log.finish ((pfs.writef (leBytes32 data.length)
      ((filesBytes log.closed).length + headLength name - romfsSizeLen)).setWriting false) := by
  obtain ⟨closed, pending⟩ := log
  obtain rfl : pending = some (name, data) := hpending
  have hroom := hholds.room
  have hmax := hholds.maxSize_mod
  have hclosedMod := length_filesBytes_mod closed
  have hheadMod := headLength_mod name
  have hdataMod := add_padLength_mod data.length
  have hpad := padLength_lt data.length
  have hbytes : (Log.finish ⟨closed, some (name, data)⟩).bytes =
      filesBytes closed ++ entryBytes name false (leBytes32 data.length)
        (data ++ erased (padLength data.length)) := by
    simp only [Log.finish, Log.files, Log.bytes, pendingBytes, filesBytes_append, List.append_nil,
      Option.toList_some, List.map_cons, List.map_nil, filesBytes_singleton, File.bytes]
  have hlength : (Log.finish ⟨closed, some (name, data)⟩).bytes.length =
      (filesBytes closed).length + headLength name + (data.length + padLength data.length) := by
    rw [hbytes, List.length_append, length_entryBytes (length_leBytes32 _), List.length_append,
      length_erased, Nat.add_assoc]
  rw [length_bytes_pending] at hroom
  unfold romfsAlign at *
  refine hholds.write
    (filesBytes closed ++ (name.bytes ++ 0 :: (erased (padLength (name.bytes.length + 1)) ++
      delWord false)))
    (data ++ erased (pfs.maxSize - (Log.bytes ⟨closed, some (name, data)⟩).length)) ?_ ?_ ?_ ?_ ?_
  · simp only [List.length_append, List.length_cons, length_erased, length_delWord, headLength,
      romfsSizeLen]
    omega
  · simp only [Log.bytes, pendingBytes, entryBytes, List.append_assoc, List.cons_append,
      length_leBytes32, romfsSizeLen]
  · rw [hlength, hbytes, length_bytes_pending]
    simp only [entryBytes, List.append_assoc, List.cons_append]
    rw [← erased_add]
    congr 8
    omega
  · rw [hlength]
    unfold romfsAlign
    omega
  · have hfiles := hholds.live_apart
    simpa only [Log.finish, Log.files, Option.toList_none, List.map_nil, List.append_nil] using hfiles

/-- Deleting a name marks the one file of the log that has it, and no other. -/
theorem map_delete {path : CString} {before after : List File} {file : File}
    (hapart : (before ++ file :: after).Pairwise Apart)
    (hname : SameName dmMaxFnameLength path.bytes file.name.bytes) (hlive : file.deleted = false) :
    (before ++ file :: after).map (·.delete path) =
      before ++ { file with deleted := true } :: after := by
  obtain ⟨-, hafter, hbefore⟩ := List.pairwise_append.mp hapart
  have hself : ∀ other : File, (other.deleted = false →
      ¬SameName dmMaxFnameLength path.bytes other.name.bytes) → other.delete path = other := by
    intro other hother
    unfold File.delete
    split_ifs with hsame
    · cases hdeleted : other.deleted with
      | true => rw [← hdeleted]
      | false => exact absurd hsame (hother hdeleted)
    · rfl
  have hbefore : before.map (·.delete path) = before :=
    (List.map_congr_left fun other hother ↦ hself other fun hotherLive hsame ↦
      hbefore other hother file List.mem_cons_self hotherLive hlive
        (hsame.symm.trans hname)).trans before.map_id
  have hafter : after.map (·.delete path) = after :=
    (List.map_congr_left fun other hother ↦ hself other fun hotherLive hsame ↦
      (List.pairwise_cons.mp hafter).1 other hother hlive hotherLive
        (hname.symm.trans hsame)).trans after.map_id
  rw [List.map_append, List.map_cons, hbefore, hafter, File.delete, if_pos hname]

/-- Marking a file in a log as deleted keeps the other files apart. -/
theorem pairwise_apart_delete {before after : List File} {file : File}
    (hapart : (before ++ file :: after).Pairwise Apart) :
    (before ++ { file with deleted := true } :: after).Pairwise Apart := by
  obtain ⟨hbefore, hafter, hcross⟩ := List.pairwise_append.mp hapart
  refine List.pairwise_append.mpr ⟨hbefore, ?_, fun other hother second hsecond ↦ ?_⟩
  · exact List.pairwise_cons.mpr ⟨fun _ _ hdead ↦ (by cases hdead), (List.pairwise_cons.mp hafter).2⟩
  · obtain rfl | hsecond := List.mem_cons.mp hsecond
    · exact fun _ hdead ↦ by cases hdead
    · exact hcross other hother second (List.mem_cons_of_mem _ hsecond)

/-- Deleting a file writes its delete word, eight bytes before its data. -/
theorem Holds.delete (hholds : Holds log pfs) (hpending : log.pending = none) {path : CString}
    {before after : List File} {file : File} (hclosed : log.closed = before ++ file :: after)
    (hname : SameName dmMaxFnameLength path.bytes file.name.bytes) (hlive : file.deleted = false) :
    Holds (log.delete path) (pfs.writef (delWord true)
      ((filesBytes before).length + headLength file.name - romfsSizeLen - wofsDelFieldSize)) := by
  obtain ⟨closed, pending⟩ := log
  obtain rfl : pending = none := hpending
  obtain rfl : closed = before ++ file :: after := hclosed
  have hfiles := hholds.live_apart
  simp only [Log.files, Option.toList_none, List.map_nil, List.append_nil] at hfiles
  have hdelete : Log.delete path ⟨before ++ file :: after, none⟩ =
      ⟨before ++ { file with deleted := true } :: after, none⟩ := by
    rw [Log.delete, map_delete hfiles hname hlive]
  have hlength : (Log.bytes ⟨before ++ { file with deleted := true } :: after, none⟩).length =
      (Log.bytes ⟨before ++ file :: after, none⟩).length := by
    simp only [Log.bytes, filesBytes_append, filesBytes_cons, List.length_append, length_fileBytes]
  have hsame : ∀ addr, (pfs.writef (delWord true) addr).setWriting false =
      pfs.writef (delWord true) addr := fun addr ↦ by
    rw [Fsdata.setWriting, Fsdata.writef, ← show pfs.writing = false from hholds.writing_eq]
  rw [hdelete, ← hsame]
  refine hholds.write
    (filesBytes before ++ (file.name.bytes ++
      0 :: erased (padLength (file.name.bytes.length + 1))))
    (leBytes32 file.contents.length ++ (file.contents ++ (erased (padLength file.contents.length) ++
      (filesBytes after ++ erased (pfs.maxSize - (Log.bytes ⟨before ++ file :: after,
        none⟩).length))))) ?_ ?_ ?_ ?_ ?_
  · simp only [List.length_append, List.length_cons, length_erased, headLength, romfsSizeLen,
      wofsDelFieldSize]
    omega
  · simp only [Log.bytes, pendingBytes, List.append_nil, filesBytes_append, filesBytes_cons,
      File.bytes, entryBytes, List.append_assoc, List.cons_append, hlive]
    rfl
  · rw [hlength]
    simp only [Log.bytes, pendingBytes, List.append_nil, filesBytes_append, filesBytes_cons,
      File.bytes, entryBytes, List.append_assoc, List.cons_append]
  · rw [hlength]
    exact hholds.room
  · simpa only [Log.files, Option.toList_none, List.map_nil, List.append_nil] using
      pairwise_apart_delete hfiles

end Writes

/-! ### Lookups and listings in a log -/

section Reads

variable {log : Log} {pfs : Fsdata}

/-- Whether a lookup takes a file for the name. -/
def File.Answers (path : CString) (file : File) : Prop :=
  file.deleted = false ∧ SameName dmMaxFnameLength path.bytes file.name.bytes

instance (path : CString) (file : File) : Decidable (file.Answers path) :=
  inferInstanceAs (Decidable (_ ∧ _))

/-- The entry of a file answers to a name when the file does. -/
theorem answers_iff {path : CString} {file : File} {start : ℕ} :
    ScannedEntry.answers path ⟨start, file.name.bytes, file.header start⟩ = true ↔
      file.Answers path := by
  rw [ScannedEntry.answers, decide_eq_true_eq]
  exact (and_congr_left' (strncasecmp_eq_zero_iff path.zero_notMem file.name.zero_notMem)).trans
    and_comm

/-- The search over the entries of complete files is a search over the files. -/
theorem find?_scannedFiles (path : CString) (start : ℕ) (files : List File) :
    ((scannedFiles start files).find? (·.answers path) = none ∧
        ∀ file ∈ files, ¬file.Answers path) ∨
      ∃ before file after, files = before ++ file :: after ∧ file.Answers path ∧
        (scannedFiles start files).find? (·.answers path) =
          some ⟨start + (filesBytes before).length, file.name.bytes,
            file.header (start + (filesBytes before).length)⟩ := by
  induction files generalizing start with
  | nil => exact .inl ⟨rfl, by simp⟩
  | cons file files ih =>
    by_cases hanswers : file.Answers path
    · refine .inr ⟨[], file, files, rfl, hanswers, ?_⟩
      rw [scannedFiles, List.find?_cons_of_pos (answers_iff.mpr hanswers)]
      rfl
    · rw [scannedFiles, List.find?_cons_of_neg (fun h ↦ hanswers (answers_iff.mp h))]
      obtain ⟨hnone, hother⟩ | ⟨before, found, after, rfl, hfound, hsome⟩ :=
        ih (start + file.bytes.length)
      · exact .inl ⟨hnone, List.forall_mem_cons.mpr ⟨hanswers, hother⟩⟩
      · refine .inr ⟨file :: before, found, after, rfl, hfound, ?_⟩
        rw [hsome, filesBytes_cons, List.length_append, Nat.add_assoc]

/-- The image is as long as the flash. -/
theorem Holds.length_image (hholds : Holds log pfs) : pfs.image.length = pfs.maxSize := by
  have hroom := hholds.room
  rw [hholds.image_eq, List.length_append, length_erased]
  omega

/-- The room that the multiple of the alignment leaves below the end of the address space. -/
theorem Holds.image_bound (hholds : Holds log pfs) : pfs.image.length + romfsAlign ≤ 2 ^ 32 := by
  have hmod := hholds.maxSize_mod
  have hlt := hholds.maxSize_lt
  rw [hholds.length_image]
  unfold romfsAlign at *
  omega

/-- The complete files are the entries from the start of the image. -/
theorem Holds.entriesFrom (hholds : Holds log pfs) :
    EntriesFrom pfs 0 (scannedFiles 0 log.closed) (filesBytes log.closed).length := by
  have himage : pfs.image = [] ++ (filesBytes log.closed ++
      (pendingBytes log.pending ++ erased (pfs.maxSize - log.bytes.length))) := by
    rw [hholds.image_eq, Log.bytes, List.nil_append, List.append_assoc]
  have hentries := entriesFrom_files hholds.wo_eq hholds.image_bound rfl himage
  simpa only [List.length_nil, Nat.zero_add] using hentries

/-- Behind the log stands an end marker. -/
theorem Holds.endsAt (hholds : Holds log pfs) : EndsAt pfs log.bytes.length := by
  have hroom := hholds.room
  obtain ⟨free, hfree⟩ := Nat.exists_eq_add_of_le hroom
  rw [EndsAt, romfshRead8_of_image hholds.image_eq 0 (Nat.add_zero _).symm, hfree, Nat.add_assoc,
    Nat.add_sub_cancel_left, Nat.add_comm]
  rfl

theorem bytes_of_pending_none (hpending : log.pending = none) :
    log.bytes = filesBytes log.closed := by
  rw [Log.bytes, hpending]
  exact List.append_nil _

/-- What a lookup finds while no file is being written: the one file that answers to the name, or
the end of the log. -/
theorem Holds.lookup (hholds : Holds log pfs) (hpending : log.pending = none) (path : CString) :
    ∃ fuel lookup, romfsOpenFile fuel path pfs = some lookup ∧
      ((lookup = .notFound (filesBytes log.closed).length ∧
          ∀ file ∈ log.closed, ¬file.Answers path) ∨
        ∃ before file after, log.closed = before ++ file :: after ∧ file.Answers path ∧
          lookup = .ok ((filesBytes before).length + headLength file.name) file.contents.length
            (filesBytes before).length) := by
  have hend := bytes_of_pending_none hpending ▸ hholds.endsAt
  refine ⟨_, _, runLoop_romfsOpenFileBody path hholds.entriesFrom hend, ?_⟩
  obtain ⟨hnone, hother⟩ | ⟨before, file, after, hclosed, hanswers, hsome⟩ :=
    find?_scannedFiles path 0 log.closed
  · rw [hnone]
    exact .inl ⟨rfl, hother⟩
  · rw [hsome]
    refine .inr ⟨before, file, after, hclosed, hanswers, ?_⟩
    simp only [File.header, Nat.zero_add]

end Reads

end Elua.Romfs
