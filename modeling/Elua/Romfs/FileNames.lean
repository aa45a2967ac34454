import Elua.Devman.Registry
import Elua.Romfs.ScanSoundness
import Elua.Romfs.Sessions

/-!
# Which names can be read back

`writeFile` opens a file by any path, writes buffers to it and closes it. `FileReadsBack` says that
the result can be used: the file is found with what was written to it, the other files are found as
before, every name that the directory reader meets ends within its buffer, and both scanners go
through the image at the same addresses.

The open accepts every path. A file that it creates reads back exactly when its name fits into the
name buffer and does not begin with the end marker (`fileReadsBack_iff`).
-/

set_option autoImplicit false
set_option relaxedAutoImplicit false

namespace Elua.Romfs

open Foundation TransitionSystem

/-- Opens a file, writes buffers to it and closes it: the bytes that the writes accepted, and what
is left behind. The open has to succeed. -/
def writeFile (fuel : ℕ) (path : CString) (flags : OpenFlags) (junk : ℕ)
    (buffers : List (List UInt8)) (table : FdTable) (pfs : Fsdata) :
    Option (List UInt8 × FdTable × Fsdata) :=
  (romfsOpenR fuel path flags junk table pfs).bind fun outcome ↦
    match outcome.result with
    | .error _ => none
    | .ok fd =>
      (writeAll fd buffers outcome.table outcome.pfs).map fun written ↦
        (written.1, romfsCloseR fd written.2.1 written.2.2)

/-- After a file was written, it and the files that were there before can be read back. -/
structure FileReadsBack (before after : Fsdata) (path : CString) (accepted : List UInt8) :
    Prop where
  found : ∃ fuel baseaddr nameaddr,
    romfsOpenFile fuel path after = some (.ok baseaddr accepted.length nameaddr) ∧
      segment after.image baseaddr accepted.length = accepted
  others : ∀ other : CString, ¬SameName dmMaxFnameLength other.bytes path.bytes →
    ∀ fuel baseaddr size nameaddr,
      romfsOpenFile fuel other before = some (.ok baseaddr size nameaddr) →
        (∃ more, romfsOpenFile more other after = some (.ok baseaddr size nameaddr)) ∧
          segment after.image baseaddr size = segment before.image baseaddr size
  /-- Every name that the directory reader copies has its zero within the buffer. -/
  inside : ∀ off, ReaddirReaches after 0 off → ¬EndsAt after off →
    ∃ name, readName after off (dmMaxFnameLength + 1) = some name ∧
      name.length ≤ dmMaxFnameLength
  lookup_begins : ∀ path off, Visits (romfsOpenFileBody path after) 0 off →
    ReaddirReaches after 0 off
  missing_begins : ∀ path fuel last, romfsOpenFile fuel path after = some (.notFound last) →
    ∀ off, ReaddirReaches after 0 off → Visits (romfsOpenFileBody path after) 0 off

/-! ### A file with a proper name -/

section Proper

variable {log : Log} {pfs : Fsdata} {path : CString}

/-- At most one of the files that are apart answers to a name. -/
theorem split_eq_of_answers {before rest firsts seconds : List File} {file other : File}
    (hapart : (before ++ file :: rest).Pairwise Apart)
    (hsplit : before ++ file :: rest = firsts ++ other :: seconds)
    (hfile : file.Answers path) (hother : other.Answers path) : before = firsts ∧ file = other := by
  have hclash : ∀ first second : File, first.Answers path → second.Answers path →
      ¬Apart first second := fun first second hfirst hsecond hdistinct ↦
    hdistinct hfirst.1 hsecond.1 (hfirst.2.symm.trans hsecond.2)
  rcases List.append_eq_append_iff.mp hsplit with ⟨middle, rfl, htail⟩ | ⟨middle, rfl, htail⟩
  · cases middle with
    | nil => exact ⟨(List.append_nil _).symm, (List.cons.inj htail).1⟩
    | cons head middle =>
      obtain ⟨rfl, rfl⟩ := List.cons.inj htail
      have htail := List.pairwise_cons.mp (List.pairwise_append.mp hapart).2.1
      refine absurd (htail.1 other ?_) (hclash file other hfile hother)
      exact List.mem_append_right _ List.mem_cons_self
  · cases middle with
    | nil => exact ⟨List.append_nil _, (List.cons.inj htail).1.symm⟩
    | cons head middle =>
      obtain ⟨rfl, -⟩ := List.cons.inj htail
      have hcross := (List.pairwise_append.mp hapart).2.2
      refine absurd (hcross other ?_ file List.mem_cons_self) (hclash other file hother hfile)
      exact List.mem_append_right _ List.mem_cons_self

/-- A file that answers to a name is found. -/
theorem Holds.found_file (hholds : Holds log pfs) (hpending : log.pending = none)
    {before rest : List File} {file : File} (hclosed : log.closed = before ++ file :: rest)
    (hanswers : file.Answers path) :
    ∃ fuel, romfsOpenFile fuel path pfs =
      some (.ok ((filesBytes before).length + headLength file.name) file.contents.length
        (filesBytes before).length) := by
  have hfiles := hholds.live_apart
  rw [Log.files, hpending, Option.toList_none, List.map_nil, List.append_nil, hclosed] at hfiles
  rcases hholds.lookup hpending path with
    ⟨fuel, lookup, hlookup, ⟨rfl, hnone⟩ | ⟨firsts, other, seconds, hsplit, hother, rfl⟩⟩
  · refine absurd hanswers (hnone file ?_)
    rw [hclosed]
    exact List.mem_append_right _ List.mem_cons_self
  · obtain ⟨rfl, rfl⟩ := split_eq_of_answers hfiles (hclosed.symm.trans hsplit) hanswers hother
    exact ⟨fuel, hlookup⟩

/-- While no file is being written, the names that the directory reader meets end within its
buffer. -/
theorem Holds.names_inside (hholds : Holds log pfs) (hpending : log.pending = none) {off : ℕ}
    (hreaches : ReaddirReaches pfs 0 off) (hgoes : ¬EndsAt pfs off) :
    ∃ name, readName pfs off (dmMaxFnameLength + 1) = some name ∧
      name.length ≤ dmMaxFnameLength := by
  have hend := bytes_of_pending_none hpending ▸ hholds.endsAt
  rcases (readdirReaches_iff hholds.entriesFrom hend).mp hreaches with hmem | rfl
  · obtain ⟨entry, hentry, rfl⟩ := List.mem_map.mp hmem
    have hat := hholds.entriesFrom.entryAt hentry
    exact ⟨entry.name, hat.name_eq _ (Nat.le_succ_of_le hat.length_le), hat.length_le⟩
  · exact absurd hend hgoes

/-- While no file is being written, both scanners go through the image at the same addresses, the
lookup as far as the name it looks for. -/
theorem Holds.scanners_agree (hholds : Holds log pfs) (hpending : log.pending = none)
    (path : CString) (off : ℕ) :
    (Visits (romfsOpenFileBody path pfs) 0 off → ReaddirReaches pfs 0 off) ∧
      ∀ fuel last, romfsOpenFile fuel path pfs = some (.notFound last) →
        ReaddirReaches pfs 0 off → Visits (romfsOpenFileBody path pfs) 0 off := by
  have hchain := hholds.entriesFrom
  have hend := bytes_of_pending_none hpending ▸ hholds.endsAt
  have hiff := @readdirReaches_iff pfs 0 (filesBytes log.closed).length off
    (scannedFiles 0 log.closed) hchain hend
  constructor
  · intro hvisits
    exact hiff.mpr (mem_starts_of_visits hchain hend hvisits)
  · intro fuel last hmissing hreaches
    refine visits_of_not_answers hchain ?_ (hiff.mp hreaches)
    have hlookup := runLoop_romfsOpenFileBody path hchain hend
    have hresult := runLoop_unique hmissing hlookup
    split at hresult
    case h_1 => cases hresult
    case h_2 hnone => exact List.find?_eq_none.mp hnone

/-- A log with a new file behind those that were there reads back. -/
theorem Holds.fileReadsBack {after : Fsdata} {accepted : List UInt8} (hholds : Holds log pfs)
    (hpending : log.pending = none) (hname : IsFileName path)
    (hafter : Holds ⟨(log.delete path).closed ++ [⟨⟨path, hname.1, hname.2⟩, false, accepted⟩],
      none⟩ after) : FileReadsBack pfs after path accepted where
  found := by
    obtain ⟨fuel, hfound⟩ := @Holds.found_file _ after path hafter rfl _ _ _ rfl ⟨rfl, .rfl⟩
    exact ⟨fuel, _, _, hfound, hafter.segment_contents rfl⟩
  others := by
    intro other hother fuel baseaddr size nameaddr hlookup
    obtain ⟨more, result, hresult, ⟨rfl, -⟩ | ⟨before, file, rest, hclosed, hanswers, rfl⟩⟩ :=
      hholds.lookup hpending other
    · cases runLoop_unique hlookup hresult
    · obtain ⟨rfl, rfl, rfl⟩ :=
        OpenFileResult.ok.inj (runLoop_unique hlookup hresult)
      have hkept : file.delete path = file :=
        if_neg fun hsame ↦ hother (hanswers.2.trans hsame.symm)
      have hsplit : (log.delete path).closed ++ [⟨⟨path, hname.1, hname.2⟩, false, accepted⟩] =
          before.map (·.delete path) ++ file ::
            (rest.map (·.delete path) ++ [⟨⟨path, hname.1, hname.2⟩, false, accepted⟩]) := by
        rw [Log.delete, hclosed, List.map_append, List.map_cons, hkept, List.append_assoc,
          List.cons_append]
      have hlength : (filesBytes (before.map (·.delete path))).length =
          (filesBytes before).length := length_filesBytes_delete path ⟨before, none⟩
      obtain ⟨final, hfinal⟩ := hafter.found_file rfl hsplit hanswers
      have hcontents := hafter.segment_contents hsplit
      rw [hlength] at hfinal hcontents
      exact ⟨⟨final, hfinal⟩, hcontents.trans (hholds.segment_contents hclosed).symm⟩
  inside := fun _ hreaches hgoes ↦ hafter.names_inside rfl hreaches hgoes
  lookup_begins := fun path off ↦ (hafter.scanners_agree rfl path off).1
  missing_begins := fun path fuel last hmissing off ↦
    (hafter.scanners_agree rfl path off).2 fuel last hmissing

end Proper

/-! ### A file with any name -/

section Improper

variable {front : List UInt8} {pfs : Fsdata} {table : FdTable} {fd : Fin totalMaxFds}

/-- A descriptor writes behind the front of the image, and inside the flash. -/
structure WritesBehind (front : List UInt8) (file : Fd) (pfs : Fsdata) : Prop where
  wo_eq : pfs.wo = true
  image_eq : ∃ rest, pfs.image = front ++ rest
  length_image : pfs.image.length = pfs.maxSize
  size_field : front.length + romfsSizeLen ≤ file.baseaddr
  room : file.baseaddr + file.size + romfsAlign ≤ pfs.maxSize
  maxSize_lt : pfs.maxSize < 2 ^ 32

/-- A write behind the front of an image keeps the front. -/
theorem exists_front_writef {bytes : List UInt8} {addr : ℕ}
    (himage : ∃ rest, pfs.image = front ++ rest) (haddr : front.length ≤ addr) :
    ∃ rest, (pfs.writef bytes addr).image = front ++ rest := by
  obtain ⟨rest, hrest⟩ := himage
  obtain ⟨index, rfl⟩ := Nat.exists_eq_add_of_le haddr
  exact ⟨overwrite rest index bytes, by rw [Fsdata.writef, hrest, overwrite_append_left]⟩

/-- A write goes behind the front. -/
theorem WritesBehind.romfsWriteR (hbehind : WritesBehind front (table.fds fd) pfs)
    {data : List UInt8} (hfits : data.length + pfs.maxSize ≤ 2 ^ 32) {outcome : Outcome ℕ}
    (hwrite : romfsWriteR fd data table pfs = some outcome) :
    WritesBehind front (outcome.table.fds fd) outcome.pfs ∧ outcome.pfs.maxSize = pfs.maxSize := by
  have hseek : WritesBehind front (table.fds fd).seekForWrite pfs := by
    unfold Fd.seekForWrite
    split
    · exact ⟨hbehind.1, hbehind.2, hbehind.3, hbehind.4, hbehind.5, hbehind.6⟩
    · exact hbehind
  generalize hfile : (table.fds fd).seekForWrite = file at hseek
  have hfield := hseek.size_field
  have hroom := hseek.room
  have hlt := hseek.maxSize_lt
  unfold romfsSizeLen at hfield
  unfold romfsAlign at hroom
  unfold Romfs.romfsWriteR at hwrite
  simp only [hfile] at hwrite
  split_ifs at hwrite with hwritable hend hlength
  · obtain rfl := Option.some.inj hwrite
    have haddr : add32 file.offset file.baseaddr = file.baseaddr + file.size := by
      rw [hend, add32_eq (by omega), Nat.add_comm]
    have hbound : file.baseaddr + file.size + writeLength file data.length pfs + 4 ≤
        pfs.maxSize := by
      have hfree : sub32 (sub32 pfs.maxSize (file.baseaddr + file.size)) 4 =
          pfs.maxSize - (file.baseaddr + file.size) - 4 := sub32_sub32 (by omega)
      rw [writeLength, add32_eq (show file.baseaddr + file.size < 2 ^ 32 by omega),
        add32_eq (by omega), romfsAlign, hfree, sub32_eq (by omega)]
      split_ifs <;> omega
    have hsize : add32 file.size (writeLength file data.length pfs) =
        file.size + writeLength file data.length pfs := add32_eq (by omega)
    refine ⟨⟨hseek.wo_eq, ?_, ?_, ?_, ?_, hlt⟩, rfl⟩
    · exact exists_front_writef hseek.image_eq (by omega)
    · exact (length_overwrite _ _ _).trans hseek.length_image
    · simpa only [FdTable.set, Function.update_self] using hseek.size_field
    · simp only [FdTable.set, Function.update_self, hsize, romfsAlign]
      exact (congrArg (· + 4) (Nat.add_assoc ..)).symm.trans_le hbound
  · obtain rfl := Option.some.inj hwrite
    refine ⟨?_, rfl⟩
    simpa only [FdTable.set, Function.update_self] using hseek
  · obtain rfl := Option.some.inj hwrite
    exact ⟨hbehind, rfl⟩

/-- All writes go behind the front. -/
theorem WritesBehind.writeAll (hbehind : WritesBehind front (table.fds fd) pfs)
    {buffers : List (List UInt8)}
    (hfits : ∀ buffer ∈ buffers, buffer.length + pfs.maxSize ≤ 2 ^ 32)
    {accepted : List UInt8} {table' : FdTable} {pfs' : Fsdata}
    (hwrites : writeAll fd buffers table pfs = some (accepted, table', pfs')) :
    WritesBehind front (table'.fds fd) pfs' ∧ pfs'.maxSize = pfs.maxSize := by
  induction buffers generalizing accepted table pfs with
  | nil =>
    obtain ⟨-, rfl, rfl⟩ : _ ∧ _ ∧ _ := by simpa [Romfs.writeAll] using hwrites
    exact ⟨hbehind, rfl⟩
  | cons buffer buffers ih =>
    obtain ⟨hbuffer, hrest⟩ := List.forall_mem_cons.mp hfits
    rw [Romfs.writeAll] at hwrites
    obtain ⟨outcome, hwrite, hwrites⟩ := Option.bind_eq_some_iff.mp hwrites
    simp only at hwrites
    obtain ⟨⟨more, table'', pfs''⟩, hmore, heq⟩ := Option.map_eq_some_iff.mp hwrites
    obtain ⟨-, rfl, rfl⟩ : _ ∧ table'' = table' ∧ pfs'' = pfs' := by simpa using heq
    obtain ⟨hnext, hmaxSize⟩ := hbehind.romfsWriteR hbuffer hwrite
    obtain ⟨hlast, hmaxSize'⟩ := ih hnext (hmaxSize ▸ hrest) hmore
    exact ⟨hlast, hmaxSize'.trans hmaxSize⟩

/-- A close writes the size behind the front. -/
theorem WritesBehind.romfsCloseR (hbehind : WritesBehind front (table.fds fd) pfs) :
    (∃ rest, (romfsCloseR fd table pfs).2.image = front ++ rest) ∧
      (romfsCloseR fd table pfs).2.image.length = pfs.maxSize ∧
        (romfsCloseR fd table pfs).2.wo = true := by
  have hfield := hbehind.size_field
  have hroom := hbehind.room
  have hlt := hbehind.maxSize_lt
  unfold Romfs.romfsCloseR
  simp only
  split_ifs
  · refine ⟨exists_front_writef hbehind.image_eq ?_, ?_, hbehind.wo_eq⟩
    · rw [sub32_eq (by omega)]
      omega
    · exact (length_overwrite _ _ _).trans hbehind.length_image
  · exact ⟨hbehind.image_eq, hbehind.length_image, hbehind.wo_eq⟩

/-- A file whose name begins with the end marker is not found, and one with a longer name overruns
the buffer of the directory reader. -/
theorem not_fileReadsBack {before after : Fsdata} {path : CString} {accepted rest : List UInt8}
    {files : List File} (hwo : after.wo = true)
    (hbound : after.image.length + romfsAlign ≤ 2 ^ 32)
    (himage : after.image = filesBytes files ++ (path.bytes ++ rest))
    (hnone : ∀ file ∈ files, ¬file.Answers path) (hname : ¬IsFileName path) :
    ¬FileReadsBack before after path accepted := by
  intro hreads
  have hchain := @entriesFrom_files after [] (path.bytes ++ rest) files hwo hbound rfl himage
  simp only [List.length_nil, Nat.zero_add] at hchain
  have hlength := congrArg List.length himage
  simp only [List.length_append] at hlength
  unfold romfsAlign at hbound
  by_cases hmarker : path.bytes.head? = some wofsEndMarkerChar
  · have hend : EndsAt after (filesBytes files).length := by
      rw [EndsAt, romfshRead8_of_image himage 0 (Nat.add_zero _).symm]
      cases hbytes : path.bytes with
      | nil => simp [hbytes] at hmarker
      | cons byte bytes => simpa [hbytes] using hmarker
    obtain ⟨fuel, baseaddr, nameaddr, hfound, -⟩ := hreads.found
    have hresult := runLoop_unique hfound (runLoop_romfsOpenFileBody path hchain hend)
    rcases find?_scannedFiles path 0 files with
      ⟨hmissing, -⟩ | ⟨firsts, file, seconds, rfl, hanswers, -⟩
    · rw [hmissing] at hresult
      cases hresult
    · exact hnone file (List.mem_append_right _ List.mem_cons_self) hanswers
  · have hlong : dmMaxFnameLength < path.bytes.length :=
      Nat.lt_of_not_le fun hle ↦ hname ⟨hle, hmarker⟩
    obtain ⟨name, hread, hinside⟩ := hreads.inside _ (readdirReaches_of_entriesFrom hchain) (by
      rw [EndsAt, romfshRead8_of_image himage 0 (Nat.add_zero _).symm]
      cases hbytes : path.bytes with
      | nil => simp [hbytes] at hlong
      | cons byte bytes => simpa [hbytes] using hmarker)
    have htake : (path.bytes.take (dmMaxFnameLength + 1)).length = dmMaxFnameLength + 1 := by
      rw [List.length_take, Nat.min_eq_left hlong]
    have hsplit : after.image = filesBytes files ++ (path.bytes.take (dmMaxFnameLength + 1) ++
        (path.bytes.drop (dmMaxFnameLength + 1) ++ rest)) := by
      rw [himage, ← List.append_assoc (List.take _ _), List.take_append_drop]
    have hcopied := readName_of_prefix hsplit
      (fun hmem ↦ path.zero_notMem (List.mem_of_mem_take hmem)) (by rw [htake]; omega)
    rw [htake, hread] at hcopied
    rw [Option.some.inj hcopied, htake] at hinside
    exact absurd hinside (Nat.not_succ_le_self _)

/-- A file that was created under any name is written behind its name. -/
theorem Holds.writesBehind {log : Log} (hholds : Holds log pfs) (hpending : log.pending = none)
    {path : CString} (hspace : lacksSpace pfs path (filesBytes log.closed).length = false)
    (lflags : FileFlags) :
    WritesBehind (filesBytes log.closed ++ (path.bytes ++ [0]))
      ⟨dataAddress path (filesBytes log.closed).length, 0, 0, lflags⟩
      ((pfs.writef (path.bytes ++ [0]) (filesBytes log.closed).length).setWriting true) := by
  have himage := hholds.image_eq
  have hroom := hholds.room
  have hmaxMod := hholds.maxSize_mod
  have hmaxLt := hholds.maxSize_lt
  have hdataMod := dataAddress_mod path (filesBytes log.closed).length
  rw [bytes_of_pending_none hpending] at himage hroom
  generalize hlength : (filesBytes log.closed).length = firstfree at *
  have hpad := padLength_lt (firstfree + (path.strlen + 1))
  have hpadMod := add_padLength_mod (firstfree + (path.strlen + 1))
  rw [lacksSpace, decide_eq_false_iff_not, Nat.not_lt] at hspace
  unfold romfsAlign at *
  rw [sub32_eq (by omega), add32_eq (by omega)] at hspace
  unfold wofsMinNeededSize wofsDelFieldSize at hspace
  have hdata : dataAddress path firstfree =
      firstfree + (path.strlen + 1) + padLength (firstfree + (path.strlen + 1)) + 8 := by
    have hend : add32 firstfree (path.strlen + 1) = firstfree + (path.strlen + 1) :=
      add32_eq (by omega)
    rw [dataAddress, hend, alignUp4_eq_add (by omega) hpad (by omega)]
    exact add32_eq (by unfold romfsSizeLen wofsDelFieldSize; omega)
  have hname : (path.bytes ++ [0]).length = path.strlen + 1 := List.length_append
  refine ⟨hholds.wo_eq, ?_, ?_, ?_, ?_, hmaxLt⟩
  · refine ⟨erased (pfs.maxSize - firstfree - (path.bytes ++ [0]).length), ?_⟩
    rw [Fsdata.setWriting, Fsdata.writef]
    simp only
    rw [himage, erased_split (show (path.bytes ++ [0]).length ≤ pfs.maxSize - firstfree by omega),
      overwrite_middle hlength.symm (length_erased _),
      List.append_assoc (filesBytes log.closed)]
  · exact (length_overwrite _ _ _).trans hholds.length_image
  · rw [List.length_append, hname, hlength]
    simp only [romfsSizeLen]
    omega
  · simp only [Nat.add_zero, romfsAlign]
    exact show dataAddress path firstfree + 4 ≤ pfs.maxSize by omega

end Improper

/-! ### The names that read back -/

/-- A file that was created, written and closed reads back exactly when its name is proper. -/
theorem Holds.fileReadsBack_iff_isFileName {log : Log} {pfs after : Fsdata} {path : CString}
    {table table' : FdTable} {fd : Fin totalMaxFds} {buffers : List (List UInt8)}
    {accepted : List UInt8} {fuel junk : ℕ} {lookup probe : OpenFileResult} {lflags : FileFlags}
    (hholds : Holds log pfs) (hpending : log.pending = none)
    (hlookup : romfsOpenFile fuel path pfs = some lookup)
    (hprobe : romfsOpenFile fuel invalidName (Romfs.invalidateOld pfs lookup) = some probe)
    (hreserved : Found pfs path → Found pfs invalidName → path = invalidName)
    (hspace : lacksSpace (Romfs.invalidateOld pfs lookup) path (probe.last (lookup.last junk)) =
      false)
    (hwritable : lflags.writable = true)
    (hfits : ∀ buffer ∈ buffers, buffer.length + pfs.maxSize ≤ 2 ^ 32)
    (hwrites : Romfs.writeAll fd buffers
      (table.install fd ⟨dataAddress path (probe.last (lookup.last junk)), 0, 0, lflags⟩)
      (((Romfs.invalidateOld pfs lookup).writef (path.bytes ++ [0])
        (probe.last (lookup.last junk))).setWriting true) = some (accepted, table', after)) :
    FileReadsBack pfs (Romfs.romfsCloseR fd table' after).2 path accepted ↔ IsFileName path := by
  have hdeleted := hholds.invalidateOld hpending hlookup
  have hmaxSize : (Romfs.invalidateOld pfs lookup).maxSize = pfs.maxSize := by
    cases lookup <;> rfl
  rw [← hmaxSize] at hfits
  have hinstalled : ∀ file, (table.install fd file).fds fd = file := fun file ↦ by
    simp only [FdTable.install, FdTable.set, Function.update_self]
  constructor
  · intro hreads
    by_contra hname
    have hfree := hholds.firstfree hpending hlookup hprobe hreserved junk
    rw [← length_filesBytes_delete path] at hfree
    rw [hfree] at hspace hwrites
    have hbehind := hdeleted.writesBehind hpending hspace lflags
    rw [← hinstalled ⟨_, 0, 0, lflags⟩] at hbehind
    obtain ⟨hlast, hmaxSize'⟩ := hbehind.writeAll hfits hwrites
    obtain ⟨⟨rest, himage⟩, hlength, hwo⟩ := hlast.romfsCloseR
    rw [List.append_assoc, List.append_assoc] at himage
    refine not_fileReadsBack hwo ?_ himage (not_answers_delete path log) hname hreads
    rw [hlength, hmaxSize']
    exact hdeleted.length_image ▸ hdeleted.image_bound
  · intro hname
    obtain ⟨hstart, hwriter⟩ := hholds.created hpending hlookup hprobe hname hreserved rfl
      hspace lflags
    rw [← hinstalled ⟨_, 0, 0, lflags⟩] at hwriter
    obtain ⟨bytes, last, pfs', hall, hholdsAll, hwriterAll, hwritableAll⟩ :=
      hstart.writeAll hwriter (by rw [hinstalled, hwritable]) hfits
    obtain ⟨rfl, rfl, rfl⟩ : bytes = accepted ∧ last = table' ∧ pfs' = after := by
      simpa using hall.symm.trans hwrites
    refine hholds.fileReadsBack hpending hname ?_
    have hfinished := hholdsAll.romfsCloseR hwriterAll hwritableAll
    rw [Log.startPath, dif_pos hname] at hfinished
    exact hfinished

/-- Let a WOFS be reached by orderly calls, and let a file be created by any path, with write
access, written and closed. Unless a file is replaced while another one has the reserved name, the
result reads back exactly when the path has at most thirty bytes and does not begin with the end
marker. -/
theorem fileReadsBack_iff {Instance : Type*} [DecidableEq Instance] {world : World Instance}
    (hreach : (fsSystem Instance).ReachableUnder OrderlyUse world) {inst : Instance}
    {fuel junk : ℕ} {path : CString} {flags : OpenFlags} {buffers : List (List UInt8)}
    (hwritable : (decodeAccess flags).writable = true)
    (hreserved : Found (world.fs inst) path → Found (world.fs inst) invalidName →
      path = invalidName)
    (hfits : ∀ buffer ∈ buffers, buffer.length + (world.fs inst).maxSize ≤ 2 ^ 32)
    {accepted : List UInt8} {table : FdTable} {after : Fsdata}
    (hwrite : writeFile fuel path flags junk buffers world.table (world.fs inst) =
      some (accepted, table, after)) :
    FileReadsBack (world.fs inst) after path accepted ↔ IsFileName path := by
  obtain ⟨outcome, hopen, hwrite⟩ := Option.bind_eq_some_iff.mp hwrite
  split at hwrite
  case h_1 => cases hwrite
  case h_2 fd hok =>
    obtain ⟨⟨bytes, table', pfs'⟩, hwrites, heq⟩ := Option.map_eq_some_iff.mp hwrite
    obtain ⟨rfl, hclose⟩ := Prod.mk.inj heq
    obtain rfl : (romfsCloseR fd table' pfs').2 = after := congrArg Prod.snd hclose
    cases openCase_of_romfsOpenR hopen with
    | tableFull => cases hok
    | refused => cases hok
    | notFound => cases hok
    | noSlot => cases hok
    | opened hlookup hdecode hslot =>
      -- write access to a file that is not created is refused
      obtain ⟨-, -, haccess, hmust, -⟩ := decodeOpen_eq_ok_iff.mp hdecode
      rw [(haccess hwritable).1] at hmust
      cases hmust
    | creationFailed => cases hok
    | created hroom hlookup hdecode hprobe hspace hslot =>
      obtain rfl := Except.ok.inj hok
      obtain ⟨hholds, hpending, -⟩ := (orderly_of_orderlyUse hreach).idle hwritable hdecode
      obtain ⟨-, -, -, -, rfl⟩ := decodeOpen_eq_ok_iff.mp hdecode
      exact hholds.fileReadsBack_iff_isFileName hpending hlookup hprobe hreserved hspace hwritable
        hfits hwrites

/-- The open for writing that creates a file. -/
def createForWriting : OpenFlags := ⟨true, false, false, true, false, false⟩

/-- A second file `b` reads back. -/
theorem fileReadsBack_iff_second_file :
    ∃ world accepted table after, runEvents (fsStep 3) (.blank 64) oneFile = some world ∧
      writeFile 4 ⟨[0x62], by decide⟩ createForWriting 0 [[3, 4, 5]] world.table (world.fs ()) =
        some (accepted, table, after) ∧
      (FileReadsBack (world.fs ()) after ⟨[0x62], by decide⟩ accepted ↔
        IsFileName ⟨[0x62], by decide⟩) := by
  have hrun : (runEvents (fsStep 3) (.blank 64) oneFile).map (fun world ↦
      ((writeFile 4 ⟨[0x62], by decide⟩ createForWriting 0 [[3, 4, 5]] world.table
        (world.fs ())).isSome, (world.fs ()).maxSize,
        romfsOpenFile 2 ⟨[0x62], by decide⟩ (world.fs ()))) =
        some (true, 64, some (.notFound 16)) := by rfl
  obtain ⟨world, hworld, hstate⟩ := Option.map_eq_some_iff.mp hrun
  simp only [Prod.mk.injEq] at hstate
  obtain ⟨hwritten, hsize, hmissing⟩ := hstate
  obtain ⟨⟨accepted, table, after⟩, hwrite⟩ := Option.isSome_iff_exists.mp hwritten
  refine ⟨world, accepted, table, after, hworld, hwrite,
    fileReadsBack_iff (reachableUnder_oneFile hworld) rfl ?_ ?_ hwrite⟩
  · rintro ⟨fuel, baseaddr, size, nameaddr, hfound⟩ _
    cases runLoop_unique hfound hmissing
  · intro buffer hmem
    rw [List.mem_singleton.mp hmem, hsize]
    decide

/-- The device `/wo` alone. -/
def onlyWofs : Devman.DmList Unit Unit :=
  (Devman.dmRegister .empty (some ⟨[0x2F, 0x77, 0x6F], by decide⟩) () (some fun _ ↦ some ())).2

/-- Under `/wo/`, a name of thirty-one letters and one that begins with the end marker are let
through to the open. On a blank flash each file is created, written and closed. Listing the first
overruns the name buffer, and the second is not found. -/
theorem improper_names_are_created :
    (∀ name ∈ [⟨List.replicate 31 0x61, by decide⟩, ⟨[0xFF, 0x61], by decide⟩],
      ∃ path : CString, path.bytes = [0x2F, 0x77, 0x6F, 0x2F] ++ name.bytes ∧
        Devman.findDmEntry onlyWofs path = some (0, name.bytes) ∧
        ∃ accepted table after, writeFile 3 name createForWriting 0 [[1, 2]]
            (World.blank 64).table ((World.blank 64).fs ()) = some (accepted, table, after) ∧
          accepted = [1, 2] ∧ ¬FileReadsBack ((World.blank 64).fs ()) after name accepted) ∧
    (fsSystem Unit).ReachableUnder OrderlyUse (World.blank 64) := by
  refine ⟨?_, .start (fsInitial_blank (by decide) (by decide) (by decide))⟩
  simp only [List.forall_mem_cons, List.not_mem_nil, false_imp_iff, implies_true, and_true]
  constructor
  · refine ⟨⟨[0x2F, 0x77, 0x6F, 0x2F] ++ List.replicate 31 0x61, by decide⟩, rfl, by decide, ?_⟩
    have hrun : (writeFile 3 ⟨List.replicate 31 0x61, by decide⟩ createForWriting 0 [[1, 2]]
        (World.blank 64).table ((World.blank 64).fs ())).map (fun written ↦ (written.1,
          romfshRead8 0 written.2.2, readName written.2.2 0 (dmMaxFnameLength + 1))) =
        some ([1, 2], some 0x61, some (List.replicate 31 0x61)) := by rfl
    obtain ⟨⟨accepted, table, after⟩, hwrite, hstate⟩ := Option.map_eq_some_iff.mp hrun
    simp only [Prod.mk.injEq] at hstate
    obtain ⟨haccepted, hfirst, hname⟩ := hstate
    refine ⟨accepted, table, after, hwrite, haccepted, fun hreads ↦ ?_⟩
    obtain ⟨name, hread, hinside⟩ := hreads.inside 0 .refl (by
      rw [EndsAt, hfirst]
      decide)
    rw [hname] at hread
    rw [← Option.some.inj hread] at hinside
    exact absurd hinside (by decide)
  · refine ⟨⟨[0x2F, 0x77, 0x6F, 0x2F, 0xFF, 0x61], by decide⟩, rfl, by decide, ?_⟩
    have hrun : (writeFile 3 ⟨[0xFF, 0x61], by decide⟩ createForWriting 0 [[1, 2]]
        (World.blank 64).table ((World.blank 64).fs ())).map (fun written ↦ (written.1,
          romfsOpenFile 1 ⟨[0xFF, 0x61], by decide⟩ written.2.2)) =
        some ([1, 2], some (.notFound 0)) := by rfl
    obtain ⟨⟨accepted, table, after⟩, hwrite, hstate⟩ := Option.map_eq_some_iff.mp hrun
    obtain ⟨haccepted, hmissing⟩ := Prod.mk.inj hstate
    refine ⟨accepted, table, after, hwrite, haccepted, fun hreads ↦ ?_⟩
    obtain ⟨fuel, baseaddr, nameaddr, hfound, -⟩ := hreads.found
    cases runLoop_unique hfound hmissing

end Elua.Romfs
