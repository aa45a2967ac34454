import Elua.Romfs.LogRefinement

/-!
# Scanning the directory while a file is being written

The size of a file is only written when it is closed, so the scanners read the entry of the file
being written with an erased size. Their address arithmetic wraps, and they go on at the first byte
of its data (`nextEntry_erased`).

`ScanSound` says what lookups and listings have to do in every state: end inside the image, find and
list the complete files that are not deleted, with their sizes and contents, and parse nothing but
entries. A state of an orderly run is sound exactly when the data written so far does not begin with
a byte other than the end marker (`scanSound_iff`); otherwise the data is parsed as an entry, and
`data_is_found_as_a_file` finds a file in it that does not exist.
-/

set_option autoImplicit false
set_option relaxedAutoImplicit false

namespace Elua.Romfs

open Foundation TransitionSystem

/-! ### What the scanners have to do -/

/-- The entries of a log: those of the complete files, then that of the file being written, whose
size reads as erased. -/
def Log.scanned (log : Log) : List ScannedEntry :=
  scannedFiles 0 log.closed ++ log.pending.toList.map fun pending ↦
    ⟨(filesBytes log.closed).length, pending.1.bytes,
      ⟨false, erasedWord, (filesBytes log.closed).length + headLength pending.1⟩⟩

/-- Where the scanners go behind the last entry. -/
def Log.scanEnd (log : Log) : ℕ :=
  (filesBytes log.closed).length + (log.pending.map fun pending ↦ headLength pending.1).getD 0

/-- The directory entries of the files that are not deleted, that being written last. -/
def Log.listing (log : Log) : List DmDirent :=
  (log.closed.filter (!·.deleted)).map (fun file ↦ ⟨file.name.bytes, file.contents.length⟩) ++
    log.pending.toList.map fun pending ↦ ⟨pending.1.bytes, erasedWord⟩

/-- A lookup finds a file with its size and its contents, or the file being written, or it finds
nothing because there is no file of that name. -/
def LookupSound (log : Log) (pfs : Fsdata) (path : CString) : OpenFileResult → Prop
  | .ok baseaddr size _ =>
    (∃ file ∈ log.closed, file.Answers path ∧ size = file.contents.length ∧
        segment pfs.image baseaddr size = file.contents) ∨
      ((∀ file ∈ log.closed, ¬file.Answers path) ∧ ∃ pending ∈ log.pending,
        SameName dmMaxFnameLength path.bytes pending.1.bytes)
  | .notFound _ =>
    (∀ file ∈ log.closed, ¬file.Answers path) ∧ ∀ pending ∈ log.pending,
      ¬SameName dmMaxFnameLength path.bytes pending.1.bytes

/-- Lookups and listings end inside the image, give what the log says, and parse nothing but the
entries of the log before they read an end marker. -/
structure ScanSound (log : Log) (pfs : Fsdata) : Prop where
  lookup : ∀ path, ∃ fuel result, romfsOpenFile fuel path pfs = some result ∧
    LookupSound log pfs path result
  listing : ∃ fuel, readdirAll pfs fuel 0 = some log.listing
  lookup_parses : ∀ path visited, Visits (romfsOpenFileBody path pfs) 0 visited →
    visited ∈ log.scanned.map (·.start) ∨ EndsAt pfs visited
  listing_parses : ∀ visited, ReaddirReaches pfs 0 visited →
    visited ∈ log.scanned.map (·.start) ∨ EndsAt pfs visited

/-- No file is being written, or nothing has been written to it, or the first byte written to it is
the end marker. -/
def Log.ScanStops (log : Log) : Prop :=
  ∀ pending ∈ log.pending, ∀ byte ∈ pending.2.head?, byte = wofsEndMarkerChar

/-! ### The chain of entries -/

/-- Behind an entry with an erased size the scanners go on at its data. -/
theorem nextEntry_erased {pfs : Fsdata} {deleted : Bool} {data : ℕ} (hwo : pfs.wo = true)
    (hpos : 0 < data) (hlt : data + romfsAlign ≤ 2 ^ 32) (hmod : data % romfsAlign = 0) :
    nextEntry pfs ⟨deleted, erasedWord, data⟩ = data := by
  unfold romfsAlign at *
  have hwrap : add32 data erasedWord = data - 1 := by
    unfold add32 erasedWord
    omega
  simp only [nextEntry, romfshIsWofs, hwo, if_true, hwrap]
  have hround : alignUp4 (data - 1) = data - 1 + 1 :=
    alignUp4_eq_add (by omega) (by omega) (by omega)
  rw [hround, Nat.sub_add_cancel hpos]

section Chain

variable {log : Log} {pfs : Fsdata}

/-- The image as the bytes before the data of the file being written, that data, and erased bytes.
-/
theorem Holds.image_pending (hholds : Holds log pfs) {name : FileName} {data : List UInt8}
    (hpending : log.pending = some (name, data)) :
    ∃ head : List UInt8, head.length = log.scanEnd ∧
      pfs.image = head ++ (data ++ erased (pfs.maxSize - log.bytes.length)) := by
  refine ⟨filesBytes log.closed ++ entryBytes name false (erased romfsSizeLen) [], ?_, ?_⟩
  · rw [List.length_append, length_entryBytes (length_erased _), Log.scanEnd, hpending]
    rfl
  · rw [hholds.image_eq, Log.bytes, hpending]
    simp only [pendingBytes, entryBytes, List.append_assoc, List.cons_append, List.append_nil]

/-- The entry of the file being written reads as one with an erased size. -/
theorem Holds.entryAt_pending (hholds : Holds log pfs) {name : FileName} {data : List UInt8}
    (hpending : log.pending = some (name, data)) :
    EntryAt pfs (filesBytes log.closed).length name.bytes
      ⟨false, erasedWord, (filesBytes log.closed).length + headLength name⟩ := by
  have himage : pfs.image = filesBytes log.closed ++ (entryBytes name false
      (leBytes32 erasedWord) data ++ erased (pfs.maxSize - log.bytes.length)) := by
    rw [hholds.image_eq, Log.bytes, List.append_assoc, hpending]
    rfl
  exact entryAt_of_entryBytes hholds.wo_eq
    (Nat.lt_of_lt_of_le (Nat.lt_add_of_pos_right (by decide)) hholds.image_bound)
    (length_filesBytes_mod log.closed) (by decide) himage

/-- The entries of the log are a chain that ends where the scanners go behind the last one. -/
theorem Holds.entriesFrom_scanned (hholds : Holds log pfs) :
    EntriesFrom pfs 0 log.scanned log.scanEnd := by
  have hclosed := hholds.entriesFrom
  obtain ⟨closed, pending⟩ := log
  cases pending with
  | none =>
    simpa only [Log.scanned, Log.scanEnd, Option.toList_none, List.map_nil, List.append_nil,
      Option.map_none, Option.getD_none, Nat.add_zero] using hclosed
  | some pending =>
    obtain ⟨name, data⟩ := pending
    refine hclosed.append ⟨rfl, hholds.entryAt_pending rfl, ?_⟩
    have hroom := hholds.room
    have hbound := hholds.image_bound
    have hclosedMod := length_filesBytes_mod closed
    have hheadMod := headLength_mod name
    rw [length_bytes_pending] at hroom
    rw [hholds.length_image] at hbound
    have hpos : 0 < headLength name := by
      unfold headLength
      omega
    have hdataMod : ((filesBytes closed).length + headLength name) % romfsAlign = 0 := by
      unfold romfsAlign at *
      omega
    exact nextEntry_erased hholds.wo_eq (Nat.add_pos_right _ hpos)
      (show (filesBytes closed).length + headLength name + romfsAlign ≤ 2 ^ 32 by omega) hdataMod

/-- The scanners stop behind the last entry exactly when the data there looks like the end. -/
theorem Holds.endsAt_scanEnd_iff (hholds : Holds log pfs) :
    EndsAt pfs log.scanEnd ↔ log.ScanStops := by
  cases hpending : log.pending with
  | none =>
    have hend := hholds.endsAt
    rw [bytes_of_pending_none hpending] at hend
    refine iff_of_true ?_ fun pending hmem ↦ by simp [hpending] at hmem
    simpa only [Log.scanEnd, hpending, Option.map_none, Option.getD_none, Nat.add_zero] using hend
  | some pending =>
    obtain ⟨name, data⟩ := pending
    obtain ⟨head, hhead, himage⟩ := hholds.image_pending hpending
    have hroom := hholds.room
    rw [EndsAt, romfshRead8_of_image himage 0 hhead.symm, Log.ScanStops, hpending]
    cases data with
    | nil =>
      refine iff_of_true ?_ (by simp)
      obtain ⟨free, hfree⟩ := Nat.exists_eq_add_of_le hroom
      rw [hfree, Nat.add_assoc, Nat.add_sub_cancel_left, Nat.add_comm]
      rfl
    | cons byte data => simp

/-- Complete entries begin before the end of their bytes. -/
theorem start_lt_of_mem_scannedFiles {start : ℕ} {files : List File} {entry : ScannedEntry}
    (hentry : entry ∈ scannedFiles start files) : entry.start < start + (filesBytes files).length := by
  induction files generalizing start with
  | nil => cases hentry
  | cons file files ih =>
    have hlength := length_fileBytes file
    have hhead : 0 < headLength file.name := by
      unfold headLength
      omega
    rw [filesBytes_cons, List.length_append]
    obtain rfl | hentry := List.mem_cons.mp hentry
    · simp only
      omega
    · have hrest := ih hentry
      omega

/-- The data of the file being written is not an entry of the log. -/
theorem scanEnd_notMem {pending : FileName × List UInt8} (hpending : log.pending = some pending) :
    log.scanEnd ∉ log.scanned.map (·.start) := by
  have hend : log.scanEnd = (filesBytes log.closed).length + headLength pending.1 := by
    rw [Log.scanEnd, hpending]
    rfl
  have hhead : 0 < headLength pending.1 := by
    unfold headLength
    omega
  intro hmem
  obtain ⟨entry, hentry, hstart⟩ := List.mem_map.mp hmem
  rw [Log.scanned, hpending, List.mem_append, Option.toList_some, List.map_singleton,
    List.mem_singleton] at hentry
  obtain hentry | rfl := hentry
  · have hlt := start_lt_of_mem_scannedFiles hentry
    omega
  · simp only at hstart
    omega

/-- The contents of a complete file stand behind its header. -/
theorem Holds.segment_contents (hholds : Holds log pfs) {before after : List File} {file : File}
    (hclosed : log.closed = before ++ file :: after) :
    segment pfs.image ((filesBytes before).length + headLength file.name) file.contents.length =
      file.contents := by
  have himage : pfs.image =
      (filesBytes before ++ entryBytes file.name file.deleted (leBytes32 file.contents.length) []) ++
        (file.contents ++ (erased (padLength file.contents.length) ++ (filesBytes after ++
          (pendingBytes log.pending ++ erased (pfs.maxSize - log.bytes.length))))) := by
    rw [hholds.image_eq, Log.bytes, hclosed, filesBytes_append, filesBytes_cons, File.bytes]
    simp only [entryBytes, List.append_assoc, List.cons_append, List.append_nil]
  rw [himage]
  refine segment_middle ?_ rfl
  rw [List.length_append, length_entryBytes (length_leBytes32 _)]
  rfl

end Chain

/-! ### Soundness -/

section Soundness

variable {log : Log} {pfs : Fsdata}

/-- The lookup of a state in which the scanners stop behind the last entry. -/
theorem Holds.lookupSound (hholds : Holds log pfs) (hstops : log.ScanStops) (path : CString) :
    ∃ fuel result, romfsOpenFile fuel path pfs = some result ∧ LookupSound log pfs path result := by
  have hend := hholds.endsAt_scanEnd_iff.mpr hstops
  refine ⟨_, _, runLoop_romfsOpenFileBody path hholds.entriesFrom_scanned hend, ?_⟩
  rw [Log.scanned, List.find?_append]
  obtain ⟨hnone, hother⟩ | ⟨before, file, after, hclosed, hanswers, hsome⟩ :=
    find?_scannedFiles path 0 log.closed
  · rw [hnone, Option.none_or]
    cases hpending : log.pending with
    | none => exact ⟨hother, fun pending hmem ↦ by simp [hpending] at hmem⟩
    | some pending =>
      rw [Option.toList_some, List.map_singleton]
      have hiff := @answers_iff path ⟨pending.1, false, []⟩ (filesBytes log.closed).length
      by_cases hname : SameName dmMaxFnameLength path.bytes pending.1.bytes
      · rw [List.find?_cons_of_pos]
        · exact .inr ⟨hother, pending, hpending, hname⟩
        · exact hiff.mpr ⟨rfl, hname⟩
      · rw [List.find?_cons_of_neg]
        · refine ⟨hother, fun other hmem ↦ ?_⟩
          rw [hpending] at hmem
          exact Option.some.inj hmem ▸ hname
        · exact fun hanswers ↦ hname (hiff.mp hanswers).2
  · rw [hsome, Option.some_or]
    refine .inl ⟨file, ?_, hanswers, rfl, ?_⟩
    · rw [hclosed]
      exact List.mem_append_right _ List.mem_cons_self
    · simpa only [File.header, Nat.zero_add] using hholds.segment_contents hclosed

/-- The directory entries of the scanned entries that are not deleted are the listing. -/
theorem listing_eq (log : Log) :
    (log.scanned.filter (!·.header.deleted)).map (·.dirent) = log.listing := by
  have hclosed : ∀ start files,
      ((scannedFiles start files).filter (!·.header.deleted)).map (·.dirent) =
        (files.filter (!·.deleted)).map fun file ↦ ⟨file.name.bytes, file.contents.length⟩ := by
    intro start files
    induction files generalizing start with
    | nil => rfl
    | cons file files ih =>
      cases hdeleted : file.deleted with
      | true =>
        rw [scannedFiles, List.filter_cons_of_neg (by simp [File.header, hdeleted]), ih,
          List.filter_cons_of_neg (by simp [hdeleted])]
      | false =>
        rw [scannedFiles, List.filter_cons_of_pos (by simp [File.header, hdeleted]), List.map_cons,
          ih, List.filter_cons_of_pos (by simp [hdeleted]), List.map_cons]
        rfl
  rw [Log.scanned, Log.listing, List.filter_append, List.map_append, hclosed]
  congr 1
  cases log.pending <;> rfl

/-- A state is sound exactly when the scanners stop behind the last entry. -/
theorem Holds.scanSound_iff_scanStops (hholds : Holds log pfs) : ScanSound log pfs ↔ log.ScanStops := by
  have hchain := hholds.entriesFrom_scanned
  constructor
  · intro hsound
    by_contra hstops
    have hnotEnd := mt hholds.endsAt_scanEnd_iff.mp hstops
    cases hpending : log.pending with
    | none => exact hstops fun pending hmem ↦ by simp [hpending] at hmem
    | some pending =>
      exact (hsound.listing_parses _ (readdirReaches_of_entriesFrom hchain)).elim
        (scanEnd_notMem hpending) hnotEnd
  · intro hstops
    have hend := hholds.endsAt_scanEnd_iff.mpr hstops
    refine ⟨hholds.lookupSound hstops, ?_, fun path visited hvisits ↦ ?_, fun visited hreaches ↦ ?_⟩
    · rw [← listing_eq]
      exact exists_readdirAll hchain hend
    · exact (mem_starts_of_visits hchain hend hvisits).imp_right fun heq ↦ by rwa [heq]
    · exact ((readdirReaches_iff hchain hend).mp hreaches).imp_right fun heq ↦ by rwa [heq]

end Soundness

/-- In every state of every run of orderly calls, the scanners of a WOFS are sound exactly when no
file is being written, or what has been written to it so far does not begin with a byte other than
the end marker. -/
theorem scanSound_iff {Instance : Type*} [DecidableEq Instance] (world : World Instance)
    (hreach : (fsSystem Instance).ReachableUnder OrderlyUse world) (inst : Instance)
    (hwo : (world.fs inst).wo = true) :
    ScanSound (world.log inst) (world.fs inst) ↔ (world.log inst).ScanStops :=
  ((orderly_of_orderlyUse hreach).holds inst hwo).scanSound_iff_scanStops

/-- While a file is open to which nothing has been written, the directory can be scanned. -/
theorem scanSound_iff_new_file :
    ∃ world, runEvents (fsStep 3) (.blank 32)
        [.open () ⟨[0x61], by decide⟩ ⟨true, false, false, true, false, false⟩ 0] = some world ∧
      (ScanSound (world.log ()) (world.fs ()) ↔ (world.log ()).ScanStops) := by
  have hrun : (runEvents (fsStep 3) (.blank 32)
      [.open () ⟨[0x61], by decide⟩ ⟨true, false, false, true, false, false⟩ 0]).map
      (fun world ↦ (world.fs ()).wo) = some true := by rfl
  obtain ⟨world, hworld, hwo⟩ := Option.map_eq_some_iff.mp hrun
  refine ⟨world, hworld, scanSound_iff world
    (reachableUnder_of_blank hworld (by decide) (by decide) (by decide) ?_) () hwo⟩
  simp only [List.forall_mem_cons, List.not_mem_nil, false_imp_iff, implies_true, and_true]
  exact fun state ↦ ⟨.open rfl (by decide), .open_of_not_trunc rfl⟩

/-- A file `a` is being written, and its data so far looks like the entry of an empty file `b`. A
lookup of `b` finds it, although no such file was ever created. -/
theorem data_is_found_as_a_file :
    ∃ world, (fsSystem Unit).Reachable world ∧ (world.fs ()).wo = true ∧
      romfsOpenFile 3 ⟨[0x62], by decide⟩ (world.fs ()) = some (.ok 24 0 12) ∧
      ¬ScanSound (world.log ()) (world.fs ()) := by
  have hrun : (runEvents (fsStep 3) (.blank 64)
      [.open () ⟨[0x61], by decide⟩ ⟨true, false, false, true, false, false⟩ 0,
        .write 0 ([0x62, 0, 0xFF, 0xFF] ++ erased 4 ++ [0, 0, 0, 0])]).map
      (fun world ↦ ((world.fs ()).wo, (world.log ()).closed,
        (world.log ()).pending.map (·.1.bytes),
        romfsOpenFile 3 ⟨[0x62], by decide⟩ (world.fs ()))) =
        some (true, [], some [0x61], some (.ok 24 0 12)) := by rfl
  obtain ⟨world, hworld, hstate⟩ := Option.map_eq_some_iff.mp hrun
  simp only [Prod.mk.injEq] at hstate
  obtain ⟨hwo, hclosed, hpending, hlookup⟩ := hstate
  refine ⟨world, reachableUnder_of_blank hworld (by decide) (by decide) (by decide)
    (fun _ _ _ ↦ trivial), hwo, hlookup, fun hsound ↦ ?_⟩
  obtain ⟨fuel, result, hresult, hfound⟩ := hsound.lookup ⟨[0x62], by decide⟩
  obtain rfl := runLoop_unique hlookup hresult
  obtain ⟨file, hfile, -⟩ | ⟨-, pending, hmem, hname⟩ := hfound
  · rw [hclosed] at hfile
    cases hfile
  · rw [Option.mem_def.mp hmem, Option.map_some, Option.some.injEq] at hpending
    rw [hpending] at hname
    exact absurd hname (by decide)

end Elua.Romfs
