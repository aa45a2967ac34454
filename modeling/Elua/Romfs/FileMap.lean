import Elua.Romfs.ScanSoundness
import Elua.Romfs.Sessions

/-!
# A write once file system is a map from names to contents

`WriteOnceMap key history pfs` says that an instance shows exactly the latest versions of a history
of sessions, names being compared by `key`: lookups find the latest version of a name where its
session put it, reads return its bytes, and the listing has the latest version of every name once.

Names are compared in their first thirty bytes, ignoring case. With that comparison every run of
sessions whose buffers fit into the address space keeps the instance a map of its history
(`writeOnceMap_of_sessions`). With names compared as a whole it does not: a longer path finds a file
whose name it begins with (`longer_name_is_found`).
-/

set_option autoImplicit false
set_option relaxedAutoImplicit false

namespace Elua.Romfs

open Foundation TransitionSystem

/-! ### What a map has to do -/

/-- The number of bytes that a history of sessions takes. -/
def historyLength (history : List (FileName × List UInt8)) : ℕ :=
  (filesBytes (history.map fun entry ↦ ⟨entry.1, false, entry.2⟩)).length

section Map

variable (key : List UInt8 → List UInt8) (history : List (FileName × List UInt8))

/-- What was stored last under a name. -/
def latestVersion (name : List UInt8) : Option (FileName × List UInt8) :=
  latest (fun stored : FileName ↦ key stored.bytes) (key name) history

/-- A lookup finds the latest version of the name, where its session put it, or nothing if nothing
was stored under the name. -/
def LookupGives (pfs : Fsdata) (path : List UInt8) (result : OpenFileResult) : Prop :=
  match latestVersion key history path with
  | none => result.found = false
  | some entry => ∃ before after, history = before ++ entry :: after ∧
      (∀ later ∈ after, key later.1.bytes ≠ key path) ∧
      result = .ok (historyLength before + headLength entry.1) entry.2.length
        (historyLength before) ∧
      segment pfs.image (historyLength before + headLength entry.1) entry.2.length = entry.2

/-- The instance shows the latest versions of the history, and nothing else. -/
structure WriteOnceMap (pfs : Fsdata) : Prop where
  lookup : ∀ path : CString, ∃ fuel result, romfsOpenFile fuel path pfs = some result ∧
    LookupGives key history pfs path.bytes result
  /-- What is read from a file that was opened for reading is the latest version of its name. -/
  read : ∀ fuel (path : CString) flags junk table outcome fd lens, flags.ReadOnly →
    romfsOpenR fuel path flags junk table pfs = some outcome → outcome.result = .ok fd →
      ∃ entry after, latestVersion key history path.bytes = some entry ∧
        readAll fd lens outcome.table outcome.pfs = some (entry.2.take lens.sum, after)
  listing : ∃ fuel listed, readdirAll pfs fuel 0 = some listed ∧
    listed.Pairwise (fun first second ↦ key first.fname ≠ key second.fname) ∧
    ∀ dirent, dirent ∈ listed ↔ ∃ entry : FileName × List UInt8,
      latestVersion key history entry.1.bytes = some entry ∧
        dirent = ⟨entry.1.bytes, entry.2.length⟩

end Map

/-- Every proper session whose buffers fit has a result if its open succeeds, and its open ends. -/
def NeverStuck (state : SessionState) : Prop :=
  ∀ name flags junk buffers, ProperSession state (.write name flags junk buffers) →
    BuffersFit state (.write name flags junk buffers) →
      ∃ fuel outcome,
        romfsOpenR fuel name.toCString flags junk state.table state.pfs = some outcome ∧
          ∀ fd, outcome.result = .ok fd →
            ∃ after, writeSession fuel state name flags junk buffers = some after

/-! ### Reading a file -/

section Reading

variable {pfs : Fsdata} {contents : List UInt8}

/-- A read inside the contents of a file. -/
theorem segment_contents_from {baseaddr offset : ℕ} (len : ℕ)
    (hcontents : segment pfs.image baseaddr contents.length = contents)
    (hoffset : offset ≤ contents.length) (hbound : pfs.image.length < 2 ^ 32) :
    segment pfs.image (add32 offset baseaddr) (min len (contents.length - offset)) =
      (contents.drop offset).take len := by
  by_cases hempty : contents.length - offset = 0
  · rw [hempty, Nat.min_zero, List.drop_eq_nil_of_le (Nat.sub_eq_zero_iff_le.mp hempty),
      List.take_nil]
    rfl
  · have hlength := congrArg List.length hcontents
    rw [length_segment] at hlength
    rw [add32_eq (by omega)]
    conv_rhs => rw [← hcontents]
    simp only [Foundation.segment, List.drop_take, List.drop_drop, List.take_take]
    rw [Nat.add_comm]

/-- Reads return the contents from the file pointer on. -/
theorem exists_readAll {fd : Fin totalMaxFds} {table : FdTable} (lens : List ℕ)
    (hread : (table.fds fd).flags.read = true)
    (hcontents : segment pfs.image (table.fds fd).baseaddr contents.length = contents)
    (hsize : (table.fds fd).size = contents.length)
    (hoffset : (table.fds fd).offset ≤ contents.length) (hbound : pfs.image.length < 2 ^ 32) :
    ∃ after, readAll fd lens table pfs =
      some ((contents.drop (table.fds fd).offset).take lens.sum, after) := by
  induction lens generalizing table with
  | nil => exact ⟨_, rfl⟩
  | cons len lens ih =>
    have hlength := congrArg List.length hcontents
    rw [length_segment] at hlength
    have hfile : contents.length < 2 ^ 32 := by omega
    have hleft : sub32 (table.fds fd).size (table.fds fd).offset =
        contents.length - (table.fds fd).offset := by
      rw [hsize, sub32_eq hoffset]
    have hbytes := segment_contents_from len hcontents hoffset hbound
    have htake : ((contents.drop (table.fds fd).offset).take len).length =
        min len (contents.length - (table.fds fd).offset) := by
      rw [List.length_take, List.length_drop]
    have hresult : romfsReadR fd len table pfs =
        some ⟨.ok ((contents.drop (table.fds fd).offset).take len),
          table.set fd { table.fds fd with
            offset := add32 (table.fds fd).offset
              (min len (contents.length - (table.fds fd).offset)) }, pfs⟩ := by
      simp only [romfsReadR, hread, if_true, hleft, hbytes, htake, Nat.lt_irrefl, decide_false,
        Bool.and_false, Bool.false_eq_true, if_false]
    have hnext : add32 (table.fds fd).offset
        (min len (contents.length - (table.fds fd).offset)) =
          (table.fds fd).offset + min len (contents.length - (table.fds fd).offset) :=
      add32_eq (by omega)
    rw [hnext] at hresult
    obtain ⟨after, hafter⟩ := @ih (table.set fd { table.fds fd with
        offset := (table.fds fd).offset + min len (contents.length - (table.fds fd).offset) })
      (by simpa only [FdTable.set, Function.update_self] using hread)
      (by simpa only [FdTable.set, Function.update_self] using hcontents)
      (by simpa only [FdTable.set, Function.update_self] using hsize)
      (by simp only [FdTable.set, Function.update_self]; omega)
    refine ⟨after, ?_⟩
    rw [readAll, hresult, Option.bind_some]
    simp only [hafter, Option.map_some]
    simp only [FdTable.set, Function.update_self]
    have hdrop : contents.drop ((table.fds fd).offset +
        min len (contents.length - (table.fds fd).offset)) =
          contents.drop ((table.fds fd).offset + len) := by
      rw [List.drop_eq_drop_min, @List.drop_eq_drop_min _ contents (_ + len)]
      congr 1
      omega
    rw [List.sum_cons, List.take_add, List.drop_drop, hdrop]

end Reading

/-! ### Sessions keep a map -/

section Kept

variable {state : SessionState}

/-- The files of a log take the bytes of their sessions. -/
theorem length_filesBytes_fileOf (entries : List (Bool × FileName × List UInt8)) :
    (filesBytes (entries.map fileOf)).length = historyLength (entries.map Prod.snd) := by
  induction entries with
  | nil => rfl
  | cons entry entries ih =>
    rw [historyLength] at ih ⊢
    simp only [List.map_cons, filesBytes_cons, List.length_append, ih, length_fileBytes, fileOf]

/-- The latest version of a name is the file that answers to it. -/
theorem latestVersion_eq_some_iff {history : List (FileName × List UInt8)} {path : CString}
    {entry : FileName × List UInt8} :
    latestVersion (foldedPrefix dmMaxFnameLength) history path.bytes = some entry ↔
      (false, entry) ∈ supersede nameKey history ∧ (fileOf (false, entry)).Answers path := by
  refine (latest_eq_some_iff nameKey).trans (and_congr_right' ?_)
  exact ⟨fun hkey ↦ ⟨rfl, hkey.symm⟩, fun hanswers ↦ hanswers.2.symm⟩

/-- A file of the log that answers to a name is an entry that is not superseded. -/
theorem entry_eq_of_answers {path : CString}
    {entry : Bool × FileName × List UInt8} (hanswers : (fileOf entry).Answers path) :
    entry = (false, entry.2) :=
  Prod.ext hanswers.1 rfl

/-- Lookups give the latest versions. -/
theorem Kept.lookup (hkept : Kept state) (path : CString) :
    ∃ fuel result, romfsOpenFile fuel path state.pfs = some result ∧
      LookupGives (foldedPrefix dmMaxFnameLength) state.history state.pfs path.bytes result := by
  obtain ⟨fuel, result, hlookup, ⟨rfl, hnone⟩ | ⟨before, file, after, hclosed, hanswers, rfl⟩⟩ :=
    hkept.holds.lookup rfl path
  · refine ⟨fuel, _, hlookup, ?_⟩
    have hlatest : latestVersion (foldedPrefix dmMaxFnameLength) state.history path.bytes =
        none := by
      refine Option.eq_none_iff_forall_ne_some.mpr fun entry hentry ↦ ?_
      obtain ⟨hmem, hanswers⟩ := latestVersion_eq_some_iff.mp hentry
      exact hnone _ (List.mem_map_of_mem hmem) hanswers
    rw [LookupGives, hlatest]
    rfl
  · refine ⟨fuel, _, hlookup, ?_⟩
    have hcontents := hkept.holds.segment_contents hclosed
    obtain ⟨marked, rest, hsplit, rfl, hrest⟩ := List.map_eq_append_iff.mp hclosed
    obtain ⟨entry, later, rfl, rfl, rfl⟩ := List.map_eq_cons_iff.mp hrest
    rw [entry_eq_of_answers hanswers] at hsplit
    have hlatest : latestVersion (foldedPrefix dmMaxFnameLength) state.history path.bytes =
        some entry.2 := by
      refine latestVersion_eq_some_iff.mpr ⟨?_, rfl, hanswers.2⟩
      rw [hsplit]
      exact List.mem_append_right _ List.mem_cons_self
    obtain ⟨hhistory, hlater⟩ := split_of_supersede nameKey hsplit
    rw [length_filesBytes_fileOf] at hcontents ⊢
    rw [LookupGives, hlatest]
    exact ⟨marked.map Prod.snd, later.map Prod.snd, hhistory, fun other hother heq ↦ hlater other hother (heq.trans hanswers.2), rfl,
      hcontents⟩

/-- Reads of a file that was opened for reading return the latest version of its name. -/
theorem Kept.read (hkept : Kept state) {fuel junk : ℕ} {path : CString} {flags : OpenFlags}
    {table : FdTable} {outcome : Outcome (Fin totalMaxFds)} {fd : Fin totalMaxFds}
    (lens : List ℕ) (hreadOnly : flags.ReadOnly)
    (hopen : romfsOpenR fuel path flags junk table state.pfs = some outcome)
    (hok : outcome.result = .ok fd) :
    ∃ entry after,
      latestVersion (foldedPrefix dmMaxFnameLength) state.history path.bytes = some entry ∧
        readAll fd lens outcome.table outcome.pfs = some (entry.2.take lens.sum, after) := by
  have hpfs := pfs_of_romfsOpenR_readOnly hreadOnly hopen
  obtain ⟨more, result, hlookup, hgives⟩ := hkept.lookup path
  have hflags : (decodeAccess flags).read = true := by
    obtain ⟨-, haccess⟩ := hreadOnly
    unfold decodeAccess FileFlags.writable at *
    cases hwronly : flags.wronly <;> cases hrdwr : flags.rdwr <;> simp_all
  cases openCase_of_romfsOpenR hopen with
  | tableFull => cases hok
  | refused => cases hok
  | notFound => cases hok
  | noSlot => cases hok
  | @opened baseaddr size nameaddr lflags slot hfound hdecode hslot =>
    obtain rfl := Except.ok.inj hok
    obtain ⟨-, -, -, -, rfl⟩ := decodeOpen_eq_ok_iff.mp hdecode
    obtain rfl := runLoop_unique hlookup hfound
    rw [LookupGives] at hgives
    split at hgives
    case h_1 => cases hgives
    case h_2 entry hlatest =>
      obtain ⟨before, after, -, -, hresult, hcontents⟩ := hgives
      obtain ⟨rfl, rfl, rfl⟩ := OpenFileResult.ok.inj hresult
      have hbound := hkept.holds.image_bound
      obtain ⟨left, hread⟩ := @exists_readAll state.pfs entry.2 slot
        (table.install slot ⟨historyLength before + headLength entry.1, 0, entry.2.length,
          decodeAccess flags⟩) lens
        (by simpa only [FdTable.install, FdTable.set, Function.update_self] using hflags)
        (by simpa only [FdTable.install, FdTable.set, Function.update_self] using hcontents)
        (by simp only [FdTable.install, FdTable.set, Function.update_self])
        (by simp only [FdTable.install, FdTable.set, Function.update_self, Nat.zero_le])
        (by unfold romfsAlign at hbound; omega)
      refine ⟨entry, left, hlatest, ?_⟩
      simpa only [FdTable.install, FdTable.set, Function.update_self, List.drop_zero] using hread
  | creationFailed => cases hok
  | created hroom _ hdecode =>
    obtain ⟨-, -, -, hmust, -⟩ := decodeOpen_eq_ok_iff.mp hdecode
    rw [hreadOnly.mustCreate_eq] at hmust
    cases hmust

/-- The listing has the latest version of every name once. -/
theorem Kept.listing (hkept : Kept state) :
    ∃ fuel listed, readdirAll state.pfs fuel 0 = some listed ∧
      listed.Pairwise (fun first second ↦
        foldedPrefix dmMaxFnameLength first.fname ≠ foldedPrefix dmMaxFnameLength second.fname) ∧
      ∀ dirent, dirent ∈ listed ↔ ∃ entry : FileName × List UInt8,
        latestVersion (foldedPrefix dmMaxFnameLength) state.history entry.1.bytes = some entry ∧
          dirent = ⟨entry.1.bytes, entry.2.length⟩ := by
  have hsound := hkept.holds.scanSound_iff_scanStops.mpr fun pending hpending ↦ by cases hpending
  obtain ⟨fuel, hlisted⟩ := hsound.listing
  refine ⟨fuel, _, hlisted, ?_, fun dirent ↦ ?_⟩
  · have hapart := hkept.holds.live_apart
    simp only [Log.listing, Log.files, logOf, Option.toList_none, List.map_nil, List.append_nil]
      at hapart ⊢
    rw [List.pairwise_map]
    refine (List.Pairwise.filter _ hapart).imp_of_mem fun hfirst hsecond happart hsame ↦ ?_
    have hfirst := (List.mem_filter.mp hfirst).2
    have hsecond := (List.mem_filter.mp hsecond).2
    exact happart (by simpa using hfirst) (by simpa using hsecond) hsame
  · simp only [Log.listing, logOf, Option.toList_none, List.map_nil, List.append_nil, List.mem_map,
      List.mem_filter]
    constructor
    · rintro ⟨file, ⟨⟨⟨superseded, entry⟩, hentry, rfl⟩, hlive⟩, rfl⟩
      obtain rfl : superseded = false := by simpa [fileOf] using hlive
      exact ⟨entry, latestVersion_eq_some_iff.mpr ⟨hentry, rfl, SameName.rfl⟩, rfl⟩
    · rintro ⟨entry, hlatest, rfl⟩
      exact ⟨_, ⟨⟨_, ((@latestVersion_eq_some_iff _ entry.1.toCString _).mp hlatest).1, rfl⟩,
        rfl⟩, rfl⟩

/-- A session whose open succeeds is never stuck. -/
theorem Kept.neverStuck (hkept : Kept state) : NeverStuck state := by
  intro name flags junk buffers hproper hfits
  obtain ⟨fuel, outcome, hopen⟩ :=
    hkept.holds.exists_romfsOpenR rfl name.toCString flags junk state.table
  refine ⟨fuel, outcome, hopen, fun fd hok ↦ ?_⟩
  obtain ⟨hholds, hwriter, hwritable, hmaxSize⟩ :=
    hkept.holds.romfsOpenR rfl hkept.not_found_invalidName hproper.1 hopen hok
  obtain ⟨accepted, table, pfs, hwriteAll, -⟩ :=
    hholds.writeAll hwriter hwritable fun buffer hbuffer ↦ hmaxSize ▸ hfits buffer hbuffer
  rw [Romfs.writeSession, hopen, Option.bind_some, hok]
  simp only [hwriteAll, Option.map_some]
  exact ⟨_, rfl⟩

end Kept

/-- In every state that proper sessions reach whose buffers fit into the address space, the instance
is a map from names to the contents of their latest versions, names being compared in their first
thirty bytes, and no further session is stuck. -/
theorem writeOnceMap_of_sessions {state : SessionState}
    (hreach : sessionSystem.ReachableUnder
      (fun state event ↦ ProperSession state event ∧ BuffersFit state event) state) :
    WriteOnceMap (foldedPrefix dmMaxFnameLength) state.history state.pfs ∧ NeverStuck state :=
  have hkept := kept_of_sessions hreach
  ⟨{ lookup := hkept.lookup
     read := fun _ _ _ _ _ _ _ lens hreadOnly hopen hok ↦ hkept.read lens hreadOnly hopen hok
     listing := hkept.listing },
    hkept.neverStuck⟩

/-! ### Runs on a blank flash -/

/-- The start of a run on a flash of a given size, with all descriptors free. -/
def SessionState.blank (size : ℕ) : SessionState := ⟨.fresh, (World.blank size).fs (), []⟩

theorem sessionInitial_blank {size : ℕ} (hpos : 0 < size) (hmod : size % romfsAlign = 0)
    (hlt : size < 2 ^ 32) : SessionInitial (.blank size) :=
  ⟨rfl, rfl, ⟨hpos, hmod, hlt, rfl, rfl⟩, rfl⟩

/-- One permitted event on a blank flash is a run. -/
theorem reachableUnder_of_sessionStep {size fuel : ℕ}
    {permitted : SessionState → SessionEvent → Prop} {event : SessionEvent} {state : SessionState}
    (hpos : 0 < size) (hmod : size % romfsAlign = 0) (hlt : size < 2 ^ 32)
    (hpermitted : permitted (.blank size) event)
    (hstep : sessionStep fuel (.blank size) event = some state) :
    sessionSystem.ReachableUnder permitted state :=
  .next (.start (sessionInitial_blank hpos hmod hlt)) hpermitted ⟨fuel, hstep⟩

/-- A session that creates a file of equal letters and writes one buffer to it. -/
def createSession (length : ℕ) (hlength : length ≤ dmMaxFnameLength) (buffer : List UInt8) :
    SessionEvent :=
  .write (lettersName length hlength) ⟨true, false, false, true, false, false⟩ 0 [buffer]

theorem properSession_createSession (state : SessionState) {length : ℕ}
    (hlength : length ≤ dmMaxFnameLength) (buffer : List UInt8) :
    ProperSession state (createSession length hlength buffer) := by
  refine ⟨rfl, ?_⟩
  cases length with
  | zero => exact nofun
  | succ length => simp [lettersName, List.replicate_succ]

theorem buffersFit_createSession {size length : ℕ} (hlength : length ≤ dmMaxFnameLength)
    {buffer : List UInt8} (hfits : buffer.length + size ≤ 2 ^ 32) :
    BuffersFit (.blank size) (createSession length hlength buffer) :=
  fun _ hmem ↦ List.mem_singleton.mp hmem ▸ hfits

/-- A file of two bytes is created. -/
theorem writeOnceMap_of_one_session :
    ∃ state, sessionStep 3 (.blank 32) (createSession 1 (by decide) [1, 2]) = some state ∧
      WriteOnceMap (foldedPrefix dmMaxFnameLength) state.history state.pfs ∧ NeverStuck state := by
  have hrun : (sessionStep 3 (.blank 32) (createSession 1 (by decide) [1, 2])).isSome = true := by
    rfl
  obtain ⟨state, hstate⟩ := Option.isSome_iff_exists.mp hrun
  refine ⟨state, hstate, writeOnceMap_of_sessions (reachableUnder_of_sessionStep (by decide)
    (by decide) (by decide) ?_ hstate)⟩
  exact ⟨properSession_createSession _ _ _, buffersFit_createSession _ (by decide)⟩

theorem length_image_of_romfsCloseR (fd : Fin totalMaxFds) (table : FdTable) (pfs : Fsdata) :
    (romfsCloseR fd table pfs).2.image.length = pfs.image.length := by
  unfold romfsCloseR
  simp only
  split_ifs
  · exact length_overwrite _ _ _
  · rfl

/-- A session that writes a buffer whose end wraps around the address space accepts all of it. -/
theorem exists_createSession_huge {data : List UInt8} (hdata : data.length = 2 ^ 32 - 12) :
    ∃ state, sessionStep 3 (.blank 32) (createSession 1 (by decide) data) = some state ∧
      state.history = [(lettersName 1 (by decide), data)] ∧ state.pfs.image.length = 32 := by
  obtain ⟨outcome, hopen, hok, hfile, hmaxSize, himage⟩ : ∃ outcome,
      romfsOpenR 3 (lettersName 1 (by decide)).toCString ⟨true, false, false, true, false, false⟩ 0
        (SessionState.blank 32).table (SessionState.blank 32).pfs = some outcome ∧
      outcome.result = .ok 0 ∧ outcome.table.fds 0 = ⟨12, 0, 0, ⟨false, true, false⟩⟩ ∧
      outcome.pfs.maxSize = 32 ∧ outcome.pfs.image.length = 32 := ⟨_, rfl, rfl, rfl, rfl, rfl⟩
  have hlength : writeLength ⟨12, 0, 0, ⟨false, true, false⟩⟩ data.length outcome.pfs =
      data.length := by
    rw [writeLength, hmaxSize, hdata]
    rfl
  have hwritten : romfsWriteR 0 data outcome.table outcome.pfs = some ⟨.ok data.length,
      outcome.table.set 0 ⟨12, data.length, data.length, ⟨false, true, false⟩⟩,
      outcome.pfs.writef data 12⟩ := by
    have hend : add32 0 data.length = data.length := by rw [add32_eq (by omega), Nat.zero_add]
    simp only [romfsWriteR, hfile, FileFlags.writable, Fd.seekForWrite, Bool.or_false, if_true,
      Bool.false_eq_true, if_false, hlength, Nat.le_refl, List.take_length, hend]
    rfl
  obtain ⟨table, pfs, hall, hpfs⟩ : ∃ table pfs,
      writeAll 0 [data] outcome.table outcome.pfs = some (data, table, pfs) ∧
        pfs = outcome.pfs.writef data 12 := by
    refine ⟨outcome.table.set 0 ⟨12, data.length, data.length, ⟨false, true, false⟩⟩, _, ?_, rfl⟩
    simp only [writeAll, hwritten, Option.bind_some, Option.map_some, List.take_length,
      List.append_nil]
  refine ⟨⟨(romfsCloseR 0 table pfs).1, (romfsCloseR 0 table pfs).2,
    [(lettersName 1 (by decide), data)]⟩, ?_, rfl, ?_⟩
  · simp only [sessionStep, createSession, writeSession, hopen, Option.bind_some, hok, hall,
      Option.map_some]
    rfl
  · rw [length_image_of_romfsCloseR, hpfs, Fsdata.writef, length_overwrite]
    exact himage

/-- With names compared as a whole, an instance is not a map of its history: a path of thirty-one
letters finds the file whose name is the first thirty of them. With any comparison, it is none after
a write of a buffer that ends behind the address space, and a flash of no bytes cannot be read. -/
theorem longer_name_is_found :
    (∃ state, sessionSystem.ReachableUnder
        (fun state event ↦ ProperSession state event ∧ BuffersFit state event) state ∧
      ¬WriteOnceMap (List.map tolower) state.history state.pfs) ∧
    (∃ state, sessionSystem.ReachableUnder ProperSession state ∧
      ∀ key, ¬WriteOnceMap key state.history state.pfs) ∧
    ∀ key history, ¬WriteOnceMap key history (SessionState.blank 0).pfs := by
  refine ⟨?_, ?_, ?_⟩
  · have hrun : (sessionStep 3 (.blank 64) (createSession 30 (by decide) [])).map (fun state ↦
        (state.history, romfsOpenFile 3 ⟨List.replicate 31 0x61, by decide⟩ state.pfs)) =
        some ([(lettersName 30 (by decide), [])], some (.ok 40 0 0)) := by rfl
    obtain ⟨state, hstate, hfacts⟩ := Option.map_eq_some_iff.mp hrun
    obtain ⟨hhistory, hlookup⟩ := Prod.mk.inj hfacts
    refine ⟨state, reachableUnder_of_sessionStep (by decide) (by decide) (by decide)
      ⟨properSession_createSession _ _ _, buffersFit_createSession _ (by decide)⟩ hstate, fun hmap ↦ ?_⟩
    obtain ⟨fuel, result, hresult, hgives⟩ := hmap.lookup ⟨List.replicate 31 0x61, by decide⟩
    obtain rfl := runLoop_unique hlookup hresult
    have hnone : latestVersion (List.map tolower) state.history (List.replicate 31 0x61) = none := by
      rw [hhistory]
      rfl
    rw [LookupGives, hnone] at hgives
    cases hgives
  · obtain ⟨state, hstate, hhistory, himage⟩ :=
      exists_createSession_huge (List.length_replicate (a := (0 : UInt8)))
    refine ⟨state, reachableUnder_of_sessionStep (by decide) (by decide) (by decide)
      (properSession_createSession _ _ _) hstate, fun key hmap ↦ ?_⟩
    obtain ⟨fuel, result, hresult, hgives⟩ := hmap.lookup (lettersName 1 (by decide)).toCString
    have hlatest : latestVersion key state.history (lettersName 1 (by decide)).bytes =
        some (lettersName 1 (by decide), List.replicate (2 ^ 32 - 12) 0) := by
      rw [hhistory, latestVersion, latest, latest, Option.none_or, if_pos rfl]
    rw [LookupGives, hlatest] at hgives
    obtain ⟨before, after, -, -, -, hcontents⟩ := hgives
    have hlength := congrArg List.length hcontents
    rw [length_segment, himage] at hlength
    simp only [List.length_replicate] at hlength
    omega
  · intro key history hmap
    obtain ⟨fuel, result, hresult, -⟩ := hmap.lookup (lettersName 1 (by decide)).toCString
    obtain ⟨last, -, hbody⟩ := exists_leaves_of_runLoop hresult
    cases hbody

end Elua.Romfs
