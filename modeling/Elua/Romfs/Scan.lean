import Elua.Romfs.Operations

/-!
# What the scanners find in an image

`EntryAt` says that the image holds an entry at an address: both scanners read its name and header
there. `EntriesFrom` is a chain of entries, each beginning where the scanners go from the one
before. Over a chain that ends at an end marker both scanners have closed forms: the lookup returns
the first entry that answers to the name, the listing returns the entries that are not deleted in
order, and neither parses the image anywhere but at the entries and the end marker.

`entryAt_of_image` reads an entry off the bytes of the image.
-/

set_option autoImplicit false
set_option relaxedAutoImplicit false

namespace Elua.Romfs

open Foundation

variable {pfs : Fsdata}

/-! ### Entries and chains of entries -/

/-- The image holds an entry at an address. -/
structure EntryAt (pfs : Fsdata) (start : ℕ) (name : List UInt8) (header : Header) : Prop where
  not_end : ∃ first, romfshRead8 start pfs = some first ∧ first ≠ wofsEndMarkerChar
  length_le : name.length ≤ dmMaxFnameLength
  name_eq : ∀ count, name.length ≤ count → readName pfs start count = some name
  header_eq : readHeader pfs (add32 start (name.length + 1)) = some header

/-- The image ends at an address. -/
def EndsAt (pfs : Fsdata) (finish : ℕ) : Prop := romfshRead8 finish pfs = some wofsEndMarkerChar

/-- An entry as the scanners see it. -/
structure ScannedEntry where
  start : ℕ
  name : List UInt8
  header : Header
  deriving DecidableEq, Repr

/-- A chain of entries from one address to another. -/
def EntriesFrom (pfs : Fsdata) : ℕ → List ScannedEntry → ℕ → Prop
  | start, [], finish => start = finish
  | start, entry :: entries, finish =>
    entry.start = start ∧ EntryAt pfs start entry.name entry.header ∧
      EntriesFrom pfs (nextEntry pfs entry.header) entries finish

/-- Whether a lookup takes the entry for the name. -/
def ScannedEntry.answers (fname : CString) (entry : ScannedEntry) : Bool :=
  strncasecmp dmMaxFnameLength fname.bytes entry.name = 0 ∧ entry.header.deleted = false

/-- The directory entry that the listing returns for an entry. -/
def ScannedEntry.dirent (entry : ScannedEntry) : DmDirent := ⟨entry.name, entry.header.size⟩

/-- Chains are joined. -/
theorem EntriesFrom.append {start middle finish : ℕ} {firsts seconds : List ScannedEntry}
    (hfirst : EntriesFrom pfs start firsts middle)
    (hsecond : EntriesFrom pfs middle seconds finish) :
    EntriesFrom pfs start (firsts ++ seconds) finish := by
  induction firsts generalizing start with
  | nil =>
    obtain rfl : start = middle := hfirst
    exact hsecond
  | cons entry firsts ih => exact ⟨hfirst.1, hfirst.2.1, ih hfirst.2.2⟩

/-- Each entry of a chain stands in the image. -/
theorem EntriesFrom.entryAt {start finish : ℕ} {entries : List ScannedEntry} {entry : ScannedEntry}
    (hentries : EntriesFrom pfs start entries finish) (hmem : entry ∈ entries) :
    EntryAt pfs entry.start entry.name entry.header := by
  induction entries generalizing start with
  | nil => cases hmem
  | cons first entries ih =>
    obtain ⟨rfl, hfirst, hrest⟩ := hentries
    rcases List.mem_cons.mp hmem with rfl | hmem
    · exact hfirst
    · exact ih hrest hmem

/-! ### The lookup -/

theorem romfsOpenFileBody_of_endsAt {fname : CString} {finish : ℕ} (hend : EndsAt pfs finish) :
    romfsOpenFileBody fname pfs finish = some (.inr (.notFound finish)) := by
  simp only [romfsOpenFileBody, show romfshRead8 finish pfs = some wofsEndMarkerChar from hend,
    Option.bind_eq_bind, Option.bind_some, if_true, Option.pure_def]

theorem romfsOpenFileBody_of_entryAt (fname : CString) {entry : ScannedEntry}
    (hentry : EntryAt pfs entry.start entry.name entry.header) :
    romfsOpenFileBody fname pfs entry.start = some (
      if entry.answers fname then .inr (.ok entry.header.data entry.header.size entry.start)
      else .inl (nextEntry pfs entry.header)) := by
  obtain ⟨first, hfirst, hne⟩ := hentry.not_end
  simp only [romfsOpenFileBody, hfirst, hne, hentry.name_eq _ hentry.length_le, hentry.header_eq,
    Option.bind_eq_bind, Option.bind_some, if_false, Option.pure_def, ScannedEntry.answers,
    decide_eq_true_eq]
  split_ifs <;> rfl

/-- Over a chain of entries the lookup returns the first that answers, or the end of the chain. -/
theorem runLoop_romfsOpenFileBody (fname : CString) {start finish : ℕ}
    {entries : List ScannedEntry} (hentries : EntriesFrom pfs start entries finish)
    (hend : EndsAt pfs finish) :
    runLoop (romfsOpenFileBody fname pfs) (entries.length + 1) start = some (
      match entries.find? (·.answers fname) with
      | some entry => .ok entry.header.data entry.header.size entry.start
      | none => .notFound finish) := by
  induction entries generalizing start with
  | nil =>
    obtain rfl : start = finish := hentries
    exact runLoop_of_leaves (romfsOpenFileBody_of_endsAt hend) 0
  | cons entry entries ih =>
    obtain ⟨rfl, hentry, hrest⟩ := hentries
    have hbody := romfsOpenFileBody_of_entryAt fname hentry
    cases hanswers : entry.answers fname with
    | true =>
      rw [hanswers, if_pos rfl] at hbody
      rw [List.find?_cons_of_pos hanswers]
      exact runLoop_of_leaves hbody _
    | false =>
      rw [hanswers, if_neg Bool.false_ne_true] at hbody
      rw [List.find?_cons_of_neg (by simp [hanswers]), List.length_cons,
        runLoop_of_continues hbody]
      exact ih hrest

/-- Over a chain of entries the lookup parses the image only at the entries and at the end. -/
theorem mem_starts_of_visits {fname : CString} {start finish visited : ℕ}
    {entries : List ScannedEntry} (hentries : EntriesFrom pfs start entries finish)
    (hend : EndsAt pfs finish) (hvisits : Visits (romfsOpenFileBody fname pfs) start visited) :
    visited ∈ entries.map (·.start) ∨ visited = finish := by
  induction entries generalizing start with
  | nil =>
    obtain rfl : start = finish := hentries
    exact .inr ((visits_of_leaves (romfsOpenFileBody_of_endsAt hend)).mp hvisits)
  | cons entry entries ih =>
    obtain ⟨rfl, hentry, hrest⟩ := hentries
    have hbody := romfsOpenFileBody_of_entryAt fname hentry
    rw [List.map_cons, List.mem_cons]
    split_ifs at hbody
    · exact .inl (.inl ((visits_of_leaves hbody).mp hvisits))
    · obtain rfl | hnext := (visits_of_continues hbody).mp hvisits
      · exact .inl (.inl rfl)
      · exact (ih hrest hnext).imp_left .inr

/-- A lookup that no entry of the chain answers parses the image at all of them and at the end. -/
theorem visits_of_not_answers {fname : CString} {start finish visited : ℕ}
    {entries : List ScannedEntry} (hentries : EntriesFrom pfs start entries finish)
    (hnone : ∀ entry ∈ entries, ¬entry.answers fname = true)
    (hvisited : visited ∈ entries.map (·.start) ∨ visited = finish) :
    Visits (romfsOpenFileBody fname pfs) start visited := by
  induction entries generalizing start with
  | nil =>
    obtain rfl : start = finish := hentries
    rcases hvisited with hmem | rfl
    · cases hmem
    · exact .refl
  | cons entry entries ih =>
    obtain ⟨rfl, hentry, hrest⟩ := hentries
    have hbody := romfsOpenFileBody_of_entryAt fname hentry
    rw [if_neg (hnone entry List.mem_cons_self)] at hbody
    refine (visits_of_continues hbody).mpr ?_
    rw [List.map_cons, List.mem_cons, or_assoc] at hvisited
    refine hvisited.imp_right (ih hrest fun other hother ↦ ?_)
    exact hnone other (List.mem_cons_of_mem _ hother)

/-! ### The listing -/

theorem romfsReaddirBody_of_endsAt {finish : ℕ} (hend : EndsAt pfs finish) :
    romfsReaddirBody pfs finish = some (.inr none) := by
  simp only [romfsReaddirBody, show romfshRead8 finish pfs = some wofsEndMarkerChar from hend,
    Option.bind_eq_bind, Option.bind_some, if_true, Option.pure_def]

theorem romfsReaddirBody_of_entryAt {entry : ScannedEntry}
    (hentry : EntryAt pfs entry.start entry.name entry.header) :
    romfsReaddirBody pfs entry.start = some (
      if entry.header.deleted then .inl (nextEntry pfs entry.header)
      else .inr (some (entry.dirent, nextEntry pfs entry.header))) := by
  obtain ⟨first, hfirst, hne⟩ := hentry.not_end
  have hname := hentry.name_eq (dmMaxFnameLength + 1) (Nat.le_succ_of_le hentry.length_le)
  simp only [romfsReaddirBody, hfirst, hne, hname, hentry.header_eq, hentry.length_le.not_gt,
    Option.bind_eq_bind, Option.bind_some, if_false, Option.pure_def, ScannedEntry.dirent]
  split_ifs <;> rfl

/-- More fuel keeps a listing. -/
theorem readdirAll_mono {fuel more off : ℕ} {listed : List DmDirent} (hmore : fuel ≤ more)
    (hlisted : readdirAll pfs fuel off = some listed) : readdirAll pfs more off = some listed := by
  induction fuel generalizing more off listed with
  | zero => cases hlisted
  | succ fuel ih =>
    obtain ⟨more, rfl⟩ := Nat.exists_eq_succ_of_ne_zero (Nat.ne_zero_of_lt hmore)
    rw [readdirAll] at hlisted ⊢
    obtain ⟨result, hresult, hlisted⟩ := Option.bind_eq_some_iff.mp hlisted
    rw [show romfsReaddirR (more + 1) pfs off = some result from runLoop_mono hmore hresult,
      Option.bind_some]
    cases result with
    | none => exact hlisted
    | some found =>
      obtain ⟨rest, hrest, rfl⟩ := Option.map_eq_some_iff.mp hlisted
      exact Option.map_eq_some_iff.mpr ⟨rest, ih (Nat.le_of_succ_le_succ hmore) hrest, rfl⟩

/-- Over a chain of entries the listing returns the entries that are not deleted. -/
theorem exists_readdirAll {start finish : ℕ} {entries : List ScannedEntry}
    (hentries : EntriesFrom pfs start entries finish) (hend : EndsAt pfs finish) :
    ∃ fuel, readdirAll pfs fuel start =
      some ((entries.filter (!·.header.deleted)).map (·.dirent)) := by
  induction entries generalizing start with
  | nil =>
    obtain rfl : start = finish := hentries
    refine ⟨1, ?_⟩
    rw [readdirAll, romfsReaddirR, runLoop_of_leaves (romfsReaddirBody_of_endsAt hend)]
    rfl
  | cons entry entries ih =>
    obtain ⟨rfl, hentry, hrest⟩ := hentries
    obtain ⟨fuel, hlisted⟩ := ih hrest
    have hbody := romfsReaddirBody_of_entryAt hentry
    cases hdeleted : entry.header.deleted with
    | true =>
      rw [hdeleted, if_pos rfl] at hbody
      rw [List.filter_cons_of_neg (by simp [hdeleted])]
      -- a deleted entry is skipped within one call, so the call begins one pass earlier
      cases fuel with
      | zero => cases hlisted
      | succ fuel =>
        refine ⟨fuel + 2, ?_⟩
        rw [readdirAll] at hlisted ⊢
        obtain ⟨result, hresult, hlisted⟩ := Option.bind_eq_some_iff.mp hlisted
        rw [romfsReaddirR, runLoop_of_continues hbody,
          show runLoop (romfsReaddirBody pfs) (fuel + 1) (nextEntry pfs entry.header) = some result
            from hresult, Option.bind_some]
        cases result with
        | none => exact hlisted
        | some found =>
          obtain ⟨rest, hrest, heq⟩ := Option.map_eq_some_iff.mp hlisted
          exact Option.map_eq_some_iff.mpr ⟨rest, readdirAll_mono (Nat.le_succ fuel) hrest, heq⟩
    | false =>
      rw [hdeleted, if_neg Bool.false_ne_true] at hbody
      rw [List.filter_cons_of_pos (by simp [hdeleted])]
      refine ⟨fuel + 1, ?_⟩
      rw [readdirAll, romfsReaddirR, runLoop_of_leaves hbody, Option.bind_some]
      simp only [hlisted, Option.map_some, List.map_cons]

/-- The positions at which repeated calls of the directory reader parse the image. -/
def ReaddirReaches (pfs : Fsdata) : ℕ → ℕ → Prop :=
  Relation.ReflTransGen fun off next ↦
    romfsReaddirBody pfs off = some (.inl next) ∨
      ∃ entry, romfsReaddirBody pfs off = some (.inr (some (entry, next)))

/-- Repeated calls of the directory reader go along a chain of entries to its end. -/
theorem readdirReaches_of_entriesFrom {start finish : ℕ} {entries : List ScannedEntry}
    (hentries : EntriesFrom pfs start entries finish) : ReaddirReaches pfs start finish := by
  induction entries generalizing start with
  | nil =>
    obtain rfl : start = finish := hentries
    exact .refl
  | cons entry entries ih =>
    obtain ⟨rfl, hentry, hrest⟩ := hentries
    refine .head ?_ (ih hrest)
    rw [romfsReaddirBody_of_entryAt hentry]
    split_ifs
    · exact .inl rfl
    · exact .inr ⟨_, rfl⟩

/-- Over a chain of entries the directory reader parses the image at the entries and at the end. -/
theorem readdirReaches_iff {start finish off : ℕ} {entries : List ScannedEntry}
    (hentries : EntriesFrom pfs start entries finish) (hend : EndsAt pfs finish) :
    ReaddirReaches pfs start off ↔ off ∈ entries.map (·.start) ∨ off = finish := by
  induction entries generalizing start with
  | nil =>
    obtain rfl : start = finish := hentries
    simp only [List.map_nil, List.not_mem_nil, false_or]
    refine ⟨fun hreaches ↦ ?_, fun heq ↦ heq ▸ .refl⟩
    obtain rfl | ⟨next, hnext, -⟩ := hreaches.cases_head
    · rfl
    · rw [romfsReaddirBody_of_endsAt hend] at hnext
      simp at hnext
  | cons entry entries ih =>
    obtain ⟨rfl, hentry, hrest⟩ := hentries
    have hbody := romfsReaddirBody_of_entryAt hentry
    rw [List.map_cons, List.mem_cons, or_assoc, ← ih hrest]
    constructor
    · intro hreaches
      obtain rfl | ⟨next, hnext, hreaches⟩ := hreaches.cases_head
      · exact .inl rfl
      · rw [hbody] at hnext
        split_ifs at hnext
        · obtain rfl : nextEntry pfs entry.header = next := by simpa using hnext
          exact .inr hreaches
        · obtain rfl : nextEntry pfs entry.header = next := by simpa using hnext
          exact .inr hreaches
    · rintro (rfl | hreaches)
      · exact .refl
      · refine .head ?_ hreaches
        rw [hbody]
        split_ifs
        · exact .inl rfl
        · exact .inr ⟨_, rfl⟩

/-! ### Reading an entry off the bytes of the image -/

/-- The byte at the end of a prefix of the image, and those behind it. -/
theorem romfshRead8_of_image {before rest : List UInt8} (himage : pfs.image = before ++ rest)
    {addr : ℕ} (index : ℕ) (haddr : addr = before.length + index) :
    romfshRead8 addr pfs = rest[index]? := by
  rw [romfshRead8, himage, haddr, List.getElem?_append_right (Nat.le_add_right ..),
    Nat.add_sub_cancel_left]

/-- A name that ends with a zero is read, whether or not the zero is. -/
theorem readName_of_image {before name rest : List UInt8}
    (himage : pfs.image = before ++ (name ++ 0 :: rest)) (hname : (0 : UInt8) ∉ name)
    (hbound : pfs.image.length ≤ 2 ^ 32) {count : ℕ} (hcount : name.length ≤ count) :
    readName pfs before.length count = some name := by
  induction name generalizing before count with
  | nil =>
    cases count with
    | zero => rfl
    | succ count =>
      rw [readName, romfshRead8_of_image himage 0 (Nat.add_zero _).symm]
      rfl
  | cons byte name ih =>
    obtain ⟨count, rfl⟩ := Nat.exists_eq_succ_of_ne_zero (Nat.ne_zero_of_lt hcount)
    simp only [List.mem_cons, not_or] at hname
    have hnext : pfs.image = (before ++ [byte]) ++ (name ++ 0 :: rest) := by
      rw [himage, List.append_assoc]
      rfl
    have haddr : add32 before.length 1 = (before ++ [byte]).length := by
      rw [add32_eq, List.length_append, List.length_singleton]
      rw [himage] at hbound
      simp only [List.length_append, List.length_cons] at hbound
      omega
    rw [readName, romfshRead8_of_image himage 0 (Nat.add_zero _).symm, haddr,
      ih hnext hname.2 (Nat.le_of_succ_le_succ hcount)]
    simp only [List.cons_append, List.getElem?_cons_zero, Option.bind_some, Option.map_some]
    rw [if_neg (Ne.symm hname.1)]

/-- The first bytes of a name are read, as many as are asked for. -/
theorem readName_of_prefix {before name rest : List UInt8}
    (himage : pfs.image = before ++ (name ++ rest)) (hname : (0 : UInt8) ∉ name)
    (hbound : before.length + name.length < 2 ^ 32) :
    readName pfs before.length name.length = some name := by
  induction name generalizing before with
  | nil => rfl
  | cons byte name ih =>
    simp only [List.mem_cons, not_or] at hname
    rw [List.length_cons] at hbound
    have hnext : pfs.image = (before ++ [byte]) ++ (name ++ rest) := by
      rw [himage, List.append_assoc]
      rfl
    have hlength : (before ++ [byte]).length = before.length + 1 := by
      rw [List.length_append, List.length_singleton]
    have haddr : add32 before.length 1 = (before ++ [byte]).length := by
      rw [hlength, add32_eq (by omega)]
    rw [List.length_cons, readName, romfshRead8_of_image himage 0 (Nat.add_zero _).symm, haddr,
      ih hnext hname.2 (by omega)]
    simp only [List.cons_append, List.getElem?_cons_zero, Option.bind_some, Option.map_some]
    rw [if_neg (Ne.symm hname.1)]

/-- A size field is read. -/
theorem readSize_of_image {before rest : List UInt8} {size : ℕ} (hsize : size < 2 ^ 32)
    (himage : pfs.image = before ++ (leBytes32 size ++ rest)) (hbound : pfs.image.length ≤ 2 ^ 32) :
    readSize pfs before.length = some size := by
  have hroom : before.length + 4 ≤ 2 ^ 32 := by
    rw [himage] at hbound
    simp only [List.length_append, length_leBytes32] at hbound
    omega
  have hread : ∀ index, index < 4 →
      romfshRead8 (add32 before.length index) pfs = (leBytes32 size ++ rest)[index]? :=
    fun index hindex ↦ romfshRead8_of_image himage index (add32_eq (by omega))
  rw [readSize, romfshRead8_of_image himage 0 (Nat.add_zero _).symm, hread 1 (by decide),
    hread 2 (by decide), hread 3 (by decide)]
  simp only [leBytes32, List.cons_append, List.getElem?_cons_zero, List.getElem?_cons_succ,
    Option.bind_eq_bind, Option.bind_some, Option.pure_def, leValue32_leBytes32 hsize]

/-- The bytes between the name of an entry and its size: the delete word on a WOFS, nothing on a
ROMFS. -/
def delField (pfs : Fsdata) (deleted : Bool) : List UInt8 :=
  if pfs.wo then [if deleted then wofsFileDeleted else 0xFF, 0xFF, 0xFF, 0xFF] else []

/-- A header is read, from an address that rounds up to it. -/
theorem readHeader_of_image {before rest : List UInt8} {deleted : Bool} {size addr : ℕ}
    (hdeleted : deleted = true → pfs.wo = true) (hsize : size < 2 ^ 32)
    (himage : pfs.image = before ++ (delField pfs deleted ++ (leBytes32 size ++ rest)))
    (hbound : pfs.image.length < 2 ^ 32) (haddr : alignUp4 addr = before.length) :
    readHeader pfs addr =
      some ⟨deleted, size, before.length + (delField pfs deleted).length + romfsSizeLen⟩ := by
  have hlength := congrArg List.length himage
  simp only [List.length_append, length_leBytes32] at hlength
  have hsizeRead : readSize pfs (before ++ delField pfs deleted).length = some size :=
    readSize_of_image hsize (by rw [himage, List.append_assoc]) (Nat.le_of_lt hbound)
  rw [readHeader, haddr]
  unfold romfshIsWofs delField romfsSizeLen wofsDelFieldSize at *
  cases hwo : pfs.wo with
  | true =>
    simp only [hwo, if_true, List.length_cons, List.length_nil, List.length_append] at *
    rw [add32_eq (by omega), hsizeRead, add32_eq (by omega),
      romfshRead8_of_image himage 0 (Nat.add_zero _).symm]
    cases deleted <;> rfl
  | false =>
    obtain rfl : deleted = false := by simpa [hwo] using hdeleted
    simp only [hwo, Bool.false_eq_true, if_false, List.append_nil, List.length_nil] at *
    rw [hsizeRead, add32_eq (by omega)]
    rfl

/-- An entry is read where its bytes stand: a name that is no end marker, a zero, padding to the
alignment, the delete word on a WOFS, and the size. -/
theorem entryAt_of_image {before name padding rest : List UInt8} {deleted : Bool} {size : ℕ}
    (hzero : (0 : UInt8) ∉ name) (hlength : name.length ≤ dmMaxFnameLength)
    (hend : name.head? ≠ some wofsEndMarkerChar) (hpadding : padding.length < 4)
    (haligned : (before.length + name.length + 1 + padding.length) % 4 = 0)
    (hdeleted : deleted = true → pfs.wo = true) (hsize : size < 2 ^ 32)
    (himage : pfs.image =
      before ++ (name ++ 0 :: (padding ++ (delField pfs deleted ++ (leBytes32 size ++ rest)))))
    (hbound : pfs.image.length < 2 ^ 32) :
    EntryAt pfs before.length name
      ⟨deleted, size, before.length + name.length + 1 + padding.length +
        (delField pfs deleted).length + romfsSizeLen⟩ where
  not_end := by
    rw [romfshRead8_of_image himage 0 (Nat.add_zero _).symm]
    cases name with
    | nil => exact ⟨0, rfl, by decide⟩
    | cons byte name => exact ⟨byte, rfl, fun heq ↦ hend (congrArg some heq)⟩
  length_le := hlength
  name_eq := fun _ hcount ↦ readName_of_image himage hzero (Nat.le_of_lt hbound) hcount
  header_eq := by
    have himageLength := congrArg List.length himage
    simp only [List.length_append, List.length_cons, length_leBytes32] at himageLength
    have hsplit : pfs.image = (before ++ (name ++ 0 :: padding)) ++
        (delField pfs deleted ++ (leBytes32 size ++ rest)) := by
      rw [himage]
      simp only [List.append_assoc, List.cons_append]
    have hfront : (before ++ (name ++ 0 :: padding)).length =
        before.length + name.length + 1 + padding.length := by
      simp only [List.length_append, List.length_cons]
      omega
    rw [readHeader_of_image hdeleted hsize hsplit hbound, hfront]
    rw [hfront, add32_eq (by omega), ← Nat.add_assoc]
    exact alignUp4_eq_add (by omega) hpadding haligned

end Elua.Romfs
