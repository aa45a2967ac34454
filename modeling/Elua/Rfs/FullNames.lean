import Elua.Rfs.LateResponses

/-!
# Full names

The server puts the name of a file behind the directory that it serves, in a buffer for names of at
most `PLATFORM_MAX_FNAME_LEN` bytes. `server_open`, `server_opendir` and `server_readdir` do it with
the same calls of `strncpy` and `strncat`, here on the memory that holds the buffer, with a record
of the indices they touch.

Each call of `strncat` is given the size of the whole buffer as its limit, so what bounds the name
is the sum of the three limits. The name is right just if the full name fits (`namesMeet_iff`). A
longer one is stored behind the end of the buffer, or cut and used. `serverFullname` of the handlers
has a name just if the buffer is not left (`serverFullname_eq_some_iff`). -/

set_option autoImplicit false
set_option relaxedAutoImplicit false

namespace Elua.Rfs

open Foundation Rpc

/-! ### The code -/

/-- The memory, with the indices into `server_fullname` at which has been looked or stored. -/
structure NameBuffer where
  ram : Ram
  touched : List ℤ

/-- The separator, as the handlers have it. -/
def separator : CString := ⟨[platformPathSeparator], by decide⟩

section Strings

variable (buffer : Addr)

/-- Bytes are stored from an index on. -/
def NameBuffer.store (name : NameBuffer) (index : ℕ) (bytes : List UInt8) : NameBuffer :=
  ⟨(Cursor.putAll ⟨name.ram, buffer.plus index⟩ bytes).ram,
    name.touched ++ (List.range bytes.length).map fun offset : ℕ ↦ (index : ℤ) + offset⟩

/-- `strlen( server_fullname )`. -/
def NameBuffer.strlen (name : NameBuffer) : ℕ := (stringAt name.ram buffer).length

/-- `strncpy` to the buffer: at most a number of bytes, and zeros up to that number. -/
def NameBuffer.strncpy (name : NameBuffer) (src : CString) (n : ℕ) : NameBuffer :=
  name.store buffer 0 (src.bytes.take n ++ List.replicate (n - src.strlen) 0)

/-- `strncat` to the buffer: at most a number of bytes behind the string, and a zero. -/
def NameBuffer.strncat (name : NameBuffer) (src : CString) (n : ℕ) : NameBuffer :=
  name.store buffer (name.strlen buffer) (src.bytes.take n ++ [0])

/-- The first lines that the three handlers have in common: the buffer with the directory. -/
def baseFullname (ram : Ram) (base : CString) : NameBuffer :=
  let ended := ((NameBuffer.mk ram []).store buffer platformMaxFnameLen [0]).store buffer 0 [0]
  ended.strncpy buffer base platformMaxFnameLen

/-- The lines that the three handlers have in common. -/
def buildFullname (ram : Ram) (base : CString) (filename : Option CString) : NameBuffer :=
  let based := baseFullname buffer ram base
  match filename with
  | none => based
  | some filename =>
    if 0 < filename.strlen then
      let last : ℤ := based.strlen buffer - 1
      let looked : NameBuffer := { based with touched := based.touched ++ [last] }
      let dir :=
        if looked.ram (buffer + BitVec.ofInt 32 last) ≠ platformPathSeparator then
          looked.strncat buffer separator platformMaxFnameLen
        else looked
      dir.strncat buffer filename platformMaxFnameLen
    else based

end Strings

theorem zero_notMem_stringBytes (ram : Ram) (addr : Addr) (fuel : ℕ) :
    (0 : UInt8) ∉ stringBytes ram addr fuel := by
  induction fuel generalizing addr with
  | zero => exact List.not_mem_nil
  | succ fuel ih =>
    rw [stringBytes]
    split_ifs with hzero
    · exact List.not_mem_nil
    · exact fun hmem ↦ (List.mem_cons.mp hmem).elim (fun hsame ↦ hzero hsame.symm) (ih _)

/-- The string at an address, which has no zero. -/
def cstringAt (ram : Ram) (addr : Addr) : CString :=
  ⟨stringAt ram addr, zero_notMem_stringBytes ram addr _⟩

theorem cstringAt_eq {ram : Ram} {addr : Addr} {string : CString}
    (hstring : stringAt ram addr = string.bytes) : cstringAt ram addr = string := by
  obtain ⟨bytes, hzero⟩ := string
  obtain rfl : stringAt ram addr = bytes := hstring
  rfl

/-- `server_open`, `server_opendir` and `server_readdir`. -/
inductive PathHandler
  | «open»
  | opendir
  | readdir

/-- The name of which a handler makes a full name, if the request leads it there. -/
def handlerName {Host : Type} (posix : Posix Host) (config : ServerConfig) (fuel : ℕ)
    (server : Server Host) : PathHandler → Option (Option CString)
  | .open =>
    match remotefsOpenReadRequest server.ram config.rfsBuffer with
    | (.err, _) => none
    | (.ok, filename, _, _) => some (filename.map (cstringAt server.ram))
  | .opendir =>
    match remotefsOpendirReadRequest server.ram config.rfsBuffer with
    | (.err, _) => none
    | (.ok, name) => some (name.map (cstringAt server.ram))
  | .readdir =>
    match remotefsReaddirReadRequest server.ram config.rfsBuffer with
    | (.err, _) => none
    | (.ok, d) =>
      match osReaddir posix config d fuel server.host with
      | some (some name, _) => some (some name)
      | _ => none

/-! ### What is asked for -/

/-- Every index is one of the buffer, which has a byte more than the longest name. -/
def NameBuffer.Inside (name : NameBuffer) : Prop :=
  ∀ index ∈ name.touched, 0 ≤ index ∧ index < platformMaxFnameLen + 1

/-- The directory, a separator if it does not end with one, and the name. -/
def fullPath (base : CString) (filename : Option CString) : List UInt8 :=
  match filename with
  | none => base.bytes
  | some name =>
    if name.bytes = [] then base.bytes
    else
      base.bytes ++ (if base.bytes.getLast? = some platformPathSeparator then []
        else [platformPathSeparator]) ++ name.bytes

/-- The full name is built inside the buffer and no longer than it may be. It is right if it fits,
and if it does not, what the handler operates on is not another one. -/
structure NameMeets (buffer : Addr) (ram : Ram) (base : CString) (filename : Option CString) :
    Prop where
  inside : (buildFullname buffer ram base filename).Inside
  length_le : (buildFullname buffer ram base filename).strlen buffer ≤ platformMaxFnameLen
  exact : (fullPath base filename).length ≤ platformMaxFnameLen →
    stringAt (buildFullname buffer ram base filename).ram buffer = fullPath base filename
  whole : platformMaxFnameLen < (fullPath base filename).length →
    stringAt (buildFullname buffer ram base filename).ram buffer = fullPath base filename

/-- The full name is no longer than it may be, and a name is put behind a directory that has one. -/
def NameFits (base : CString) (filename : Option CString) : Prop :=
  (fullPath base filename).length ≤ platformMaxFnameLen ∧
    (base.bytes = [] → ∀ name ∈ filename, name.bytes = [])

/-! ### Strings in the buffer -/

section Strings

variable {buffer : Addr} {name : NameBuffer} {bytes : List UInt8}

theorem stringAt_eq {ram : Ram} {addr : Addr} (hbytes : BytesAt ram addr (bytes ++ [0]))
    (hzero : (0 : UInt8) ∉ bytes) (hlength : bytes.length < 2 ^ 32) : stringAt ram addr = bytes :=
  stringBytes_eq hbytes hzero hlength

/-- What is stored stays inside if its end is. -/
theorem inside_store_iff {index : ℕ} (hne : bytes ≠ []) :
    (name.store buffer index bytes).Inside ↔
      name.Inside ∧ index + bytes.length ≤ platformMaxFnameLen + 1 := by
  have hpos : 0 < bytes.length := List.length_pos_of_ne_nil hne
  refine List.forall_mem_append.trans (and_congr_right fun _ ↦ ?_)
  rw [List.forall_mem_map]
  constructor
  · intro hall
    obtain ⟨-, hlast⟩ := hall (bytes.length - 1) (List.mem_range.mpr (Nat.sub_lt hpos Nat.one_pos))
    omega
  · intro hend offset hoffset
    have hlt := List.mem_range.mp hoffset
    omega

/-- A byte stays when bytes are stored behind it or in front of it. -/
theorem store_outside {index other : ℕ} {stored : List UInt8}
    (hother : other < index ∨ index + stored.length ≤ other)
    (hsmall : index + stored.length ≤ 2 ^ 32) (hlarge : other < 2 ^ 32) :
    (name.store buffer index stored).ram (buffer.plus other) = name.ram (buffer.plus other) := by
  refine putAll_outside ?_
  show stored.length ≤ (buffer.plus other - buffer.plus index).toNat
  unfold Addr.plus
  bv_omega

theorem stands_stored {index : ℕ} (hsmall : bytes.length ≤ 2 ^ 32) :
    BytesAt (name.store buffer index bytes).ram (buffer.plus index) bytes :=
  bytesAt_putAll hsmall

/-- A string is put behind another. -/
theorem stands_strncat {src : CString} {n : ℕ} (hstands : BytesAt name.ram buffer (bytes ++ [0]))
    (hzero : (0 : UInt8) ∉ bytes) (hsmall : bytes.length + n + 1 < 2 ^ 32) :
    BytesAt (name.strncat buffer src n).ram buffer (bytes ++ src.bytes.take n ++ [0]) ∧
      ((name.strncat buffer src n).Inside ↔
        name.Inside ∧ bytes.length + (src.bytes.take n).length ≤ platformMaxFnameLen) := by
  have hlen : name.strlen buffer = bytes.length :=
    congrArg List.length (stringAt_eq hstands hzero (by omega))
  have htake := List.length_take_le n src.bytes
  have hstored : (src.bytes.take n ++ [0]).length = (src.bytes.take n).length + 1 :=
    List.length_append
  rw [NameBuffer.strncat, hlen]
  constructor
  · rw [List.append_assoc]
    refine bytesAt_append.mpr ⟨?_, stands_stored (by omega)⟩
    exact (bytesAt_append.mp hstands).1.congr fun other hother ↦
      store_outside (.inl hother) (by omega) (by omega)
  · rw [inside_store_iff (by simp), hstored, ← Nat.add_assoc, Nat.add_le_add_iff_right]

theorem inside_of_strncat {src : CString} {n : ℕ} (hinside : (name.strncat buffer src n).Inside) :
    name.Inside :=
  fun index hmem ↦ hinside index (List.mem_append_left _ hmem)

theorem zero_notMem_take {src : CString} (n : ℕ) : (0 : UInt8) ∉ src.bytes.take n :=
  fun hmem ↦ src.zero_notMem (List.mem_of_mem_take hmem)

theorem length_strncpy (src : CString) (n : ℕ) :
    (src.bytes.take n ++ List.replicate (n - src.strlen) 0).length = n := by
  rw [List.length_append, List.length_take, List.length_replicate, CString.strlen]
  omega

/-- The directory stands in the buffer, as far as there is room. -/
theorem stands_baseFullname (ram : Ram) (base : CString) :
    BytesAt (baseFullname buffer ram base).ram buffer
      (base.bytes.take platformMaxFnameLen ++ [0]) := by
  have hlength := length_strncpy base platformMaxFnameLen
  have hmax : platformMaxFnameLen = 2048 := rfl
  let ended := (NameBuffer.mk ram []).store buffer platformMaxFnameLen [0]
  have hcopied : BytesAt (baseFullname buffer ram base).ram buffer
      (base.bytes.take platformMaxFnameLen ++
        List.replicate (platformMaxFnameLen - base.strlen) 0 ++ [0]) := by
    refine bytesAt_append.mpr ⟨?_, ?_, trivial⟩
    · have hstored := @stands_stored buffer (ended.store buffer 0 [0]) _ 0
        (hlength.trans_le (by decide))
      rw [Addr.plus_zero] at hstored
      exact hstored
    · have hlast : ended.ram (buffer.plus platformMaxFnameLen) = 0 :=
        (@stands_stored buffer ⟨ram, []⟩ [0] platformMaxFnameLen (by decide)).1
      rw [hlength]
      refine (store_outside (.inr (by omega)) (by omega) (by decide)).trans ?_
      exact (store_outside (.inr (by decide)) (by decide) (by decide)).trans hlast
  rw [List.append_assoc] at hcopied
  obtain ⟨hfront, hzeros⟩ := bytesAt_append.mp hcopied
  refine bytesAt_append.mpr ⟨hfront, ?_, trivial⟩
  rcases hcount : platformMaxFnameLen - base.strlen with _ | count
  · rw [hcount] at hzeros
    exact hzeros.1
  · rw [hcount] at hzeros
    exact hzeros.1

theorem inside_baseFullname (ram : Ram) (base : CString) :
    (baseFullname buffer ram base).Inside := by
  have hlength := length_strncpy base platformMaxFnameLen
  have hempty : (NameBuffer.mk ram []).Inside := fun _ hmem ↦ absurd hmem List.not_mem_nil
  refine (inside_store_iff ?_).mpr ⟨(inside_store_iff (by simp)).mpr
    ⟨(inside_store_iff (by simp)).mpr ⟨hempty, Nat.le_refl _⟩, by decide⟩, ?_⟩
  · intro hnil
    rw [hnil] at hlength
    cases hlength
  · rw [hlength]
    decide

/-- What comes in front of a name in the buffer. -/
def directoryPart (base : CString) : List UInt8 :=
  base.bytes.take platformMaxFnameLen ++
    if (base.bytes.take platformMaxFnameLen).getLast? = some platformPathSeparator then []
    else [platformPathSeparator]

theorem zero_notMem_directoryPart (base : CString) : (0 : UInt8) ∉ directoryPart base := by
  intro hmem
  rcases List.mem_append.mp hmem with hbase | hseparator
  · exact zero_notMem_take platformMaxFnameLen hbase
  · split_ifs at hseparator
    · cases hseparator
    · exact separator.zero_notMem hseparator

theorem length_directoryPart_le (base : CString) :
    (directoryPart base).length ≤ platformMaxFnameLen + 1 := by
  rw [directoryPart, List.length_append]
  refine Nat.add_le_add (List.length_take_le _ _) ?_
  split_ifs
  · exact Nat.zero_le _
  · exact Nat.le_refl _

/-- The last byte of the directory, at which the handlers look. -/
theorem last_baseFullname (ram : Ram) {base : CString} (hbase : base.bytes ≠ []) :
    ∃ last : ℕ, ((baseFullname buffer ram base).strlen buffer : ℤ) - 1 = last ∧
      last < platformMaxFnameLen ∧
      (base.bytes.take platformMaxFnameLen).getLast? =
        some ((baseFullname buffer ram base).ram (buffer + BitVec.ofInt 32 last)) := by
  have hstands := @stands_baseFullname buffer ram base
  have hlength := List.length_take_le platformMaxFnameLen base.bytes
  have hlen : (baseFullname buffer ram base).strlen buffer =
      (base.bytes.take platformMaxFnameLen).length :=
    congrArg List.length (stringAt_eq hstands (zero_notMem_take _) (hlength.trans_lt (by decide)))
  rcases List.eq_nil_or_concat (base.bytes.take platformMaxFnameLen) with hnil | ⟨front, c, hsplit⟩
  · have hzero : platformMaxFnameLen = 0 ∨ base.bytes = [] := List.take_eq_nil_iff.mp hnil
    exact absurd (hzero.resolve_left (by decide)) hbase
  · rw [List.concat_eq_append] at hsplit
    rw [hsplit] at hstands hlen hlength ⊢
    rw [List.length_append, List.length_singleton] at hlen hlength
    refine ⟨front.length, by omega, hlength, ?_⟩
    have hlast := (bytesAt_append.mp (bytesAt_append.mp hstands).1).2.1
    rw [List.getLast?_concat, BitVec.ofInt_natCast]
    exact congrArg some hlast.symm

/-- A separator is put behind the directory if it does not end with one. -/
theorem stands_directoryPart (ram : Ram) {base : CString} (hbase : base.bytes ≠ []) :
    let based := baseFullname buffer ram base
    let last : ℤ := based.strlen buffer - 1
    let looked : NameBuffer := { based with touched := based.touched ++ [last] }
    let dir :=
      if looked.ram (buffer + BitVec.ofInt 32 last) ≠ platformPathSeparator then
        looked.strncat buffer separator platformMaxFnameLen
      else looked
    BytesAt dir.ram buffer (directoryPart base ++ [0]) ∧
      (dir.Inside ↔ (directoryPart base).length ≤ platformMaxFnameLen) := by
  intro based last looked dir
  obtain ⟨index, hindex, hsmall, hlast⟩ := @last_baseFullname buffer ram base hbase
  have hlength := List.length_take_le platformMaxFnameLen base.bytes
  have hstands : BytesAt looked.ram buffer (base.bytes.take platformMaxFnameLen ++ [0]) :=
    @stands_baseFullname buffer ram base
  have hlooked : looked.Inside := by
    have hinside : 0 ≤ last ∧ last < platformMaxFnameLen + 1 := by
      rw [show last = index from hindex]
      omega
    exact List.forall_mem_append.mpr
      ⟨@inside_baseFullname buffer ram base, List.forall_mem_singleton.mpr hinside⟩
  have hbyte : (base.bytes.take platformMaxFnameLen).getLast? =
      some (looked.ram (buffer + BitVec.ofInt 32 last)) := by
    rw [show last = index from hindex]
    exact hlast
  by_cases hseparator : looked.ram (buffer + BitVec.ofInt 32 last) = platformPathSeparator
  · have hdir : dir = looked := if_neg (not_not_intro hseparator)
    have hpart : directoryPart base = base.bytes.take platformMaxFnameLen := by
      rw [directoryPart, hbyte, hseparator, if_pos rfl, List.append_nil]
    rw [hdir, hpart]
    exact ⟨hstands, iff_of_true hlooked hlength⟩
  · have hdir : dir = looked.strncat buffer separator platformMaxFnameLen := if_pos hseparator
    have hpart : directoryPart base = base.bytes.take platformMaxFnameLen ++
        separator.bytes.take platformMaxFnameLen := by
      rw [directoryPart, hbyte, if_neg fun hsame ↦ hseparator (Option.some.inj hsame)]
      rfl
    have hmax : platformMaxFnameLen = 2048 := rfl
    obtain ⟨hjoined, hinside⟩ := @stands_strncat buffer looked _ separator platformMaxFnameLen
      hstands (zero_notMem_take _) (by omega)
    rw [hdir, hpart]
    refine ⟨hjoined, hinside.trans ?_⟩
    rw [List.length_append]
    exact and_iff_right hlooked

/-- The full name that stands in the buffer, and when the code has stayed inside. -/
theorem buildFullname_some (ram : Ram) {base filename : CString} (hbase : base.bytes ≠ [])
    (hname : filename.bytes ≠ []) :
    stringAt (buildFullname buffer ram base (some filename)).ram buffer =
        directoryPart base ++ filename.bytes.take platformMaxFnameLen ∧
      ((buildFullname buffer ram base (some filename)).Inside ↔
        (directoryPart base ++ filename.bytes.take platformMaxFnameLen).length ≤
          platformMaxFnameLen) := by
  have hmax : platformMaxFnameLen = 2048 := rfl
  have hpart := length_directoryPart_le base
  have htake := List.length_take_le platformMaxFnameLen filename.bytes
  obtain ⟨hstands, hdir⟩ := @stands_directoryPart buffer ram base hbase
  obtain ⟨hjoined, hinside⟩ := @stands_strncat buffer _ _ filename platformMaxFnameLen hstands
    (zero_notMem_directoryPart base) (by omega)
  have hpos : 0 < filename.strlen := List.length_pos_of_ne_nil hname
  rw [buildFullname]
  dsimp only
  rw [if_pos hpos]
  refine ⟨stringAt_eq hjoined ?_ ?_, hinside.trans ?_⟩
  · exact fun hmem ↦ (List.mem_append.mp hmem).elim (zero_notMem_directoryPart base)
      (zero_notMem_take _)
  · rw [List.length_append]
    omega
  · rw [hdir, List.length_append]
    omega

/-- With an empty name, or none, the directory is what is used. -/
theorem buildFullname_base (ram : Ram) (base : CString) {filename : Option CString}
    (hname : ∀ name ∈ filename, name.bytes = []) :
    buildFullname buffer ram base filename = baseFullname buffer ram base := by
  rcases filename with _ | name
  · rfl
  · have hempty : ¬ 0 < name.strlen := by
      rw [CString.strlen, hname name rfl]
      exact Nat.lt_irrefl 0
    exact if_neg hempty

theorem stringAt_baseFullname (ram : Ram) (base : CString) :
    stringAt (baseFullname buffer ram base).ram buffer = base.bytes.take platformMaxFnameLen :=
  stringAt_eq (stands_baseFullname ram base) (zero_notMem_take _)
    ((List.length_take_le _ _).trans_lt (by decide))

/-- Behind an empty directory the code looks at the byte in front of the buffer. -/
theorem not_inside_of_base_nil (ram : Ram) {base filename : CString} (hbase : base.bytes = [])
    (hname : filename.bytes ≠ []) :
    ¬ (buildFullname buffer ram base (some filename)).Inside := by
  have hpos : 0 < filename.strlen := List.length_pos_of_ne_nil hname
  have hlast : ((baseFullname buffer ram base).strlen buffer : ℤ) - 1 = -1 := by
    rw [NameBuffer.strlen, stringAt_baseFullname, hbase]
    rfl
  rw [buildFullname]
  dsimp only
  rw [if_pos hpos, hlast]
  intro hinside
  have hdir := inside_of_strncat hinside
  have hlooked : NameBuffer.Inside
      { baseFullname buffer ram base with
        touched := (baseFullname buffer ram base).touched ++ [-1] } := by
    split_ifs at hdir
    · exact inside_of_strncat hdir
    · exact hdir
  exact absurd (hlooked (-1) (List.mem_append_right _ List.mem_cons_self)).1 (by decide)

theorem fullPath_base {base : CString} {filename : Option CString}
    (hname : ∀ name ∈ filename, name.bytes = []) : fullPath base filename = base.bytes := by
  rcases filename with _ | name
  · rfl
  · exact if_pos (hname name rfl)

/-- What the buffer holds is the full name, unless something has been cut. -/
theorem fullPath_some {base filename : CString} (hname : filename.bytes ≠ [])
    (hbase : base.strlen ≤ platformMaxFnameLen)
    (hfilename : filename.strlen ≤ platformMaxFnameLen) :
    fullPath base (some filename) =
      directoryPart base ++ filename.bytes.take platformMaxFnameLen := by
  rw [fullPath, if_neg hname, directoryPart, List.take_of_length_le hbase,
    List.take_of_length_le hfilename]

theorem strlen_le_fullPath (base filename : CString) :
    base.strlen + filename.strlen ≤ (fullPath base (some filename)).length := by
  rw [fullPath]
  split_ifs with hempty
  · rw [CString.strlen, CString.strlen, hempty]
    exact Nat.le_refl _
  · rw [List.length_append, List.length_append, CString.strlen, CString.strlen]
    omega
  · rw [List.length_append, List.length_append, CString.strlen, CString.strlen]
    omega

/-- The code meets what is asked for just if the full name fits. -/
theorem nameMeets_iff_fits (ram : Ram) (base : CString) (filename : Option CString) :
    NameMeets buffer ram base filename ↔ NameFits base filename := by
  constructor
  · intro hmeets
    refine ⟨?_, fun hbase name hname ↦ ?_⟩
    · by_contra hlong
      have hlength := hmeets.length_le
      rw [NameBuffer.strlen, hmeets.whole (Nat.not_le.mp hlong)] at hlength
      exact hlong hlength
    · obtain rfl := hname
      by_contra hne
      exact not_inside_of_base_nil ram hbase hne hmeets.inside
  · rintro ⟨hfits, hbase⟩
    suffices hbuilt : (buildFullname buffer ram base filename).Inside ∧
        stringAt (buildFullname buffer ram base filename).ram buffer = fullPath base filename by
      refine ⟨hbuilt.1, ?_, fun _ ↦ hbuilt.2, fun _ ↦ hbuilt.2⟩
      rw [NameBuffer.strlen, hbuilt.2]
      exact hfits
    by_cases hempty : ∀ name ∈ filename, name.bytes = []
    · rw [fullPath_base hempty] at hfits ⊢
      rw [buildFullname_base ram base hempty]
      refine ⟨inside_baseFullname ram base, ?_⟩
      rw [stringAt_baseFullname, List.take_of_length_le hfits]
    · obtain ⟨name, rfl, hne⟩ : ∃ name, filename = some name ∧ name.bytes ≠ [] := by
        simpa using hempty
      have hsum := (strlen_le_fullPath base name).trans hfits
      rw [fullPath_some hne (by omega) (by omega)] at hfits ⊢
      obtain ⟨hstring, hinside⟩ := @buildFullname_some buffer ram base name
        (fun hnil ↦ hne (hbase hnil name rfl)) hne
      exact ⟨hinside.mpr hfits, hstring⟩

end Strings

/-! ### The handlers -/

section Handlers

variable {Host : Type} {posix : Posix Host} {config : ServerConfig} {fuel : ℕ}
  {server : Server Host} {buffer : Addr}

theorem serverFullname_some {base name : CString} (hbase : config.serverBasedir = base.bytes)
    (hne : base.bytes ≠ []) (hname : name.bytes ≠ []) :
    serverFullname config (some name.bytes) =
      if (directoryPart base ++ name.bytes.take platformMaxFnameLen).length ≤ platformMaxFnameLen
      then some (directoryPart base ++ name.bytes.take platformMaxFnameLen) else none := by
  have htake : base.bytes.take platformMaxFnameLen ≠ [] := fun hnil ↦
    hne ((List.take_eq_nil_iff.mp hnil).resolve_left (by decide))
  have hdir : (if (base.bytes.take platformMaxFnameLen).getLast? ≠ some platformPathSeparator then
      base.bytes.take platformMaxFnameLen ++ [platformPathSeparator]
      else base.bytes.take platformMaxFnameLen) = directoryPart base := by
    rw [directoryPart, ite_not]
    split_ifs
    · exact (List.append_nil _).symm
    · rfl
  rw [serverFullname.eq_def, hbase]
  dsimp only
  rw [if_neg hname, if_neg htake, hdir]

/-- A handler of `Server` has a full name just if the code stays inside the buffer, and it is the
one that stands there. -/
theorem serverFullname_eq_some_iff (ram : Ram) {base : CString} (filename : Option CString)
    (hbase : config.serverBasedir = base.bytes) (path : List UInt8) :
    serverFullname config (filename.map CString.bytes) = some path ↔
      (buildFullname buffer ram base filename).Inside ∧
        stringAt (buildFullname buffer ram base filename).ram buffer = path := by
  by_cases hempty : ∀ name ∈ filename, name.bytes = []
  · have hcut : serverFullname config (filename.map CString.bytes) =
        some (base.bytes.take platformMaxFnameLen) := by
      rw [serverFullname.eq_def, hbase]
      rcases filename with _ | name
      · rfl
      · exact if_pos (hempty name rfl)
    rw [buildFullname_base ram base hempty, stringAt_baseFullname, hcut, Option.some_inj]
    exact (and_iff_right (inside_baseFullname ram base)).symm
  · obtain ⟨name, rfl, hne⟩ : ∃ name, filename = some name ∧ name.bytes ≠ [] := by
      simpa using hempty
    by_cases hnil : base.bytes = []
    · have hnone : serverFullname config ((some name).map CString.bytes) = none := by
        rw [serverFullname.eq_def, hbase, hnil]
        exact (if_neg hne).trans (if_pos rfl)
      rw [hnone]
      exact iff_of_false (fun hsome ↦ nomatch hsome)
        fun hbuilt ↦ not_inside_of_base_nil ram hnil hne hbuilt.1
    · obtain ⟨hstring, hinside⟩ := @buildFullname_some buffer ram base name hnil hne
      rw [Option.map_some, serverFullname_some hbase hnil hne, Option.ite_none_right_eq_some,
        Option.some_inj, hinside, hstring]

/-- A request to open a file gives its name to the handler. -/
theorem handlerName_open {pathname : CString} {flags mode : Int32}
    (hrequest : ProperPacket [.o rfsOpOpen, .p (some (stringBlock pathname))
      (stringBlockLen pathname), .i flags, .i mode])
    (hbytes : BytesAt server.ram config.rfsBuffer (packet [.o rfsOpOpen,
      .p (some (stringBlock pathname)) (stringBlockLen pathname), .i flags, .i mode])) :
    handlerName posix config fuel server .open = some (some pathname) := by
  obtain ⟨filename, hread, hname⟩ := remotefsOpenReadRequest_eq hrequest hbytes
  rw [handlerName, hread]
  exact congrArg (fun name ↦ some (some name)) (cstringAt_eq hname)

/-- The full name that each handler makes is bounded and right just if the name fits. -/
theorem namesMeet_iff (posix : Posix Host) (config : ServerConfig) (fuel : ℕ)
    (server : Server Host) (buffer : Addr) (base : CString) (handler : PathHandler) :
    (∀ filename ∈ handlerName posix config fuel server handler,
        NameMeets buffer server.ram base filename) ↔
      ∀ filename ∈ handlerName posix config fuel server handler, NameFits base filename :=
  forall₂_congr fun filename _ ↦ nameMeets_iff_fits server.ram base filename

end Handlers

/-- The directory `/`. -/
def rootBase : CString := ⟨[platformPathSeparator], by decide⟩

/-- A name of as many bytes as a full name may have. -/
def longName : CString :=
  ⟨List.replicate platformMaxFnameLen 0x61, fun hmem ↦
    absurd (List.eq_of_mem_replicate hmem) (by decide)⟩

/-- A server that has received a request to open a file. -/
def openServer (pathname : CString) : Server Unit :=
  ⟨(Cursor.putAll ⟨fun _ ↦ 0, rootServer.rfsBuffer⟩
    (packet ((FileCall.open pathname 0 0).request plainClient))).ram, ()⟩

theorem handlerName_openServer {pathname : CString}
    (hfits : (FileCall.open pathname 0 0).Fits 4096) :
    handlerName readHost rootServer 0 (openServer pathname) .open = some (some pathname) := by
  have hrequest := @FileCall.request_proper plainClient _ _ hfits
  have hstands : BytesAt (openServer pathname).ram rootServer.rfsBuffer
      (packet ((FileCall.open pathname 0 0).request plainClient)) :=
    bytesAt_putAll (Nat.le_of_lt hrequest.length_lt)
  exact handlerName_open hrequest hstands

/-- A name that does not fit behind `/`. -/
theorem not_namesMeet_longName :
    ¬ ∀ filename ∈ handlerName readHost rootServer 0 (openServer longName) .open,
      NameMeets 0x8000 (openServer longName).ram rootBase filename := by
  intro hmeets
  have hlength : longName.bytes.length = platformMaxFnameLen := List.length_replicate
  have hfits : (FileCall.open longName 0 0).Fits 4096 := by
    have hpacket : (FileCall.open longName 0 0).packetLength = 35 + platformMaxFnameLen := by
      rw [FileCall.packetLength, CString.strlen, hlength]
    rw [FileCall.Fits, hpacket]
    decide
  have hne : longName.bytes ≠ [] := List.ne_nil_of_length_pos (by rw [hlength]; decide)
  have hlong : (fullPath rootBase (some longName)).length = platformMaxFnameLen + 1 := by
    rw [fullPath, if_neg hne, List.length_append, hlength]
    rfl
  have hname := hmeets _ (handlerName_openServer hfits)
  have hle := hname.length_le
  rw [NameBuffer.strlen, hname.whole (by rw [hlong]; exact Nat.lt_succ_self _), hlong] at hle
  exact Nat.not_succ_le_self _ hle

end Elua.Rfs
