import Elua.Foundation.CString
import Elua.Foundation.Loop
import Elua.Foundation.Overwrite
import Elua.Foundation.Word32

/-!
# The file system image and the two directory scanners

`Fsdata` is a file system instance: its flags, its size and the bytes of its image. A ROMFS is
read only; a WOFS (`wo`) can be written, and every call of its write function is recorded with what
the area held before. Reading a byte outside the image has no result.

`romfsOpenFile` looks a name up and `romfsReaddirR` finds the next file of a directory listing. Each
is a loop over the entries of the image with its own reading of the name; they share the arithmetic
that follows it (`readHeader`, `nextEntry`).
-/

set_option autoImplicit false
set_option relaxedAutoImplicit false

namespace Elua.Romfs

open Foundation

/-! ### Constants -/

/-- The number of descriptors all instances share. -/
abbrev totalMaxFds : ℕ := 8

/-- The longest file name. -/
def dmMaxFnameLength : ℕ := 30

/-- The first byte behind the last file. -/
def wofsEndMarkerChar : UInt8 := 0xFF

/-- The length of the delete word of a WOFS entry. -/
def wofsDelFieldSize : ℕ := 4

/-- The first byte of the delete word of a deleted file. -/
def wofsFileDeleted : UInt8 := 0xAA

/-- The length of the size field of an entry. -/
def romfsSizeLen : ℕ := 4

/-- The alignment of entries and fields. -/
def romfsAlign : ℕ := 4

/-- The space that must remain for a new file besides its name and its delete word. -/
def wofsMinNeededSize : ℕ := 11

/-! ### File system instances -/

/-- One call of the write function of an instance, with what the written area held before. -/
structure FlashWrite where
  addr : ℕ
  bytes : List UInt8
  before : List UInt8
  deriving DecidableEq, Repr

/-- A file system instance. The three flags are those of the `flags` byte of the descriptor. -/
structure Fsdata where
  /-- The image can be read directly by the CPU. -/
  direct : Bool
  /-- The instance is a write once file system. -/
  wo : Bool
  /-- There is already a file opened in write mode. -/
  writing : Bool
  /-- The size of the file system. -/
  maxSize : ℕ
  /-- The bytes of the image. -/
  image : List UInt8
  /-- The calls of the write function so far, oldest first. -/
  writes : List FlashWrite
  deriving DecidableEq, Repr

/-- The write function of an instance. -/
def Fsdata.writef (pfs : Fsdata) (bytes : List UInt8) (addr : ℕ) : Fsdata :=
  { pfs with
    image := overwrite pfs.image addr bytes
    writes := pfs.writes ++ [⟨addr, bytes, segment pfs.image addr bytes.length⟩] }

/-- Sets or clears the flag that says a file is being written. -/
def Fsdata.setWriting (pfs : Fsdata) (writing : Bool) : Fsdata := { pfs with writing := writing }

/-- Reads a byte from the file system. -/
def romfshRead8 (addr : ℕ) (pfs : Fsdata) : Option UInt8 := pfs.image[addr]?

/-- Whether the instance is a WOFS. -/
def romfshIsWofs (pfs : Fsdata) : Bool := pfs.wo

/-! ### Reading an entry -/

/-- Reads at most `count` bytes of a name, up to its terminating zero. -/
def readName (pfs : Fsdata) (addr : ℕ) : ℕ → Option (List UInt8)
  | 0 => some []
  | count + 1 => (romfshRead8 addr pfs).bind fun byte ↦
      if byte = 0 then some []
      else (readName pfs (add32 addr 1) count).map (byte :: ·)

/-- What follows the name of an entry: whether the file is deleted, its size, and the address of
its data. -/
structure Header where
  deleted : Bool
  size : ℕ
  data : ℕ
  deriving DecidableEq, Repr

/-- Reads the little endian word of the size field. -/
def readSize (pfs : Fsdata) (addr : ℕ) : Option ℕ := do
  let b0 ← romfshRead8 addr pfs
  let b1 ← romfshRead8 (add32 addr 1) pfs
  let b2 ← romfshRead8 (add32 addr 2) pfs
  let b3 ← romfshRead8 (add32 addr 3) pfs
  return leValue32 b0 b1 b2 b3

/-- Reads the header of an entry from the address behind its name: rounds up, reads the delete word
of a WOFS entry, then the size. -/
def readHeader (pfs : Fsdata) (addr : ℕ) : Option Header :=
  let field := alignUp4 addr
  if romfshIsWofs pfs then do
    let mark ← romfshRead8 field pfs
    let size ← readSize pfs (add32 field wofsDelFieldSize)
    return ⟨mark == wofsFileDeleted, size, add32 (add32 field wofsDelFieldSize) romfsSizeLen⟩
  else do
    let size ← readSize pfs field
    return ⟨false, size, add32 field romfsSizeLen⟩

/-- The address of the entry behind one with this header. On WOFS all names begin at a multiple of
the alignment. -/
def nextEntry (pfs : Fsdata) (header : Header) : ℕ :=
  if romfshIsWofs pfs then alignUp4 (add32 header.data header.size)
  else add32 header.data header.size

/-! ### Looking up a name -/

/-- The result of a lookup: the position of the end marker, or where the data of the file begins,
its size, and where its name begins. -/
inductive OpenFileResult
  | notFound (last : ℕ)
  | ok (baseaddr size nameaddr : ℕ)
  deriving DecidableEq, Repr

/-- Whether the lookup found the file. -/
def OpenFileResult.found : OpenFileResult → Bool
  | .notFound _ => false
  | .ok .. => true

/-- One pass of the lookup, at the entry at address `i`. -/
def romfsOpenFileBody (fname : CString) (pfs : Fsdata) (i : ℕ) : Option (ℕ ⊕ OpenFileResult) := do
  let first ← romfshRead8 i pfs
  if first = wofsEndMarkerChar then
    return .inr (.notFound i)
  else
    let fsname ← readName pfs i dmMaxFnameLength
    let header ← readHeader pfs (add32 i (fsname.length + 1))
    if strncasecmp dmMaxFnameLength fname.bytes fsname = 0 ∧ header.deleted = false then
      return .inr (.ok header.data header.size i)
    else
      return .inl (nextEntry pfs header)

/-- Looks a name up, from the start of the image. -/
def romfsOpenFile (fuel : ℕ) (fname : CString) (pfs : Fsdata) : Option OpenFileResult :=
  runLoop (romfsOpenFileBody fname pfs) fuel 0

/-- A lookup that succeeds has read a header that is not deleted. -/
theorem exists_header_of_found {fuel : ℕ} {fname : CString} {pfs : Fsdata}
    {baseaddr size nameaddr : ℕ}
    (hlookup : romfsOpenFile fuel fname pfs = some (.ok baseaddr size nameaddr)) :
    ∃ addr, readHeader pfs addr = some ⟨false, size, baseaddr⟩ := by
  obtain ⟨last, -, hbody⟩ := exists_leaves_of_runLoop hlookup
  obtain ⟨first, -, hbody⟩ := Option.bind_eq_some_iff.mp hbody
  split_ifs at hbody with hend
  · simp at hbody
  · simp only [Option.bind_eq_bind, Option.bind_eq_some_iff] at hbody
    obtain ⟨fsname, -, ⟨deleted, fsize, data⟩, hheader, hbody⟩ := hbody
    split_ifs at hbody with hmatch
    · simp only [Option.pure_def, Option.some.injEq, Sum.inr.injEq, OpenFileResult.ok.injEq] at hbody
      obtain ⟨rfl, rfl, rfl⟩ := hbody
      obtain ⟨-, rfl⟩ := hmatch
      exact ⟨_, hheader⟩
    · simp at hbody

/-- The data of an entry begins at a multiple of the alignment. -/
theorem data_mod_of_readHeader {pfs : Fsdata} {addr : ℕ} {header : Header}
    (hheader : readHeader pfs addr = some header) : header.data % romfsAlign = 0 := by
  have hfield := alignUp4_mod addr
  simp only [readHeader, Option.bind_eq_bind, Option.pure_def] at hheader
  split_ifs at hheader
  · simp only [Option.bind_eq_some_iff] at hheader
    obtain ⟨mark, -, size, -, hheader⟩ := hheader
    obtain rfl := Option.some.inj hheader
    have hword := add32_mod4 (alignUp4 addr) 4
    have hdata := add32_mod4 (add32 (alignUp4 addr) 4) 4
    simp only [romfsAlign, wofsDelFieldSize, romfsSizeLen]
    omega
  · simp only [Option.bind_eq_some_iff] at hheader
    obtain ⟨size, -, hheader⟩ := hheader
    obtain rfl := Option.some.inj hheader
    have hdata := add32_mod4 (alignUp4 addr) 4
    simp only [romfsAlign, romfsSizeLen]
    omega

/-- The data of a file that a lookup finds begins at a multiple of the alignment. -/
theorem baseaddr_mod_of_found {fuel : ℕ} {fname : CString} {pfs : Fsdata}
    {baseaddr size nameaddr : ℕ}
    (hlookup : romfsOpenFile fuel fname pfs = some (.ok baseaddr size nameaddr)) :
    baseaddr % romfsAlign = 0 := by
  obtain ⟨addr, hheader⟩ := exists_header_of_found hlookup
  exact data_mod_of_readHeader hheader

/-! ### Listing the directory -/

/-- A directory entry. -/
structure DmDirent where
  fname : List UInt8
  fsize : ℕ
  deriving DecidableEq, Repr

/-- One pass of the directory reader, at the entry at address `off`. A name that does not end within
the shared name buffer overruns it and has no result. -/
def romfsReaddirBody (pfs : Fsdata) (off : ℕ) : Option (ℕ ⊕ Option (DmDirent × ℕ)) := do
  let first ← romfshRead8 off pfs
  if first = wofsEndMarkerChar then
    return .inr none
  else
    let fname ← readName pfs off (dmMaxFnameLength + 1)
    if dmMaxFnameLength < fname.length then
      none
    else
      let header ← readHeader pfs (add32 off (fname.length + 1))
      if header.deleted then
        return .inl (nextEntry pfs header)
      else
        return .inr (some (⟨fname, header.size⟩, nextEntry pfs header))

/-- The next file of the listing, from a position of the directory stream, with the position behind
it. -/
def romfsReaddirR (fuel : ℕ) (pfs : Fsdata) (off : ℕ) : Option (Option (DmDirent × ℕ)) :=
  runLoop (romfsReaddirBody pfs) fuel off

/-- Calls `romfs_readdir_r` from a position of the stream until it returns no file. -/
def readdirAll (pfs : Fsdata) : ℕ → ℕ → Option (List DmDirent)
  | 0, _ => none
  | fuel + 1, off => (romfsReaddirR (fuel + 1) pfs off).bind fun result ↦
      match result with
      | none => some []
      | some (entry, next) => (readdirAll pfs fuel next).map (entry :: ·)

end Elua.Romfs
