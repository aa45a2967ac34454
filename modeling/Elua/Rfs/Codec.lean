import Elua.Foundation.CString
import Elua.Rpc.RoundTrip

/-!
# The requests and responses of the remote file system

The code of `remotefs.c`: for each operation, how the request and the response are written and read.
Every function is a call of the generic functions with the format of its packet. A reader gets its
results out of the values that `eluarpc_gen_read` stores in the order of the format; where a format
has a value of a type at an index, the functions `intAt`, `u32At`, `s32At` and `ptrAt` give it.
-/

set_option autoImplicit false
set_option relaxedAutoImplicit false

namespace Elua.Rfs

open Foundation Rpc

/-! ### Operations -/

def rfsOpOpen : UInt8 := 0x01
def rfsOpWrite : UInt8 := 0x02
def rfsOpRead : UInt8 := 0x03
def rfsOpClose : UInt8 := 0x04
def rfsOpLseek : UInt8 := 0x05
def rfsOpOpendir : UInt8 := 0x06
def rfsOpReaddir : UInt8 := 0x07
def rfsOpClosedir : UInt8 := 0x08

/-! ### Stored values -/

/-- The `int` that was stored at an index. -/
def intAt (values : List ReadValue) (index : ℕ) : Int32 :=
  match values[index]? with
  | some (.int fdata) => fdata
  | _ => 0

/-- The `u32` that was stored at an index. -/
def u32At (values : List ReadValue) (index : ℕ) : UInt32 :=
  match values[index]? with
  | some (.u32 fdata) => fdata
  | _ => 0

/-- The `s32` that was stored at an index. -/
def s32At (values : List ReadValue) (index : ℕ) : Int32 :=
  match values[index]? with
  | some (.s32 fdata) => fdata
  | _ => 0

/-- The pointer and the length that were stored at an index. -/
def ptrAt (values : List ReadValue) (index : ℕ) : Option Addr × UInt32 :=
  match values[index]? with
  | some (.ptr pptr ptrlen) => (pptr, ptrlen)
  | _ => (none, 0)

/-! ### Strings in memory -/

/-- The bytes of the string at an address, up to its zero. -/
def stringBytes (ram : Ram) : Addr → ℕ → List UInt8
  | _, 0 => []
  | addr, fuel + 1 => if ram addr = 0 then [] else ram addr :: stringBytes ram (addr + 1) fuel

/-- The string at an address. -/
def stringAt (ram : Ram) (addr : Addr) : List UInt8 := stringBytes ram addr (2 ^ 32)

/-- A string with its zero, as it is written into packets. -/
def stringBlock (string : CString) : List UInt8 := string.bytes ++ [0]

/-- `strlen( string ) + 1`. -/
def stringBlockLen (string : CString) : UInt32 := UInt32.ofNat (string.strlen + 1)

section Strings

variable {ram : Ram} {addr : Addr}

/-- The bytes in front of a zero. -/
theorem stringBytes_eq {bytes : List UInt8} (hbytes : BytesAt ram addr (bytes ++ [0]))
    (hzero : (0 : UInt8) ∉ bytes) {fuel : ℕ} (hfuel : bytes.length < fuel) :
    stringBytes ram addr fuel = bytes := by
  induction bytes generalizing addr fuel with
  | nil =>
    obtain ⟨fuel, rfl⟩ := Nat.exists_eq_succ_of_ne_zero (Nat.ne_of_gt hfuel)
    rw [stringBytes, if_pos hbytes.1]
  | cons byte bytes ih =>
    obtain ⟨fuel, rfl⟩ := Nat.exists_eq_succ_of_ne_zero (Nat.ne_of_gt (Nat.zero_lt_of_lt hfuel))
    obtain ⟨hfirst, hrest⟩ := hbytes
    have hne : ¬ ram addr = 0 := by
      intro hsame
      rw [hfirst] at hsame
      exact hzero (hsame ▸ List.mem_cons_self)
    rw [stringBytes, if_neg hne, hfirst,
      ih hrest (fun hmem ↦ hzero (List.mem_cons_of_mem _ hmem)) (Nat.lt_of_succ_lt_succ hfuel)]

/-- The string of a block. -/
theorem stringAt_block {string : CString} (hbytes : BytesAt ram addr (stringBlock string))
    (hlength : string.strlen < 2 ^ 32) : stringAt ram addr = string.bytes :=
  stringBytes_eq hbytes string.zero_notMem hlength

/-- The length of the block of a string. -/
theorem toNat_stringBlockLen {string : CString} (hlength : string.strlen + 1 < 2 ^ 32) :
    (stringBlockLen string).toNat = (stringBlock string).length := by
  rw [stringBlockLen, UInt32.toNat_ofNat_of_lt' hlength, stringBlock, List.length_append]
  rfl

end Strings

/-! ### open -/

section Codecs

variable (ram : Ram) (p : Addr)

def remotefsOpenWriteResponse (result : Int32) : Ram :=
  eluarpcGenWrite ram p [.r rfsOpOpen, .i result]

def remotefsOpenReadResponse : EluarpcStatus × Int32 :=
  let (status, values) := eluarpcGenRead ram p [.r rfsOpOpen, .i]
  (status, intAt values 0)

def remotefsOpenWriteRequest (pathname : CString) (flags mode : Int32) : Ram :=
  eluarpcGenWrite ram p
    [.o rfsOpOpen, .p (some (stringBlock pathname)) (stringBlockLen pathname), .i flags, .i mode]

def remotefsOpenReadRequest : EluarpcStatus × Option Addr × Int32 × Int32 :=
  let (status, values) := eluarpcGenRead ram p [.o rfsOpOpen, .p, .i, .i]
  (status, (ptrAt values 0).1, intAt values 1, intAt values 2)

/-! ### write -/

def remotefsWriteWriteResponse (result : UInt32) : Ram :=
  eluarpcGenWrite ram p [.r rfsOpWrite, .l result]

def remotefsWriteReadResponse : EluarpcStatus × UInt32 :=
  let (status, values) := eluarpcGenRead ram p [.r rfsOpWrite, .l]
  (status, u32At values 0)

def remotefsWriteWriteRequest (fd : Int32) (buf : Option (List UInt8)) (count : UInt32) : Ram :=
  eluarpcGenWrite ram p [.o rfsOpWrite, .i fd, .p buf count]

def remotefsWriteReadRequest : EluarpcStatus × Int32 × Option Addr × UInt32 :=
  let (status, values) := eluarpcGenRead ram p [.o rfsOpWrite, .i, .p]
  (status, intAt values 0, ptrAt values 1)

/-! ### read -/

def remotefsReadWriteResponse (readbytes : UInt32) : Ram :=
  eluarpcGenWrite ram p [.r rfsOpRead, .p none readbytes]

def remotefsReadReadResponse : EluarpcStatus × Option Addr × UInt32 :=
  let (status, values) := eluarpcGenRead ram p [.r rfsOpRead, .p]
  (status, ptrAt values 0)

def remotefsReadWriteRequest (fd : Int32) (count : UInt32) : Ram :=
  eluarpcGenWrite ram p [.o rfsOpRead, .i fd, .l count]

def remotefsReadReadRequest : EluarpcStatus × Int32 × UInt32 :=
  let (status, values) := eluarpcGenRead ram p [.o rfsOpRead, .i, .l]
  (status, intAt values 0, u32At values 1)

/-! ### close -/

def remotefsCloseWriteResponse (result : Int32) : Ram :=
  eluarpcGenWrite ram p [.r rfsOpClose, .i result]

def remotefsCloseReadResponse : EluarpcStatus × Int32 :=
  let (status, values) := eluarpcGenRead ram p [.r rfsOpClose, .i]
  (status, intAt values 0)

def remotefsCloseWriteRequest (fd : Int32) : Ram :=
  eluarpcGenWrite ram p [.o rfsOpClose, .i fd]

def remotefsCloseReadRequest : EluarpcStatus × Int32 :=
  let (status, values) := eluarpcGenRead ram p [.o rfsOpClose, .i]
  (status, intAt values 0)

/-! ### lseek -/

def remotefsLseekWriteResponse (result : Int32) : Ram :=
  eluarpcGenWrite ram p [.r rfsOpLseek, .L result]

def remotefsLseekReadResponse : EluarpcStatus × Int32 :=
  let (status, values) := eluarpcGenRead ram p [.r rfsOpLseek, .L]
  (status, s32At values 0)

def remotefsLseekWriteRequest (fd offset whence : Int32) : Ram :=
  eluarpcGenWrite ram p [.o rfsOpLseek, .i fd, .L offset, .i whence]

def remotefsLseekReadRequest : EluarpcStatus × Int32 × Int32 × Int32 :=
  let (status, values) := eluarpcGenRead ram p [.o rfsOpLseek, .i, .L, .i]
  (status, intAt values 0, s32At values 1, intAt values 2)

/-! ### opendir -/

def remotefsOpendirWriteResponse (d : UInt32) : Ram :=
  eluarpcGenWrite ram p [.r rfsOpOpendir, .l d]

def remotefsOpendirReadResponse : EluarpcStatus × UInt32 :=
  let (status, values) := eluarpcGenRead ram p [.r rfsOpOpendir, .l]
  (status, u32At values 0)

def remotefsOpendirWriteRequest (name : CString) : Ram :=
  eluarpcGenWrite ram p [.o rfsOpOpendir, .p (some (stringBlock name)) (stringBlockLen name)]

def remotefsOpendirReadRequest : EluarpcStatus × Option Addr :=
  let (status, values) := eluarpcGenRead ram p [.o rfsOpOpendir, .p]
  (status, (ptrAt values 0).1)

/-! ### readdir -/

def remotefsReaddirWriteResponse (name : Option CString) (size ftime : UInt32) : Ram :=
  eluarpcGenWrite ram p
    [.r rfsOpReaddir, .p (name.map stringBlock) ((name.map stringBlockLen).getD 0), .l size,
      .l ftime]

def remotefsReaddirReadResponse : EluarpcStatus × Option Addr × UInt32 × UInt32 :=
  let (status, values) := eluarpcGenRead ram p [.r rfsOpReaddir, .p, .l, .l]
  (status, (ptrAt values 0).1, u32At values 1, u32At values 2)

def remotefsReaddirWriteRequest (d : UInt32) : Ram :=
  eluarpcGenWrite ram p [.o rfsOpReaddir, .l d]

def remotefsReaddirReadRequest : EluarpcStatus × UInt32 :=
  let (status, values) := eluarpcGenRead ram p [.o rfsOpReaddir, .l]
  (status, u32At values 0)

/-! ### closedir -/

def remotefsClosedirWriteResponse (d : Int32) : Ram :=
  eluarpcGenWrite ram p [.r rfsOpClosedir, .i d]

def remotefsClosedirReadResponse : EluarpcStatus × Int32 :=
  let (status, values) := eluarpcGenRead ram p [.r rfsOpClosedir, .i]
  (status, intAt values 0)

def remotefsClosedirWriteRequest (d : UInt32) : Ram :=
  eluarpcGenWrite ram p [.o rfsOpClosedir, .l d]

def remotefsClosedirReadRequest : EluarpcStatus × UInt32 :=
  let (status, values) := eluarpcGenRead ram p [.o rfsOpClosedir, .l]
  (status, u32At values 0)

end Codecs

end Elua.Rfs
