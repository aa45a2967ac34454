import Elua.Foundation.Ram

/-!
# ELUARPC packets

The code of `eluarpc.c`. A writer is a `Cursor`, a reader is the address it has got to with the
error flag, which no function but the first one of a call resets. A call of `eluarpc_gen_write` or
`eluarpc_gen_read` has a format string and arguments of the types of its letters: this is a list of
letters with their arguments, `WriteItem` and `ReadItem`. What a reader stores through its pointer
arguments is a list of `ReadValue`.

The tools and the targets are built with words of 32 bits, so that `u32`, `int` and addresses have
32 bits.
-/

set_option autoImplicit false
set_option relaxedAutoImplicit false

namespace Elua.Rpc

open Foundation

/-! ### Constants -/

/-- The type codes of `rtype.h`. -/
def typeInt8 : UInt8 := 0x01
def typeInt16 : UInt8 := 0x02
def typeInt32 : UInt8 := 0x03
def typePtr : UInt8 := 0x04
def typeStart : UInt8 := 0x05
def typeEnd : UInt8 := 0x06
def typeOpId : UInt8 := 0x07
def typeSmallPtr : UInt8 := 0x08
def typePktSize : UInt8 := 0xA5

/-- `PACKET_SIG`. -/
def packetSig : UInt32 := 0x18AFC284

/-- `ELUARPC_OP_RES_MOD`. -/
def eluarpcOpResMod : UInt8 := 0x80

/-- `ELUARPC_START_OFFSET`. -/
def eluarpcStartOffset : ℕ := 4

/-- `ELUARPC_PTR_HEADER_SIZE`. -/
def eluarpcPtrHeaderSize : ℕ := 6

/-- `ELUARPC_SMALL_PTR_HEADER_SIZE`. -/
def eluarpcSmallPtrHeaderSize : ℕ := 4

/-- `ELUARPC_OK` and `ELUARPC_ERR`. -/
inductive EluarpcStatus
  | ok
  | err
  deriving DecidableEq, Repr

/-! ### Serialization -/

/-- The bytes of a `u16`, as they are written. -/
def bytes16 (fdata : UInt16) : List UInt8 := [(fdata &&& 0xFF).toUInt8, ((fdata >>> 8) &&& 0xFF).toUInt8]

/-- The bytes of a `u32`, as they are written. -/
def bytes32 (fdata : UInt32) : List UInt8 :=
  [(fdata &&& 0xFF).toUInt8, ((fdata >>> 8) &&& 0xFF).toUInt8, ((fdata >>> 16) &&& 0xFF).toUInt8,
    ((fdata >>> 24) &&& 0xFF).toUInt8]

def eluarpcWriteU8 (cursor : Cursor) (fdata : UInt8) : Cursor := (cursor.put typeInt8).put fdata

def eluarpcWriteOpId (cursor : Cursor) (fdata : UInt8) : Cursor := (cursor.put typeOpId).put fdata

def eluarpcWriteU16 (cursor : Cursor) (fdata : UInt16) : Cursor :=
  (cursor.put typeInt16).putAll (bytes16 fdata)

def eluarpcWriteU32 (cursor : Cursor) (fdata : UInt32) : Cursor :=
  (cursor.put typeInt32).putAll (bytes32 fdata)

/-- `memcpy` if there is a source, and the step over the block. -/
def putBlock (cursor : Cursor) (src : Option (List UInt8)) (srclen : ℕ) : Cursor :=
  match src with
  | some bytes => ⟨(cursor.putAll (bytes.take srclen)).ram, cursor.addr.plus srclen⟩
  | none => ⟨cursor.ram, cursor.addr.plus srclen⟩

def eluarpcWritePtr (cursor : Cursor) (src : Option (List UInt8)) (srclen : UInt32) : Cursor :=
  putBlock (eluarpcWriteU32 (cursor.put typePtr) srclen) src srclen.toNat

def eluarpcWriteSmallPtr (cursor : Cursor) (src : Option (List UInt8)) (srclen : UInt16) : Cursor :=
  putBlock (eluarpcWriteU16 (cursor.put typeSmallPtr) srclen) src srclen.toNat

/-! ### Deserialization -/

/-- The address a reader has got to, with `eluarpc_err_flag`. -/
structure Reader where
  addr : Addr
  errFlag : EluarpcStatus

/-- `*p ++`. -/
def Reader.next (reader : Reader) : Reader := { reader with addr := reader.addr + 1 }

/-- A `u16` of two bytes. -/
def value16 (b0 b1 : UInt8) : UInt16 := b0.toUInt16 ||| (b1.toUInt16 <<< 8)

/-- A `u32` of four bytes. -/
def value32 (b0 b1 b2 b3 : UInt8) : UInt32 :=
  b0.toUInt32 ||| (b1.toUInt32 <<< 8) ||| (b2.toUInt32 <<< 16) ||| (b3.toUInt32 <<< 24)

def eluarpcReadExpect (ram : Ram) (reader : Reader) (fdata : UInt8) : Reader :=
  ⟨reader.addr + 1, if ram reader.addr ≠ fdata then .err else reader.errFlag⟩

def eluarpcReadU8 (ram : Ram) (reader : Reader) : UInt8 × Reader :=
  let data := eluarpcReadExpect ram reader typeInt8
  (ram data.addr, data.next)

def eluarpcReadOpId (ram : Ram) (reader : Reader) : UInt8 × Reader :=
  let data := eluarpcReadExpect ram reader typeOpId
  (ram data.addr, data.next)

def eluarpcExpectOpId (ram : Ram) (reader : Reader) (id : UInt8) : Reader :=
  let data := eluarpcReadExpect ram reader typeOpId
  let temp := ram data.addr
  ⟨data.addr + 1, if temp ≠ id then .err else data.errFlag⟩

def eluarpcReadU16 (ram : Ram) (reader : Reader) : UInt16 × Reader :=
  let data := eluarpcReadExpect ram reader typeInt16
  (value16 (ram data.addr) (ram data.next.addr), data.next.next)

def eluarpcReadU32 (ram : Ram) (reader : Reader) : UInt32 × Reader :=
  let data := eluarpcReadExpect ram reader typeInt32
  let second := data.next
  let third := second.next
  let fourth := third.next
  (value32 (ram data.addr) (ram second.addr) (ram third.addr) (ram fourth.addr), fourth.next)

/-- `eluarpc_read_ptr`, as it is called, without a destination: the length. -/
def eluarpcReadPtr (ram : Ram) (reader : Reader) : UInt32 × Reader :=
  let (srclen, data) := eluarpcReadU32 ram (eluarpcReadExpect ram reader typePtr)
  (srclen, { data with addr := data.addr.plus srclen.toNat })

/-- `eluarpc_read_small_ptr`, as it is called, without a destination: the length. -/
def eluarpcReadSmallPtr (ram : Ram) (reader : Reader) : UInt16 × Reader :=
  let (srclen, data) := eluarpcReadU16 ram (eluarpcReadExpect ram reader typeSmallPtr)
  (srclen, { data with addr := data.addr.plus srclen.toNat })

/-! ### Packet handling -/

def eluarpcStartPacket (cursor : Cursor) : Cursor :=
  eluarpcWriteU32 (Cursor.put ⟨cursor.ram, cursor.addr.plus eluarpcStartOffset⟩ typeStart) packetSig

/-- `eluarpc_end_packet`, with `eluarpc_packet_ptr`. -/
def eluarpcEndPacket (packetPtr : Addr) (cursor : Cursor) : Cursor :=
  let finish := eluarpcWriteU32 (cursor.put typeEnd) (~~~packetSig)
  let len := UInt16.ofNat (finish.addr - packetPtr).toNat
  eluarpcWriteU16 (Cursor.put ⟨finish.ram, packetPtr⟩ typePktSize) len

def eluarpcMatchPacketStart (ram : Ram) (reader : Reader) : Reader :=
  let data := eluarpcReadExpect ram { reader with addr := reader.addr.plus eluarpcStartOffset } typeStart
  let (fdata, last) := eluarpcReadU32 ram data
  { last with errFlag := if fdata ≠ packetSig then .err else last.errFlag }

def eluarpcMatchPacketEnd (ram : Ram) (reader : Reader) : Reader :=
  let (fdata, last) := eluarpcReadU32 ram (eluarpcReadExpect ram reader typeEnd)
  { last with errFlag := if fdata ≠ ~~~packetSig then .err else last.errFlag }

/-- `eluarpc_get_request_id`. -/
def eluarpcGetRequestId (ram : Ram) (addr : Addr) : EluarpcStatus × UInt8 :=
  let (id, last) := eluarpcReadOpId ram (eluarpcMatchPacketStart ram ⟨addr, .ok⟩)
  (last.errFlag, id)

/-- `eluarpc_get_packet_size`. -/
def eluarpcGetPacketSize (ram : Ram) (addr : Addr) : EluarpcStatus × UInt16 :=
  let (size, last) := eluarpcReadU16 ram (eluarpcReadExpect ram ⟨addr, .ok⟩ typePktSize)
  (last.errFlag, size)

/-! ### Words and their bytes -/

/-- Bits above others. -/
theorem or_shiftLeft {low : ℕ} (high : ℕ) {bits : ℕ} (hlow : low < 2 ^ bits) :
    low ||| high <<< bits = low + high * 2 ^ bits := by
  rw [Nat.or_comm, ← Nat.shiftLeft_add_eq_or_of_lt hlow, Nat.shiftLeft_eq, Nat.add_comm]

/-- The number of two bytes. -/
theorem toNat_value16 (b0 b1 : UInt8) : (value16 b0 b1).toNat = b0.toNat + b1.toNat * 2 ^ 8 := by
  have hshift : b1.toNat <<< 8 % 2 ^ 16 = b1.toNat <<< 8 := by
    have hbyte := b1.toNat_lt
    rw [Nat.shiftLeft_eq]
    omega
  simp only [value16, UInt16.toNat_or, UInt8.toNat_toUInt16, UInt16.toNat_shiftLeft]
  change b0.toNat ||| b1.toNat <<< 8 % 2 ^ 16 = _
  rw [hshift, or_shiftLeft b1.toNat b0.toNat_lt]

/-- The number of four bytes. -/
theorem toNat_value32 (b0 b1 b2 b3 : UInt8) :
    (value32 b0 b1 b2 b3).toNat =
      b0.toNat + b1.toNat * 2 ^ 8 + b2.toNat * 2 ^ 16 + b3.toNat * 2 ^ 24 := by
  have hfirst := b0.toNat_lt
  have hsecond := b1.toNat_lt
  have hthird := b2.toNat_lt
  have hshift : ∀ bits ≤ 24, ∀ byte : UInt8,
      byte.toNat <<< bits % 2 ^ 32 = byte.toNat <<< bits := by
    intro bits hbits byte
    have hpow : 2 ^ bits ≤ 2 ^ 24 := Nat.pow_le_pow_right Nat.zero_lt_two hbits
    rw [Nat.shiftLeft_eq]
    refine Nat.mod_eq_of_lt ?_
    calc byte.toNat * 2 ^ bits < 2 ^ 8 * 2 ^ bits :=
          Nat.mul_lt_mul_of_pos_right byte.toNat_lt (Nat.two_pow_pos _)
      _ ≤ 2 ^ 8 * 2 ^ 24 := Nat.mul_le_mul_left _ hpow
  simp only [value32, UInt32.toNat_or, UInt8.toNat_toUInt32, UInt32.toNat_shiftLeft]
  change b0.toNat ||| b1.toNat <<< 8 % 2 ^ 32 ||| b2.toNat <<< 16 % 2 ^ 32 |||
    b3.toNat <<< 24 % 2 ^ 32 = _
  rw [hshift 8 (by decide), hshift 16 (by decide), hshift 24 (by decide),
    or_shiftLeft b1.toNat hfirst, or_shiftLeft b2.toNat (by omega),
    or_shiftLeft b3.toNat (by omega)]

/-- A `u16` is the number of its bytes. -/
theorem value16_bytes16 (fdata : UInt16) :
    value16 (fdata &&& 0xFF).toUInt8 ((fdata >>> 8) &&& 0xFF).toUInt8 = fdata := by
  refine UInt16.toNat_inj.mp ?_
  have hlt := fdata.toNat_lt
  have hmask : ∀ value : ℕ, value &&& 255 = value % 256 := fun value ↦
    Nat.and_two_pow_sub_one_eq_mod value 8
  simp only [toNat_value16, UInt16.toNat_toUInt8, UInt16.toNat_and, UInt16.toNat_shiftRight]
  change (fdata.toNat &&& 255) % 2 ^ 8 + (fdata.toNat >>> 8 &&& 255) % 2 ^ 8 * 2 ^ 8 = fdata.toNat
  rw [hmask, hmask, Nat.shiftRight_eq_div_pow]
  omega

/-- A `u32` is the number of its bytes. -/
theorem value32_bytes32 (fdata : UInt32) :
    value32 (fdata &&& 0xFF).toUInt8 ((fdata >>> 8) &&& 0xFF).toUInt8
      ((fdata >>> 16) &&& 0xFF).toUInt8 ((fdata >>> 24) &&& 0xFF).toUInt8 = fdata := by
  refine UInt32.toNat_inj.mp ?_
  have hlt := fdata.toNat_lt
  have hmask : ∀ value : ℕ, value &&& 255 = value % 256 := fun value ↦
    Nat.and_two_pow_sub_one_eq_mod value 8
  simp only [toNat_value32, UInt32.toNat_toUInt8, UInt32.toNat_and, UInt32.toNat_shiftRight]
  change (fdata.toNat &&& 255) % 2 ^ 8 + (fdata.toNat >>> 8 &&& 255) % 2 ^ 8 * 2 ^ 8 +
    (fdata.toNat >>> 16 &&& 255) % 2 ^ 8 * 2 ^ 16 +
    (fdata.toNat >>> 24 &&& 255) % 2 ^ 8 * 2 ^ 24 = fdata.toNat
  rw [hmask, hmask, hmask, hmask, Nat.shiftRight_eq_div_pow, Nat.shiftRight_eq_div_pow,
    Nat.shiftRight_eq_div_pow]
  omega

/-! ### The generic functions -/

/-- A letter of a format string with the arguments that `eluarpc_gen_write` takes for it. -/
inductive WriteItem
  | o (id : UInt8)
  | r (id : UInt8)
  | c (fdata : UInt8)
  | h (fdata : UInt16)
  | i (fdata : Int32)
  | l (fdata : UInt32)
  | L (fdata : Int32)
  | p (src : Option (List UInt8)) (srclen : UInt32)
  | P (src : Option (List UInt8)) (srclen : UInt16)
  deriving DecidableEq

/-- A letter of a format string with the argument of `eluarpc_gen_read` that is not a pointer. -/
inductive ReadItem
  | o (id : UInt8)
  | r (id : UInt8)
  | c
  | h
  | i
  | l
  | L
  | p
  | P
  deriving DecidableEq

/-- What `eluarpc_gen_read` stores for a letter. A null pointer is `none`. -/
inductive ReadValue
  | u8 (fdata : UInt8)
  | u16 (fdata : UInt16)
  | int (fdata : Int32)
  | u32 (fdata : UInt32)
  | s32 (fdata : Int32)
  | ptr (pptr : Option Addr) (ptrlen : UInt32)
  | smallPtr (pptr : Option Addr) (ptrlen : UInt16)
  deriving DecidableEq

def eluarpcWriteItem (cursor : Cursor) : WriteItem → Cursor
  | .o id => eluarpcWriteOpId cursor id
  | .r id => cursor.put (eluarpcOpResMod ||| id)
  | .c fdata => eluarpcWriteU8 cursor fdata
  | .h fdata => eluarpcWriteU16 cursor fdata
  | .i fdata => eluarpcWriteU32 cursor fdata.toUInt32
  | .l fdata => eluarpcWriteU32 cursor fdata
  | .L fdata => eluarpcWriteU32 cursor fdata.toUInt32
  | .p src srclen => eluarpcWritePtr cursor src srclen
  | .P src srclen => eluarpcWriteSmallPtr cursor src srclen

/-- The loop of `eluarpc_gen_write` over the format string. -/
def eluarpcWriteItems (cursor : Cursor) (fmt : List WriteItem) : Cursor :=
  fmt.foldl eluarpcWriteItem cursor

/-- `eluarpc_gen_write`: the memory with the packet at the address. -/
def eluarpcGenWrite (ram : Ram) (addr : Addr) (fmt : List WriteItem) : Ram :=
  (eluarpcEndPacket addr (eluarpcWriteItems (eluarpcStartPacket ⟨ram, addr⟩) fmt)).ram

def eluarpcReadItem (ram : Ram) (reader : Reader) : ReadItem → List ReadValue × Reader
  | .o id => ([], eluarpcExpectOpId ram reader id)
  | .r id => ([], eluarpcReadExpect ram reader (eluarpcOpResMod ||| id))
  | .c => let (fdata, last) := eluarpcReadU8 ram reader; ([.u8 fdata], last)
  | .h => let (fdata, last) := eluarpcReadU16 ram reader; ([.u16 fdata], last)
  | .l => let (fdata, last) := eluarpcReadU32 ram reader; ([.u32 fdata], last)
  | .L => let (temp32, last) := eluarpcReadU32 ram reader; ([.s32 temp32.toInt32], last)
  | .i => let (temp32, last) := eluarpcReadU32 ram reader; ([.int temp32.toInt32], last)
  | .p =>
    let (temp32, last) := eluarpcReadPtr ram reader
    let header := reader.addr.plus eluarpcPtrHeaderSize
    ([.ptr (if last.addr = header then none else some header) temp32], last)
  | .P =>
    let (temp16, last) := eluarpcReadSmallPtr ram reader
    let header := reader.addr.plus eluarpcSmallPtrHeaderSize
    ([.smallPtr (if last.addr = header then none else some header) temp16], last)

/-- The loop of `eluarpc_gen_read` over the format string. -/
def eluarpcReadItems (ram : Ram) (reader : Reader) : List ReadItem → List ReadValue × Reader
  | [] => ([], reader)
  | item :: fmt =>
    let (values, next) := eluarpcReadItem ram reader item
    let (rest, last) := eluarpcReadItems ram next fmt
    (values ++ rest, last)

/-- `eluarpc_gen_read`: the error flag and what was stored. -/
def eluarpcGenRead (ram : Ram) (addr : Addr) (fmt : List ReadItem) :
    EluarpcStatus × List ReadValue :=
  let (values, last) := eluarpcReadItems ram (eluarpcMatchPacketStart ram ⟨addr, .ok⟩) fmt
  ((eluarpcMatchPacketEnd ram last).errFlag, values)

end Elua.Rpc
