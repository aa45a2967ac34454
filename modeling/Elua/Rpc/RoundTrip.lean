import Elua.Rpc.Packet

/-!
# ELUARPC packets are read as they were written

`WriteItem.encode` is the bytes of one letter of a format with its arguments, and `packet` the bytes
of a whole packet. The writer writes them (`eluarpcGenWrite_spec`), and a reader that stands on them
stores the values and moves behind them (`readItem_encode`). The error flag is never reset
(`eluarpcGenRead_err`), so that an operation that does not match is reported
(`readItem_of_mismatch`).
-/

set_option autoImplicit false
set_option relaxedAutoImplicit false

namespace Elua.Rpc

open Foundation

/-! ### Packets as bytes -/

/-- The bytes of a letter with its arguments. -/
def WriteItem.encode : WriteItem → List UInt8
  | .o id => [typeOpId, id]
  | .r id => [eluarpcOpResMod ||| id]
  | .c fdata => [typeInt8, fdata]
  | .h fdata => typeInt16 :: bytes16 fdata
  | .i fdata => typeInt32 :: bytes32 fdata.toUInt32
  | .l fdata => typeInt32 :: bytes32 fdata
  | .L fdata => typeInt32 :: bytes32 fdata.toUInt32
  | .p src srclen => typePtr :: typeInt32 :: bytes32 srclen ++ src.getD []
  | .P src srclen => typeSmallPtr :: typeInt16 :: bytes16 srclen ++ src.getD []

/-- The bytes of the letters. -/
def encodeAll (fmt : List WriteItem) : List UInt8 := fmt.flatMap WriteItem.encode

/-- The bytes behind the size: the start, the letters and the end. -/
def packetBody (fmt : List WriteItem) : List UInt8 :=
  typeStart :: typeInt32 :: bytes32 packetSig ++
    (encodeAll fmt ++ typeEnd :: typeInt32 :: bytes32 (~~~packetSig))

/-- The bytes of the size of a packet. -/
def packetSize (size : ℕ) : List UInt8 := typePktSize :: typeInt16 :: bytes16 (UInt16.ofNat size)

/-- The bytes of a packet. -/
def packet (fmt : List WriteItem) : List UInt8 :=
  packetSize (eluarpcStartOffset + (packetBody fmt).length) ++ packetBody fmt

/-- Operation ids are below 128, and a block is there and has the length that is given. -/
def WriteItem.Proper : WriteItem → Prop
  | .o id => id.toNat < 128
  | .r id => id.toNat < 128
  | .p src srclen => ∃ bytes, src = some bytes ∧ bytes.length = srclen.toNat
  | .P src srclen => ∃ bytes, src = some bytes ∧ bytes.length = srclen.toNat
  | _ => True

/-- The same letter for the reader. -/
def WriteItem.toRead : WriteItem → ReadItem
  | .o id => .o id
  | .r id => .r id
  | .c _ => .c
  | .h _ => .h
  | .i _ => .i
  | .l _ => .l
  | .L _ => .L
  | .p _ _ => .p
  | .P _ _ => .P

/-- The operation of the reader is not that of the writer. -/
def Mismatch : WriteItem → ReadItem → Prop
  | .o id, .o other => other ≠ id
  | .o _, .r other => other.toNat < 128
  | .r _, .o other => other.toNat < 128
  | .r id, .r other => other.toNat < 128 ∧ other ≠ id
  | _, _ => False

/-- A value with the block that a pointer leads to. -/
inductive Content
  | u8 (fdata : UInt8)
  | u16 (fdata : UInt16)
  | int (fdata : Int32)
  | u32 (fdata : UInt32)
  | s32 (fdata : Int32)
  | ptr (block : Option (List UInt8)) (ptrlen : UInt32)
  | smallPtr (block : Option (List UInt8)) (ptrlen : UInt16)
  deriving DecidableEq

/-- What the reader gets, with the blocks in memory. -/
def ReadValue.content (ram : Ram) : ReadValue → Content
  | .u8 fdata => .u8 fdata
  | .u16 fdata => .u16 fdata
  | .int fdata => .int fdata
  | .u32 fdata => .u32 fdata
  | .s32 fdata => .s32 fdata
  | .ptr pptr ptrlen => .ptr (pptr.map fun addr ↦ loadBytes ram addr ptrlen.toNat) ptrlen
  | .smallPtr pptr ptrlen => .smallPtr (pptr.map fun addr ↦ loadBytes ram addr ptrlen.toNat) ptrlen

/-- What was written: a block without bytes counts as none. -/
def WriteItem.content : WriteItem → List Content
  | .o _ => []
  | .r _ => []
  | .c fdata => [.u8 fdata]
  | .h fdata => [.u16 fdata]
  | .i fdata => [.int fdata]
  | .l fdata => [.u32 fdata]
  | .L fdata => [.s32 fdata]
  | .p src srclen => [.ptr (if srclen = 0 then none else src) srclen]
  | .P src srclen => [.smallPtr (if srclen = 0 then none else src) srclen]

/-- What the reader stores for a letter that stands at an address. -/
def WriteItem.stored (addr : Addr) : WriteItem → List ReadValue
  | .o _ => []
  | .r _ => []
  | .c fdata => [.u8 fdata]
  | .h fdata => [.u16 fdata]
  | .i fdata => [.int fdata]
  | .l fdata => [.u32 fdata]
  | .L fdata => [.s32 fdata]
  | .p _ srclen => [.ptr (if srclen = 0 then none else some (addr.plus eluarpcPtrHeaderSize)) srclen]
  | .P _ srclen =>
    [.smallPtr (if srclen = 0 then none else some (addr.plus eluarpcSmallPtrHeaderSize)) srclen]

/-- What the reader stores for letters that stand at an address. -/
def storedAll : Addr → List WriteItem → List ReadValue
  | _, [] => []
  | addr, item :: fmt => item.stored addr ++ storedAll (addr.plus item.encode.length) fmt

/-! ### Writing -/

section Writing

variable {cursor : Cursor} {item : WriteItem} {fmt : List WriteItem}

/-- A block of the given length is written as its bytes. -/
theorem putBlock_some (cursor : Cursor) {bytes : List UInt8} {srclen : ℕ}
    (hlength : bytes.length = srclen) : putBlock cursor (some bytes) srclen = cursor.putAll bytes := by
  subst hlength
  rw [putBlock, List.take_length, ← addr_putAll]

/-- A block that is there already is written by stepping over it. -/
theorem putBlock_none {bytes : List UInt8} (hbytes : BytesAt cursor.ram cursor.addr bytes) :
    putBlock cursor none bytes.length = cursor.putAll bytes := by
  have hsame : Cursor.mk (cursor.putAll bytes).ram (cursor.putAll bytes).addr =
      ⟨cursor.ram, cursor.addr.plus bytes.length⟩ := by
    rw [putAll_self hbytes, addr_putAll]
  exact hsame.symm

/-- A letter is written as its bytes. -/
theorem eluarpcWriteItem_eq (hproper : item.Proper) :
    eluarpcWriteItem cursor item = cursor.putAll item.encode := by
  cases item with
  | p src srclen =>
    obtain ⟨bytes, rfl, hlength⟩ := hproper
    rw [eluarpcWriteItem, eluarpcWritePtr, putBlock_some _ hlength]
    exact (putAll_append cursor (typePtr :: typeInt32 :: bytes32 srclen) bytes).symm
  | P src srclen =>
    obtain ⟨bytes, rfl, hlength⟩ := hproper
    rw [eluarpcWriteItem, eluarpcWriteSmallPtr, putBlock_some _ hlength]
    exact (putAll_append cursor (typeSmallPtr :: typeInt16 :: bytes16 srclen) bytes).symm
  | _ => rfl

/-- The letters are written as their bytes. -/
theorem eluarpcWriteItems_eq (hproper : ∀ item ∈ fmt, item.Proper) :
    eluarpcWriteItems cursor fmt = cursor.putAll (encodeAll fmt) := by
  induction fmt generalizing cursor with
  | nil => rfl
  | cons item fmt ih =>
    obtain ⟨hitem, hfmt⟩ := List.forall_mem_cons.mp hproper
    rw [eluarpcWriteItems, List.foldl_cons, eluarpcWriteItem_eq hitem]
    exact (ih hfmt).trans (putAll_append cursor item.encode (encodeAll fmt)).symm

theorem length_packet (fmt : List WriteItem) :
    (packet fmt).length = eluarpcStartOffset + (packetBody fmt).length := by
  rw [packet, List.length_append]
  rfl

theorem eluarpcWriteU32_eq (cursor : Cursor) (fdata : UInt32) :
    eluarpcWriteU32 cursor fdata = cursor.putAll (typeInt32 :: bytes32 fdata) := rfl

/-- The bytes from the start marker to the end marker are written behind the size. -/
theorem eluarpcWritePacket_eq (ram : Ram) (addr : Addr) (hproper : ∀ item ∈ fmt, item.Proper) :
    eluarpcWriteU32 ((eluarpcWriteItems (eluarpcStartPacket ⟨ram, addr⟩) fmt).put typeEnd)
        (~~~packetSig) =
      Cursor.putAll ⟨ram, addr.plus eluarpcStartOffset⟩ (packetBody fmt) := by
  rw [eluarpcWriteItems_eq hproper, eluarpcStartPacket, eluarpcWriteU32_eq, eluarpcWriteU32_eq,
    ← putAll_cons, ← putAll_cons, ← putAll_append, ← putAll_append, packetBody]

/-- The memory with a packet. -/
theorem eluarpcGenWrite_eq (ram : Ram) (addr : Addr) (hproper : ∀ item ∈ fmt, item.Proper)
    (hfits : (packet fmt).length < 2 ^ 32) :
    eluarpcGenWrite ram addr fmt =
      (Cursor.putAll ⟨(Cursor.putAll ⟨ram, addr.plus eluarpcStartOffset⟩ (packetBody fmt)).ram, addr⟩
        (packetSize (packet fmt).length)).ram := by
  rw [length_packet] at hfits
  have hlength : (((addr.plus eluarpcStartOffset).plus (packetBody fmt).length) - addr).toNat =
      (packet fmt).length := by
    rw [Addr.plus_plus, Addr.sub_plus addr hfits, length_packet]
  rw [eluarpcGenWrite, eluarpcEndPacket, eluarpcWritePacket_eq ram addr hproper, addr_putAll, hlength]
  rfl

/-- The writer writes the packet and nothing else. -/
theorem eluarpcGenWrite_spec (ram : Ram) (addr : Addr) (hproper : ∀ item ∈ fmt, item.Proper)
    (hfits : (packet fmt).length < 2 ^ 32) :
    BytesAt (eluarpcGenWrite ram addr fmt) addr (packet fmt) ∧
      ∀ other, (packet fmt).length ≤ (other - addr).toNat →
        eluarpcGenWrite ram addr fmt other = ram other := by
  have hlength := length_packet fmt
  have hsize : (packetSize (packet fmt).length).length = eluarpcStartOffset := rfl
  have hpacket : packet fmt = packetSize (packet fmt).length ++ packetBody fmt := by
    rw [hlength]
    rfl
  rw [eluarpcGenWrite_eq ram addr hproper hfits]
  generalize packetSize (packet fmt).length = header at *
  constructor
  · rw [hpacket, bytesAt_append, hsize]
    constructor
    · exact bytesAt_putAll (by rw [hsize]; decide)
    · have hbody : BytesAt (Cursor.putAll ⟨ram, addr.plus eluarpcStartOffset⟩ (packetBody fmt)).ram
          (addr.plus eluarpcStartOffset) (packetBody fmt) := bytesAt_putAll (by omega)
      refine hbody.congr fun index hindex ↦ putAll_outside ?_
      rw [Addr.plus_plus, Addr.sub_plus addr (by omega), hsize]
      exact Nat.le_add_right _ _
  · intro other hother
    rw [hlength] at hother
    have hheader : header.length ≤ (other - addr).toNat := by
      rw [hsize]
      exact Nat.le_of_add_right_le hother
    have hbody : (packetBody fmt).length ≤ (other - addr.plus eluarpcStartOffset).toNat := by
      rw [eluarpcStartOffset] at hother ⊢
      unfold Addr.plus
      bv_omega
    rw [putAll_outside hheader]
    exact putAll_outside hbody

end Writing

/-! ### Reading -/

section Reading

variable {ram : Ram} {reader : Reader} {item : WriteItem} {fmt : List WriteItem}

/-- The reader some bytes further. -/
def Reader.skip (reader : Reader) (count : ℕ) : Reader :=
  { reader with addr := reader.addr.plus count }

theorem Reader.skip_skip (reader : Reader) (first second : ℕ) :
    (reader.skip first).skip second = reader.skip (first + second) := by
  rw [skip, skip, Addr.plus_plus]
  rfl

theorem Reader.next_eq (reader : Reader) : reader.next = reader.skip 1 := rfl

/-- The byte that is expected. -/
theorem readExpect_of_eq {byte : UInt8} (hbyte : ram reader.addr = byte) :
    eluarpcReadExpect ram reader byte = reader.skip 1 := by
  rw [eluarpcReadExpect, if_neg (not_not.mpr hbyte)]
  rfl

theorem readU8_eq {fdata : UInt8} (hbytes : BytesAt ram reader.addr [typeInt8, fdata]) :
    eluarpcReadU8 ram reader = (fdata, reader.skip 2) := by
  obtain ⟨htype, hdata, -⟩ := hbytes
  rw [eluarpcReadU8, readExpect_of_eq htype]
  exact Prod.ext hdata (Reader.skip_skip reader 1 1)

theorem readU16_eq {fdata : UInt16}
    (hbytes : BytesAt ram reader.addr (typeInt16 :: bytes16 fdata)) :
    eluarpcReadU16 ram reader = (fdata, reader.skip 3) := by
  obtain ⟨htype, hfirst, hsecond, -⟩ := hbytes
  have hlast : ((reader.skip 1).next).next = reader.skip 3 := by
    simp only [Reader.next_eq, Reader.skip_skip, Nat.reduceAdd]
  rw [eluarpcReadU16, readExpect_of_eq htype]
  refine Prod.ext ?_ hlast
  change value16 (ram (reader.addr + 1)) (ram (reader.addr + 1 + 1)) = fdata
  rw [hfirst, hsecond]
  exact value16_bytes16 fdata

theorem readU32_eq {fdata : UInt32}
    (hbytes : BytesAt ram reader.addr (typeInt32 :: bytes32 fdata)) :
    eluarpcReadU32 ram reader = (fdata, reader.skip 5) := by
  obtain ⟨htype, hfirst, hsecond, hthird, hfourth, -⟩ := hbytes
  have hlast : ((((reader.skip 1).next).next).next).next = reader.skip 5 := by
    simp only [Reader.next_eq, Reader.skip_skip, Nat.reduceAdd]
  rw [eluarpcReadU32, readExpect_of_eq htype]
  refine Prod.ext ?_ hlast
  change value32 (ram (reader.addr + 1)) (ram (reader.addr + 1 + 1))
    (ram (reader.addr + 1 + 1 + 1)) (ram (reader.addr + 1 + 1 + 1 + 1)) = fdata
  rw [hfirst, hsecond, hthird, hfourth]
  exact value32_bytes32 fdata

theorem readPtr_eq {srclen : UInt32}
    (hbytes : BytesAt ram reader.addr (typePtr :: typeInt32 :: bytes32 srclen)) :
    eluarpcReadPtr ram reader = (srclen, reader.skip (eluarpcPtrHeaderSize + srclen.toNat)) := by
  obtain ⟨htype, hlength⟩ := hbytes
  have hdata : BytesAt ram (reader.skip 1).addr (typeInt32 :: bytes32 srclen) := hlength
  rw [eluarpcReadPtr, readExpect_of_eq htype, readU32_eq hdata]
  refine Prod.ext rfl ?_
  change ((reader.skip 1).skip 5).skip srclen.toNat = _
  rw [Reader.skip_skip, Reader.skip_skip, ← Nat.add_assoc]
  rfl

theorem readSmallPtr_eq {srclen : UInt16}
    (hbytes : BytesAt ram reader.addr (typeSmallPtr :: typeInt16 :: bytes16 srclen)) :
    eluarpcReadSmallPtr ram reader =
      (srclen, reader.skip (eluarpcSmallPtrHeaderSize + srclen.toNat)) := by
  obtain ⟨htype, hlength⟩ := hbytes
  have hdata : BytesAt ram (reader.skip 1).addr (typeInt16 :: bytes16 srclen) := hlength
  rw [eluarpcReadSmallPtr, readExpect_of_eq htype, readU16_eq hdata]
  refine Prod.ext rfl ?_
  change ((reader.skip 1).skip 3).skip srclen.toNat = _
  rw [Reader.skip_skip, Reader.skip_skip, ← Nat.add_assoc]
  rfl

/-- The reader is behind the header of a block exactly when the block is empty. -/
theorem skip_block_eq_iff (addr : Addr) (header : ℕ) {length : ℕ} (hlength : length < 2 ^ 32) :
    addr.plus (header + length) = addr.plus header ↔ length = 0 := by
  rw [← Addr.plus_plus]
  constructor
  · intro hsame
    have hdistance := Addr.sub_plus (addr.plus header) hlength
    rw [hsame, BitVec.sub_self] at hdistance
    exact hdistance.symm
  · rintro rfl
    rw [Addr.plus_zero]

/-- A letter is read where it was written. -/
theorem readItem_encode (hproper : item.Proper) (hbytes : BytesAt ram reader.addr item.encode) :
    eluarpcReadItem ram reader item.toRead =
      (item.stored reader.addr, reader.skip item.encode.length) := by
  cases item with
  | o id =>
    obtain ⟨htype, hid, -⟩ := hbytes
    have hsame : ¬ ram (reader.skip 1).addr ≠ id := not_not.mpr hid
    refine Prod.ext rfl ?_
    change eluarpcExpectOpId ram reader id = _
    rw [eluarpcExpectOpId, readExpect_of_eq htype]
    simp only [if_neg hsame]
    exact Reader.skip_skip reader 1 1
  | r id => exact Prod.ext rfl (readExpect_of_eq hbytes.1)
  | c fdata =>
    rw [WriteItem.toRead, eluarpcReadItem, readU8_eq hbytes]
    rfl
  | h fdata =>
    rw [WriteItem.toRead, eluarpcReadItem, readU16_eq hbytes]
    rfl
  | i fdata =>
    rw [WriteItem.toRead, eluarpcReadItem, readU32_eq hbytes]
    rfl
  | l fdata =>
    rw [WriteItem.toRead, eluarpcReadItem, readU32_eq hbytes]
    rfl
  | L fdata =>
    rw [WriteItem.toRead, eluarpcReadItem, readU32_eq hbytes]
    rfl
  | p src srclen =>
    obtain ⟨bytes, rfl, hlength⟩ := hproper
    obtain ⟨hheader, -⟩ := bytesAt_append.mp hbytes
    have hempty := skip_block_eq_iff reader.addr eluarpcPtrHeaderSize srclen.toNat_lt
    have hzero : srclen.toNat = 0 ↔ srclen = 0 := UInt32.toNat_inj (b := 0)
    have hencode : (WriteItem.p (some bytes) srclen).encode.length =
        eluarpcPtrHeaderSize + bytes.length := List.length_append
    rw [WriteItem.toRead, eluarpcReadItem, readPtr_eq hheader, hencode, hlength]
    simp only [Reader.skip, hempty, hzero, WriteItem.stored]
  | P src srclen =>
    obtain ⟨bytes, rfl, hlength⟩ := hproper
    obtain ⟨hheader, -⟩ := bytesAt_append.mp hbytes
    have hempty := skip_block_eq_iff reader.addr eluarpcSmallPtrHeaderSize
      (Nat.lt_trans srclen.toNat_lt (by decide))
    have hzero : srclen.toNat = 0 ↔ srclen = 0 := UInt16.toNat_inj (b := 0)
    have hencode : (WriteItem.P (some bytes) srclen).encode.length =
        eluarpcSmallPtrHeaderSize + bytes.length := List.length_append
    rw [WriteItem.toRead, eluarpcReadItem, readSmallPtr_eq hheader, hencode, hlength]
    simp only [Reader.skip, hempty, hzero, WriteItem.stored]

/-- The letters are read where they were written. -/
theorem readItems_encode (hproper : ∀ item ∈ fmt, item.Proper)
    (hbytes : BytesAt ram reader.addr (encodeAll fmt)) :
    eluarpcReadItems ram reader (fmt.map WriteItem.toRead) =
      (storedAll reader.addr fmt, reader.skip (encodeAll fmt).length) := by
  induction fmt generalizing reader with
  | nil => exact Prod.ext rfl (congrArg (Reader.mk · _) (Addr.plus_zero _).symm)
  | cons item fmt ih =>
    obtain ⟨hitem, hfmt⟩ := List.forall_mem_cons.mp hproper
    obtain ⟨hfirst, hrest⟩ := bytesAt_append.mp hbytes
    have hnext := @ih (reader.skip item.encode.length) hfmt hrest
    rw [List.map_cons, eluarpcReadItems, readItem_encode hitem hfirst]
    simp only [hnext, Reader.skip_skip]
    rw [← List.length_append]
    rfl

/-- The block that a pointer leads to, none if it is empty. -/
theorem block_content {start : Addr} {length : ℕ} {bytes : List UInt8} {empty : Prop}
    [Decidable empty] (hblock : BytesAt ram start bytes) (hlength : bytes.length = length) :
    ((if empty then none else some start).map fun addr ↦ loadBytes ram addr length) =
      if empty then none else some bytes := by
  split_ifs
  · rfl
  · rw [Option.map_some, ← hlength, hblock.loadBytes_eq]

/-- What is stored for a letter is what was written. -/
theorem stored_content {addr : Addr} (hproper : item.Proper)
    (hbytes : BytesAt ram addr item.encode) :
    (item.stored addr).map (ReadValue.content ram) = item.content := by
  cases item with
  | p src srclen =>
    obtain ⟨bytes, rfl, hlength⟩ := hproper
    obtain ⟨-, hblock⟩ := bytesAt_append.mp hbytes
    exact congrArg (fun block ↦ [Content.ptr block srclen]) (block_content hblock hlength)
  | P src srclen =>
    obtain ⟨bytes, rfl, hlength⟩ := hproper
    obtain ⟨-, hblock⟩ := bytesAt_append.mp hbytes
    exact congrArg (fun block ↦ [Content.smallPtr block srclen]) (block_content hblock hlength)
  | _ => rfl

theorem storedAll_content {addr : Addr} (hproper : ∀ item ∈ fmt, item.Proper)
    (hbytes : BytesAt ram addr (encodeAll fmt)) :
    (storedAll addr fmt).map (ReadValue.content ram) = fmt.flatMap WriteItem.content := by
  induction fmt generalizing addr with
  | nil => rfl
  | cons item fmt ih =>
    obtain ⟨hitem, hfmt⟩ := List.forall_mem_cons.mp hproper
    obtain ⟨hfirst, hrest⟩ := bytesAt_append.mp hbytes
    rw [storedAll, List.map_append, stored_content hitem hfirst, ih hfmt hrest, List.flatMap_cons]

/-- A signature behind a marker. -/
theorem readSig_eq {marker : UInt8} {sig : UInt32}
    (hbytes : BytesAt ram reader.addr (marker :: typeInt32 :: bytes32 sig)) :
    eluarpcReadU32 ram (eluarpcReadExpect ram reader marker) = (sig, reader.skip 6) := by
  obtain ⟨hmarker, hsig⟩ := hbytes
  have hword : BytesAt ram (reader.skip 1).addr (typeInt32 :: bytes32 sig) := hsig
  rw [readExpect_of_eq hmarker, readU32_eq hword, Reader.skip_skip]

/-- The start of a packet is recognised. -/
theorem matchPacketStart_eq {addr : Addr} {flag : EluarpcStatus}
    (hbytes : BytesAt ram (addr.plus eluarpcStartOffset)
      (typeStart :: typeInt32 :: bytes32 packetSig)) :
    eluarpcMatchPacketStart ram ⟨addr, flag⟩ = Reader.skip ⟨addr, flag⟩ 10 := by
  have hread := @readSig_eq ram ⟨addr.plus eluarpcStartOffset, flag⟩ _ _ hbytes
  have hsame : ¬ packetSig ≠ packetSig := not_not.mpr rfl
  simp only [eluarpcMatchPacketStart, hread, if_neg hsame]
  exact Reader.skip_skip ⟨addr, flag⟩ eluarpcStartOffset 6

/-- The end of a packet is recognised. -/
theorem matchPacketEnd_eq
    (hbytes : BytesAt ram reader.addr (typeEnd :: typeInt32 :: bytes32 (~~~packetSig))) :
    eluarpcMatchPacketEnd ram reader = reader.skip 6 := by
  have hsame : ¬ ~~~packetSig ≠ ~~~packetSig := not_not.mpr rfl
  simp only [eluarpcMatchPacketEnd, readSig_eq hbytes, if_neg hsame]

end Reading

/-! ### Packets -/

section Packets

variable {ram : Ram} {addr : Addr} {fmt : List WriteItem}

/-- Where the parts of a packet stand. -/
theorem bytesAt_packet (hbytes : BytesAt ram addr (packet fmt)) :
    BytesAt ram addr (packetSize (packet fmt).length) ∧
      BytesAt ram (addr.plus eluarpcStartOffset) (typeStart :: typeInt32 :: bytes32 packetSig) ∧
      BytesAt ram (addr.plus 10) (encodeAll fmt) ∧
      BytesAt ram ((addr.plus 10).plus (encodeAll fmt).length)
        (typeEnd :: typeInt32 :: bytes32 (~~~packetSig)) := by
  have hlength := length_packet fmt
  rw [packet, ← hlength] at hbytes
  obtain ⟨hsize, hbody⟩ := bytesAt_append.mp hbytes
  obtain ⟨hstart, hrest⟩ := bytesAt_append.mp hbody
  obtain ⟨hitems, hend⟩ := bytesAt_append.mp hrest
  have haddr : (addr.plus eluarpcStartOffset).plus 6 = addr.plus 10 := Addr.plus_plus ..
  rw [← haddr]
  exact ⟨hsize, hstart, hitems, hend⟩

/-- The size of a packet is read. -/
theorem getPacketSize_eq {size : ℕ} (hbytes : BytesAt ram addr (packetSize size)) :
    eluarpcGetPacketSize ram addr = (.ok, UInt16.ofNat size) := by
  obtain ⟨htype, hsize⟩ := hbytes
  have hbyte : ram (Reader.mk addr .ok).addr = typePktSize := htype
  have hword : BytesAt ram (Reader.skip ⟨addr, .ok⟩ 1).addr
      (typeInt16 :: bytes16 (UInt16.ofNat size)) := hsize
  rw [eluarpcGetPacketSize, readExpect_of_eq hbyte, readU16_eq hword]
  rfl

/-- The letters of a packet are read as they were written. -/
theorem readItems_packet (hproper : ∀ item ∈ fmt, item.Proper)
    (hbytes : BytesAt ram addr (packet fmt)) :
    eluarpcReadItems ram (eluarpcMatchPacketStart ram ⟨addr, .ok⟩) (fmt.map WriteItem.toRead) =
      (storedAll (addr.plus 10) fmt, Reader.skip ⟨addr, .ok⟩ (10 + (encodeAll fmt).length)) := by
  obtain ⟨-, hstart, hitems, -⟩ := bytesAt_packet hbytes
  have hvalues := @readItems_encode ram (Reader.skip ⟨addr, .ok⟩ 10) fmt hproper hitems
  rw [matchPacketStart_eq hstart, hvalues, Reader.skip_skip]
  rfl

/-- A packet is read as it was written. -/
theorem genRead_packet (hproper : ∀ item ∈ fmt, item.Proper)
    (hbytes : BytesAt ram addr (packet fmt)) :
    eluarpcGenRead ram addr (fmt.map WriteItem.toRead) =
      (.ok, storedAll (addr.plus 10) fmt) := by
  obtain ⟨-, -, -, hend⟩ := bytesAt_packet hbytes
  rw [Addr.plus_plus] at hend
  have hlast := @matchPacketEnd_eq ram (Reader.skip ⟨addr, .ok⟩ (10 + (encodeAll fmt).length)) hend
  rw [eluarpcGenRead, readItems_packet hproper hbytes]
  simp only [hlast]
  rfl

/-- The id of the operation of a request is read. -/
theorem getRequestId_eq {id : UInt8} (hbytes : BytesAt ram addr (packet (.o id :: fmt))) :
    eluarpcGetRequestId ram addr = (.ok, id) := by
  obtain ⟨-, hstart, ⟨htype, hid, -⟩, -⟩ := bytesAt_packet hbytes
  have hbegin := @matchPacketStart_eq ram addr .ok hstart
  have hbyte : ram (Reader.skip ⟨addr, .ok⟩ 10).addr = typeOpId := htype
  rw [eluarpcGetRequestId, hbegin, eluarpcReadOpId, readExpect_of_eq hbyte]
  exact Prod.ext rfl hid

end Packets

/-! ### Errors -/

section Errors

variable {ram : Ram} {reader : Reader}

theorem readExpect_err (hflag : reader.errFlag = .err) (fdata : UInt8) :
    (eluarpcReadExpect ram reader fdata).errFlag = .err := by
  rw [eluarpcReadExpect]
  split_ifs
  · rfl
  · exact hflag

theorem expectOpId_err (hflag : reader.errFlag = .err) (id : UInt8) :
    (eluarpcExpectOpId ram reader id).errFlag = .err := by
  rw [eluarpcExpectOpId]
  simp only
  split_ifs
  · rfl
  · exact readExpect_err hflag typeOpId

theorem readU16_err (hflag : reader.errFlag = .err) : (eluarpcReadU16 ram reader).2.errFlag = .err :=
  readExpect_err hflag typeInt16

theorem readU32_err (hflag : reader.errFlag = .err) : (eluarpcReadU32 ram reader).2.errFlag = .err :=
  readExpect_err hflag typeInt32

theorem readPtr_err (hflag : reader.errFlag = .err) :
    (eluarpcReadPtr ram reader).2.errFlag = .err := by
  have hlength := @readU32_err ram _ (@readExpect_err ram _ hflag typePtr)
  exact hlength

theorem readSmallPtr_err (hflag : reader.errFlag = .err) :
    (eluarpcReadSmallPtr ram reader).2.errFlag = .err := by
  have hlength := @readU16_err ram _ (@readExpect_err ram _ hflag typeSmallPtr)
  exact hlength

/-- No letter resets the error flag. -/
theorem readItem_err (hflag : reader.errFlag = .err) (item : ReadItem) :
    (eluarpcReadItem ram reader item).2.errFlag = .err := by
  cases item with
  | o id => exact expectOpId_err hflag id
  | r id => exact readExpect_err hflag _
  | c => exact readExpect_err hflag typeInt8
  | h => exact readU16_err hflag
  | i => exact readU32_err hflag
  | l => exact readU32_err hflag
  | L => exact readU32_err hflag
  | p => exact readPtr_err hflag
  | P => exact readSmallPtr_err hflag

theorem readItems_err (hflag : reader.errFlag = .err) (fmt : List ReadItem) :
    (eluarpcReadItems ram reader fmt).2.errFlag = .err := by
  induction fmt generalizing reader with
  | nil => exact hflag
  | cons item fmt ih => exact ih (readItem_err hflag item)

theorem matchPacketEnd_err (hflag : reader.errFlag = .err) :
    (eluarpcMatchPacketEnd ram reader).errFlag = .err := by
  have hlength := @readU32_err ram _ (@readExpect_err ram _ hflag typeEnd)
  simp only [eluarpcMatchPacketEnd, hlength, ite_self]

/-- The byte of a response. -/
theorem toNat_resMod_or {id : UInt8} (hid : id.toNat < 128) :
    (eluarpcOpResMod ||| id).toNat = id.toNat + 128 := by
  have hsum : id.toNat ||| 1 <<< 7 = id.toNat + 1 * 2 ^ 7 := or_shiftLeft 1 hid
  have hmod : eluarpcOpResMod.toNat = 1 <<< 7 := by decide
  have hvalue : 1 * 2 ^ 7 = 128 := by decide
  rw [UInt8.toNat_or, Nat.or_comm, hmod, hsum, hvalue]

theorem typeOpId_lt : typeOpId.toNat < 128 := by decide

/-- An operation id is none of the bytes of responses. -/
theorem resMod_or_ne {id other : UInt8} (hid : id.toNat < 128) (hother : other.toNat < 128) :
    other ≠ eluarpcOpResMod ||| id := by
  intro hsame
  have hnat := congrArg UInt8.toNat hsame
  rw [toNat_resMod_or hid] at hnat
  omega

/-- Responses to different operations differ. -/
theorem resMod_or_inj {id other : UInt8} (hid : id.toNat < 128) (hother : other.toNat < 128)
    (hsame : eluarpcOpResMod ||| id = eluarpcOpResMod ||| other) : id = other := by
  refine UInt8.toNat_inj.mp ?_
  have hnat := congrArg UInt8.toNat hsame
  rw [toNat_resMod_or hid, toNat_resMod_or hother] at hnat
  exact Nat.add_right_cancel hnat

/-- An operation that does not match is reported. -/
theorem readItem_of_mismatch {item : WriteItem} {wrong : ReadItem} (hproper : item.Proper)
    (hmismatch : Mismatch item wrong) (hbytes : BytesAt ram reader.addr item.encode) :
    (eluarpcReadItem ram reader wrong).2.errFlag = .err := by
  have hexpect : ∀ fdata, ram reader.addr ≠ fdata →
      (eluarpcReadExpect ram reader fdata).errFlag = .err := by
    intro fdata hne
    rw [eluarpcReadExpect, if_pos hne]
  cases item with
  | o id =>
    obtain ⟨htype, hid, -⟩ := hbytes
    cases wrong with
    | o other =>
      change (eluarpcExpectOpId ram reader other).errFlag = .err
      rw [eluarpcExpectOpId, readExpect_of_eq htype]
      have hdata : ram (reader.skip 1).addr = id := hid
      have hne : ram (reader.skip 1).addr ≠ other := fun hsame ↦
        hmismatch (hsame.symm.trans hdata)
      simp only [if_pos hne]
    | r other =>
      refine hexpect _ ?_
      rw [htype]
      exact resMod_or_ne hmismatch typeOpId_lt
    | _ => exact hmismatch.elim
  | r id =>
    cases wrong with
    | o other =>
      have hne : ram reader.addr ≠ typeOpId := by
        rw [hbytes.1]
        exact (resMod_or_ne hproper typeOpId_lt).symm
      change (eluarpcExpectOpId ram reader other).errFlag = .err
      rw [eluarpcExpectOpId]
      simp only [hexpect typeOpId hne]
      split_ifs <;> rfl
    | r other =>
      refine hexpect _ ?_
      rw [hbytes.1]
      exact fun hsame ↦ hmismatch.2 (resMod_or_inj hproper hmismatch.1 hsame).symm
    | _ => exact hmismatch.elim
  | _ => cases wrong <;> exact hmismatch.elim

end Errors

/-! ### The round trip -/

section RoundTrip

variable {ram : Ram} {addr : Addr} {fmt : List WriteItem}

/-- A packet is read as it was written: the values are the same, the reader stops where the writer
put the end marker, the size is the number of bytes that were written, and another operation is
reported. -/
structure RoundTrips (ram : Ram) (addr : Addr) (fmt : List WriteItem) : Prop where
  status : (eluarpcGenRead (eluarpcGenWrite ram addr fmt) addr (fmt.map WriteItem.toRead)).1 = .ok
  content : (eluarpcGenRead (eluarpcGenWrite ram addr fmt) addr
      (fmt.map WriteItem.toRead)).2.map (ReadValue.content (eluarpcGenWrite ram addr fmt)) =
    fmt.flatMap WriteItem.content
  cursor : (eluarpcReadItems (eluarpcGenWrite ram addr fmt)
      (eluarpcMatchPacketStart (eluarpcGenWrite ram addr fmt) ⟨addr, .ok⟩)
      (fmt.map WriteItem.toRead)).2.addr =
    (eluarpcWriteItems (eluarpcStartPacket ⟨ram, addr⟩) fmt).addr
  written : BytesAt (eluarpcGenWrite ram addr fmt) addr (packet fmt)
  untouched : ∀ other, (packet fmt).length ≤ (other - addr).toNat →
    eluarpcGenWrite ram addr fmt other = ram other
  size : (eluarpcGetPacketSize (eluarpcGenWrite ram addr fmt) addr).1 = .ok ∧
    (eluarpcGetPacketSize (eluarpcGenWrite ram addr fmt) addr).2.toNat = (packet fmt).length
  reported : ∀ before item rest wrong others, fmt = before ++ item :: rest → Mismatch item wrong →
    (eluarpcGenRead (eluarpcGenWrite ram addr fmt) addr
      (before.map WriteItem.toRead ++ wrong :: others)).1 = .err

theorem readItems_append (ram : Ram) (reader : Reader) (first second : List ReadItem) :
    (eluarpcReadItems ram reader (first ++ second)).2 =
      (eluarpcReadItems ram (eluarpcReadItems ram reader first).2 second).2 := by
  induction first generalizing reader with
  | nil => rfl
  | cons item first ih => exact ih (eluarpcReadItem ram reader item).2

/-- Another operation in a packet is reported. -/
theorem genRead_of_mismatch {before rest : List WriteItem} {item : WriteItem}
    (hproper : ∀ other ∈ before ++ item :: rest, other.Proper)
    (hbytes : BytesAt ram addr (packet (before ++ item :: rest))) {wrong : ReadItem}
    (hmismatch : Mismatch item wrong) (others : List ReadItem) :
    (eluarpcGenRead ram addr (before.map WriteItem.toRead ++ wrong :: others)).1 = .err := by
  obtain ⟨hbefore, hrest⟩ := List.forall_mem_append.mp hproper
  obtain ⟨hitem, -⟩ := List.forall_mem_cons.mp hrest
  obtain ⟨-, hstart, hitems, -⟩ := bytesAt_packet hbytes
  rw [encodeAll, List.flatMap_append, bytesAt_append, List.flatMap_cons, bytesAt_append] at hitems
  obtain ⟨hfirst, hwrong, -⟩ := hitems
  have hbegin := @matchPacketStart_eq ram addr .ok hstart
  have hvalues := @readItems_encode ram (Reader.skip ⟨addr, .ok⟩ 10) before hbefore hfirst
  have hreported := @readItem_of_mismatch ram
    ((Reader.skip ⟨addr, .ok⟩ 10).skip (encodeAll before).length) item wrong hitem hmismatch hwrong
  refine matchPacketEnd_err ?_
  rw [hbegin, readItems_append, hvalues]
  exact readItems_err hreported others

/-- Packets that fit into 65535 bytes are read as they were written. -/
theorem roundTrips_of_fits (ram : Ram) (addr : Addr) (fmt : List WriteItem)
    (hproper : ∀ item ∈ fmt, item.Proper) (hfits : (packet fmt).length ≤ 65535) :
    RoundTrips ram addr fmt := by
  have hsmall : (packet fmt).length < 2 ^ 32 := Nat.lt_of_le_of_lt hfits (by decide)
  obtain ⟨hwritten, huntouched⟩ := eluarpcGenWrite_spec ram addr hproper hsmall
  have hread := genRead_packet hproper hwritten
  obtain ⟨hheader, -, hencoded, -⟩ := bytesAt_packet hwritten
  have hsize := getPacketSize_eq hheader
  constructor
  · rw [hread]
  · rw [hread]
    exact storedAll_content hproper hencoded
  · rw [readItems_packet hproper hwritten, eluarpcWriteItems_eq hproper, addr_putAll]
    have hstart : (eluarpcStartPacket ⟨ram, addr⟩).addr = addr.plus 10 := by
      rw [eluarpcStartPacket, eluarpcWriteU32_eq, ← putAll_cons, addr_putAll]
      exact Addr.plus_plus addr eluarpcStartOffset 6
    rw [hstart, Addr.plus_plus]
    rfl
  · exact hwritten
  · exact huntouched
  · rw [hsize]
    exact ⟨rfl, UInt16.toNat_ofNat_of_lt' (Nat.lt_succ_of_le hfits)⟩
  · rintro before item rest wrong others rfl hmismatch
    exact genRead_of_mismatch hproper hwritten hmismatch others

/-- A request with a block and an empty block. -/
theorem roundTrips_request :
    RoundTrips (fun _ ↦ 0) 0x1000 [.o 1, .p (some [0x61, 0]) 2, .P (some []) 0, .i (-1)] := by
  refine roundTrips_of_fits (fun _ ↦ 0) 0x1000 _ ?_ (by decide)
  rw [List.forall_mem_cons, List.forall_mem_cons, List.forall_mem_cons, List.forall_mem_singleton]
  have hid : (1 : UInt8).toNat < 128 := by decide
  exact ⟨hid, ⟨_, rfl, rfl⟩, ⟨_, rfl, rfl⟩, trivial⟩

end RoundTrip

end Elua.Rpc
