import Elua.Rfs.LateResponses
import Elua.Rfs.PacketReaders

/-!
# Packets stay in their buffers

`Readers.Fits` says when an event cannot lead out of a buffer: the size of a packet that arrives is
that of a packet, and no larger than the buffer; the socket does not fail; and a read of a file asks
for no more bytes than there is room for behind the header of the response. The memory reader looks
for the end of a packet behind each byte, so there a packet also has a byte behind its size.

`packets_stay_inside`: in a run of such events everything is stored inside the buffers, and no
length is negative. The code makes none of these tests: a packet whose size is too large is stored
behind the end of the buffer (`not_packets_stay_inside_large_size`). -/

set_option autoImplicit false
set_option relaxedAutoImplicit false

namespace Elua.Rfs

open Foundation Rpc Shell

/-! ### Sizes -/

/-- The size of a packet that begins with some bytes, if they are marked as one. -/
def sizeField : List UInt8 → Option ℕ
  | marker :: kind :: low :: high :: _ =>
    if marker = typePktSize ∧ kind = typeInt16 then some (value16 low high).toNat else none
  | _ => none

/-- The size, if there is one, lies between bounds. -/
def SizeFits (lower capacity : ℕ) (bytes : List UInt8) : Prop :=
  ∀ size ∈ sizeField bytes, lower ≤ size ∧ size ≤ capacity

theorem sizeField_take (bytes : List UInt8) : sizeField (bytes.take 4) = sizeField bytes := by
  rcases bytes with _ | ⟨marker, _ | ⟨kind, _ | ⟨low, _ | ⟨high, rest⟩⟩⟩⟩ <;> rfl

/-- The size that the code reads. -/
theorem sizeField_of_getPacketSize {ram : Ram} {addr : Addr} {size : UInt16}
    (hsize : eluarpcGetPacketSize ram addr = (.ok, size)) :
    sizeField (loadBytes ram addr 4) = some size.toNat := by
  obtain ⟨hstatus, rfl⟩ := Prod.mk.inj hsize
  have hflag : (if ram (addr + 1) ≠ typeInt16 then EluarpcStatus.err
      else if ram addr ≠ typePktSize then .err else .ok) = .ok := hstatus
  have hkind : ram (addr + 1) = typeInt16 := by
    by_contra hne
    rw [if_pos hne] at hflag
    cases hflag
  have hmarker : ram addr = typePktSize := by
    by_contra hne
    rw [if_neg (not_not.mpr hkind), if_pos hne] at hflag
    cases hflag
  exact if_pos ⟨hmarker, hkind⟩

theorem getPacketSize_of_sizeField {ram : Ram} {addr : Addr} {size : ℕ}
    (hfield : sizeField (loadBytes ram addr 4) = some size) :
    ∃ temp16, eluarpcGetPacketSize ram addr = (.ok, temp16) ∧ temp16.toNat = size := by
  change (if ram addr = typePktSize ∧ ram (addr + 1) = typeInt16 then
    some (value16 (ram (addr + 1 + 1)) (ram (addr + 1 + 1 + 1))).toNat else none) =
      some size at hfield
  split_ifs at hfield with hmarked
  refine ⟨_, Prod.ext ?_ rfl, Option.some.inj hfield⟩
  show (if ram (addr + 1) ≠ typeInt16 then EluarpcStatus.err
    else if ram addr ≠ typePktSize then .err else .ok) = .ok
  rw [if_neg (not_not.mpr hmarked.2), if_neg (not_not.mpr hmarked.1)]

/-- Bytes that have been read into a buffer. -/
theorem loadBytes_putAll (ram : Ram) (buffer : Addr) {bytes : List UInt8} {count : ℕ}
    (hlength : bytes.length = count) (hsmall : count ≤ 2 ^ 32) :
    loadBytes (Cursor.putAll ⟨ram, buffer⟩ bytes).ram buffer count = bytes := by
  rw [← hlength]
  exact (bytesAt_putAll (hlength.trans_le hsmall)).loadBytes_eq

/-- The size that stands in the buffer when the first four bytes have been read. -/
theorem sizeField_stored (ram : Ram) (buffer : Addr) {bytes : List UInt8}
    (hheader : (bytes.take eluarpcStartOffset).length = 4) :
    sizeField (loadBytes (Cursor.putAll ⟨ram, buffer⟩ (bytes.take eluarpcStartOffset)).ram
      buffer 4) = sizeField bytes := by
  rw [loadBytes_putAll ram buffer hheader (by decide)]
  exact sizeField_take bytes

/-! ### Passes -/

theorem Access.inside_of_bounds {access : Access} (hlength : 0 ≤ access.length)
    (hoffset : 0 ≤ access.offset) (hend : access.offset + access.stored ≤ access.capacity) :
    access.Inside :=
  ⟨hlength, fun _ hle hlt ↦ ⟨Int.le_trans hoffset hle, Int.lt_of_lt_of_le hlt hend⟩⟩

/-- A packet is read into the buffer if its size fits. -/
theorem receiveAccesses_inside {capacity : ℕ} (hcapacity : eluarpcStartOffset ≤ capacity)
    (ram : Ram) (buffer : Addr) {input : List UInt8}
    (hfits : SizeFits eluarpcStartOffset capacity input) :
    ∀ access ∈ receiveAccesses capacity ram buffer input, access.Inside := by
  have hheader : ∀ readbytes ≤ eluarpcStartOffset,
      Access.Inside ⟨capacity, 0, eluarpcStartOffset, readbytes⟩ := by
    intro readbytes hle
    exact Access.inside_of_bounds (Int.natCast_nonneg _) (Int.le_refl _)
      (by show (0 : ℤ) + readbytes ≤ capacity; omega)
  have htake : (input.take eluarpcStartOffset).length ≤ eluarpcStartOffset :=
    List.length_take_le ..
  unfold receiveAccesses rfsRecv
  dsimp only
  split_ifs with hshort
  · exact List.forall_mem_singleton.mpr (hheader _ htake)
  · split
    · exact List.forall_mem_singleton.mpr (hheader _ htake)
    · rename_i temp16 hsize
      have hfield := sizeField_of_getPacketSize hsize
      have hfour : (input.take eluarpcStartOffset).length = 4 := not_not.mp hshort
      rw [sizeField_stored ram buffer hfour] at hfield
      obtain ⟨hlower, hupper⟩ := hfits _ hfield
      refine List.forall_mem_cons.mpr ⟨hheader _ htake, List.forall_mem_singleton.mpr ?_⟩
      have hlt := temp16.toNat_lt
      refine Access.inside_of_bounds ?_ (Int.natCast_nonneg _) ?_
      · show (0 : ℤ) ≤ temp16.toNat - eluarpcStartOffset
        omega
      · show (eluarpcStartOffset : ℤ) +
          ((input.drop eluarpcStartOffset).take _).length ≤ capacity
        have hrest := List.length_take_le
          (((temp16.toNat : ℤ) - eluarpcStartOffset) % 2 ^ 32).toNat
          (input.drop eluarpcStartOffset)
        omega

/-- A packet that arrives whole is read into the buffer only if its size fits. -/
theorem receiveAccesses_inside_iff {capacity : ℕ} (hcapacity : eluarpcStartOffset ≤ capacity)
    (ram : Ram) (buffer : Addr) {input : List UInt8}
    (hwhole : ∀ size ∈ sizeField input, size ≤ input.length) :
    (∀ access ∈ receiveAccesses capacity ram buffer input, access.Inside) ↔
      SizeFits eluarpcStartOffset capacity input := by
  refine ⟨fun hinside size hsize ↦ ?_, receiveAccesses_inside hcapacity ram buffer⟩
  have hle := hwhole size hsize
  have hheader : (input.take eluarpcStartOffset).length = eluarpcStartOffset := by
    rw [List.length_take]
    rcases input with _ | ⟨marker, _ | ⟨kind, _ | ⟨low, _ | ⟨high, rest⟩⟩⟩⟩
    · cases hsize
    · cases hsize
    · cases hsize
    · cases hsize
    · exact Nat.min_eq_left (by simp only [List.length_cons, eluarpcStartOffset]; omega)
  obtain ⟨temp16, hread, rfl⟩ :=
    getPacketSize_of_sizeField ((sizeField_stored ram buffer hheader).trans hsize)
  have hlt := temp16.toNat_lt
  unfold receiveAccesses rfsRecv at hinside
  dsimp only at hinside
  rw [if_neg (not_not.mpr hheader), hread] at hinside
  obtain ⟨hnonneg, hindex⟩ := hinside _ (List.mem_cons_of_mem _ List.mem_cons_self)
  have hlower : (eluarpcStartOffset : ℤ) ≤ temp16.toNat := Int.sub_nonneg.mp hnonneg
  refine ⟨Int.ofNat_le.mp hlower, ?_⟩
  by_contra hlarge
  have hstored : (((input.drop eluarpcStartOffset).take
      (((temp16.toNat : ℤ) - eluarpcStartOffset) % 2 ^ 32).toNat).length : ℤ) =
        temp16.toNat - eluarpcStartOffset := by
    rw [List.length_take, List.length_drop]
    omega
  have hlast := (hindex (temp16.toNat - 1)
    (show (eluarpcStartOffset : ℤ) ≤ temp16.toNat - 1 by omega)
    (show (temp16.toNat : ℤ) - 1 < eluarpcStartOffset + _ by rw [hstored]; omega)).2
  have hbehind : (temp16.toNat : ℤ) - 1 < capacity := hlast
  omega

/-! ### Datagrams -/

section Datagrams

variable {config : ServerConfig}

/-- A datagram that comes while bytes are missing. -/
theorem udpReadHelper_datagram (dest : ℕ) {size : UInt32} (hsize : size ≠ 0) (ram : Ram)
    (datagram : List UInt8) (results : List (Option (List UInt8))) :
    udpReadHelper config dest size ram (some datagram :: results) =
      let data := datagram.take size.toNat
      let behind := udpReadHelper config ((dest + data.length : ℕ) : ℤ)
        (size - UInt32.ofNat data.length)
        (Cursor.putAll ⟨ram, config.rfsBuffer.plus dest⟩ data).ram results
      (⟨rfsBufferSize, dest, size.toNat, data.length⟩ :: behind.1, behind.2) := by
  have hcount : UInt32.ofInt ((datagram.take size.toNat).length : ℤ) =
      UInt32.ofNat (datagram.take size.toNat).length := by
    have hlength : (datagram.take size.toNat).length ≤ size.toNat := List.length_take_le ..
    have hlt := size.toNat_lt
    refine congrArg UInt32.ofNat ?_
    omega
  rw [udpReadHelper, if_neg hsize]
  simp only [Option.getD_some, if_neg (Option.some_ne_none datagram), hcount, Int.natCast_add,
    BitVec.ofInt_natCast]
  rfl

/-- What is missing behind a datagram. -/
theorem toNat_sub_take (size : UInt32) (datagram : List UInt8) :
    (size - UInt32.ofNat (datagram.take size.toNat).length).toNat =
      size.toNat - (datagram.take size.toNat).length := by
  have hlength : (datagram.take size.toNat).length ≤ size.toNat := List.length_take_le ..
  have hlt := size.toNat_lt
  have hcount : (UInt32.ofNat (datagram.take size.toNat).length).toNat =
      (datagram.take size.toNat).length :=
    UInt32.toNat_ofNat_of_lt' (Nat.lt_of_le_of_lt hlength hlt)
  rw [UInt32.toNat_sub_of_le _ _ (UInt32.le_iff_toNat_le.mpr (by omega)), hcount]

/-- Datagrams are stored where there is room for what is missing. -/
theorem udpReadHelper_inside {dest : ℕ} {size : UInt32} (ram : Ram)
    (datagrams : List (List UInt8)) (hend : dest + size.toNat ≤ rfsBufferSize) :
    ∀ access ∈ (udpReadHelper config dest size ram (datagrams.map some)).1, access.Inside := by
  induction datagrams generalizing dest size ram with
  | nil => exact fun _ hmem ↦ absurd hmem List.not_mem_nil
  | cons datagram datagrams ih =>
    by_cases hsize : size = 0
    · rw [List.map_cons, udpReadHelper, if_pos hsize]
      exact fun _ hmem ↦ absurd hmem List.not_mem_nil
    · have hlength : (datagram.take size.toNat).length ≤ size.toNat := List.length_take_le ..
      rw [List.map_cons, udpReadHelper_datagram dest hsize]
      refine List.forall_mem_cons.mpr ⟨?_, ih _ ?_⟩
      · refine Access.inside_of_bounds (Int.natCast_nonneg _) (Int.natCast_nonneg _) ?_
        show (dest : ℤ) + (datagram.take size.toNat).length ≤ rfsBufferSize
        omega
      · rw [toNat_sub_take]
        omega

/-- The helper returns when all bytes have been stored. -/
theorem udpReadHelper_done {dest : ℕ} {size : UInt32} {ram : Ram} {datagrams : List (List UInt8)}
    {rest : List (Option (List UInt8))}
    (hdone : (udpReadHelper config dest size ram (datagrams.map some)).2.2 = some rest) :
    (∃ behind : List (List UInt8), rest = behind.map some) ∧
      (datagrams.flatten.take size.toNat).length = size.toNat ∧
        (udpReadHelper config dest size ram (datagrams.map some)).2.1 =
          (Cursor.putAll ⟨ram, config.rfsBuffer.plus dest⟩
            (datagrams.flatten.take size.toNat)).ram := by
  induction datagrams generalizing dest size ram with
  | nil =>
    rw [List.map_nil, udpReadHelper] at hdone ⊢
    by_cases hsize : size = 0
    · subst hsize
      exact ⟨⟨[], (Option.some.inj hdone).symm⟩, rfl, rfl⟩
    · rw [if_neg hsize] at hdone
      cases hdone
  | cons datagram datagrams ih =>
    by_cases hsize : size = 0
    · subst hsize
      rw [List.map_cons, udpReadHelper, if_pos rfl] at hdone ⊢
      exact ⟨⟨datagram :: datagrams, (Option.some.inj hdone).symm⟩, rfl, rfl⟩
    · rw [List.map_cons, udpReadHelper_datagram dest hsize] at hdone ⊢
      obtain ⟨hrest, hlength, hram⟩ := ih hdone
      rw [toNat_sub_take] at hlength hram
      have hsplit : (datagram :: datagrams).flatten.take size.toNat = datagram.take size.toNat ++
          datagrams.flatten.take (size.toNat - (datagram.take size.toNat).length) := by
        rw [List.flatten_cons, List.take_append, List.length_take]
        congr 2
        omega
      refine ⟨hrest, ?_, ?_⟩
      · rw [hsplit, List.length_append, hlength]
        have hle : (datagram.take size.toNat).length ≤ size.toNat := List.length_take_le ..
        omega
      · have haddr : (Cursor.putAll ⟨ram, config.rfsBuffer.plus dest⟩
            (datagram.take size.toNat)).addr =
              config.rfsBuffer.plus (dest + (datagram.take size.toNat).length) := by
          rw [addr_putAll, Addr.plus_plus]
        rw [hsplit, putAll_append]
        rw [← haddr] at hram
        exact hram

/-- A packet that comes in datagrams is read into the buffer if its size fits. -/
theorem udpReadRequestPacket_inside (ram : Ram) {datagrams : List (List UInt8)}
    (hfits : SizeFits eluarpcStartOffset rfsBufferSize datagrams.flatten) :
    ∀ access ∈ (udpReadRequestPacket config ram (datagrams.map some)).1, access.Inside := by
  have hheader := @udpReadHelper_inside config 0 (UInt32.ofNat eluarpcStartOffset) ram datagrams
    (by decide)
  have hdone := @udpReadHelper_done config 0 (UInt32.ofNat eluarpcStartOffset) ram datagrams
  unfold udpReadRequestPacket
  rw [Int.natCast_zero] at hheader hdone
  rcases hread : udpReadHelper config 0 (UInt32.ofNat eluarpcStartOffset) ram
    (datagrams.map some) with ⟨header, after, _ | rest⟩
  · rw [hread] at hheader
    exact hheader
  · rw [hread] at hheader hdone
    obtain ⟨⟨behind, rfl⟩, hlength, hafter⟩ := hdone rfl
    dsimp only
    split
    · exact hheader
    · rename_i temp16 hsize
      have hfield := sizeField_of_getPacketSize hsize
      have hstored : loadBytes after config.rfsBuffer 4 = datagrams.flatten.take 4 := by
        rw [show after = _ from hafter, Addr.plus_zero]
        exact loadBytes_putAll ram _ hlength (by decide)
      rw [hstored, sizeField_take] at hfield
      obtain ⟨hlower, hupper⟩ := hfits _ hfield
      have hlt := temp16.toNat_lt
      have hrest : (UInt32.ofInt ((temp16.toNat : ℤ) - eluarpcStartOffset)).toNat =
          temp16.toNat - eluarpcStartOffset := by
        have hsmall : (((temp16.toNat : ℤ) - eluarpcStartOffset) % 2 ^ 32).toNat =
            temp16.toNat - eluarpcStartOffset := by omega
        rw [UInt32.ofInt, hsmall]
        exact UInt32.toNat_ofNat_of_lt' (Nat.lt_of_le_of_lt (Nat.sub_le _ _)
          (Nat.lt_trans hlt (by decide)))
      have hdata := @udpReadHelper_inside config eluarpcStartOffset
        (UInt32.ofInt ((temp16.toNat : ℤ) - eluarpcStartOffset)) after behind (by omega)
      refine List.forall_mem_append.mpr ⟨hheader, List.forall_mem_cons.mpr ⟨?_, hdata⟩⟩
      refine Access.inside_of_bounds ?_ (Int.natCast_nonneg _) ?_
      · show (0 : ℤ) ≤ temp16.toNat - eluarpcStartOffset
        omega
      · show (eluarpcStartOffset : ℤ) + (0 : ℕ) ≤ rfsBufferSize
        decide

end Datagrams

/-! ### The memory transport -/

/-- The variables of the memory transport, between the bytes of a request. -/
structure MemReader.Sound (mem : MemReader) : Prop where
  header : mem.readState = .readLength → 0 ≤ mem.readLen ∧ mem.readLen < eluarpcStartOffset
  request : mem.readState = .readRequest → 0 ≤ mem.readLen ∧ mem.readLen < mem.expectedLen ∧
    eluarpcStartOffset + mem.expectedLen ≤ rfsBufferSize

theorem sound_start : rfsMemStartRequest.Sound where
  header _ := by decide
  request hstate := nomatch hstate

/-- The byte is the last one of a size that fits. -/
def MemReader.Fits (mem : MemReader) (config : ServerConfig) (ram : Ram) (c : UInt8) : Prop :=
  mem.readState = .readLength → mem.readLen = 3 →
    SizeFits (eluarpcStartOffset + 1) rfsBufferSize (loadBytes ram config.rfsBuffer 3 ++ [c])

/-- The last byte of a size. -/
theorem loadBytes_update (ram : Ram) (buffer : Addr) (c : UInt8) :
    loadBytes (Function.update ram (buffer + BitVec.ofInt 32 3) c) buffer 4 =
      loadBytes ram buffer 3 ++ [c] := by
  have hlast : buffer + 1 + 1 + 1 = buffer + BitVec.ofInt 32 3 := by
    rw [BitVec.add_assoc, BitVec.add_assoc]
    rfl
  have hthird : buffer + 1 + 1 ≠ buffer + BitVec.ofInt 32 3 := by
    rw [← hlast]
    bv_omega
  have hsecond : buffer + 1 ≠ buffer + BitVec.ofInt 32 3 := by
    rw [← hlast]
    bv_omega
  have hfirst : buffer ≠ buffer + BitVec.ofInt 32 3 := by
    rw [← hlast]
    bv_omega
  simp only [loadBytes, Function.update_of_ne hfirst, Function.update_of_ne hsecond,
    Function.update_of_ne hthird, hlast, Function.update_self]
  rfl

/-- A byte is stored in the buffer, and the variables stay in order. -/
theorem MemReader.Sound.read {mem : MemReader} (hsound : mem.Sound) {config : ServerConfig}
    {ram : Ram} {c : Option UInt8} (hfits : ∀ byte ∈ c, mem.Fits config ram byte) :
    (rfsMemReadRequestPacket config ram mem c).2.1.Sound ∧
      ∀ access ∈ (rfsMemReadRequestPacket config ram mem c).2.2.2, access.Inside := by
  have hbuffer : eluarpcStartOffset + 1 ≤ rfsBufferSize := by decide
  rcases c with _ | c
  · exact ⟨sound_start, fun _ hmem ↦ absurd hmem List.not_mem_nil⟩
  · unfold rfsMemReadRequestPacket
    rcases hstate : mem.readState with _ | _ | _
    · obtain ⟨hnonneg, hlt⟩ := hsound.header hstate
      have hstore : Access.Inside ⟨rfsBufferSize, mem.readLen, 1, 1⟩ := by
        refine Access.inside_of_bounds Int.one_nonneg hnonneg ?_
        show mem.readLen + (1 : ℕ) ≤ rfsBufferSize
        omega
      dsimp only
      split_ifs with hlast
      · have hthree : mem.readLen = 3 := by
          have hfour : (eluarpcStartOffset : ℤ) = 4 := rfl
          omega
        split
        · exact ⟨⟨fun hread ↦ (nomatch hread), fun hread ↦ (nomatch hread)⟩,
            List.forall_mem_singleton.mpr hstore⟩
        · rename_i temp16 hsize
          have hfield := sizeField_of_getPacketSize hsize
          rw [hthree, loadBytes_update] at hfield
          obtain ⟨hlower, hupper⟩ := hfits c rfl hstate hthree _ hfield
          refine ⟨⟨fun hread ↦ (nomatch hread), fun _ ↦ ⟨Int.le_refl _, ?_, ?_⟩⟩,
            List.forall_mem_cons.mpr ⟨hstore, List.forall_mem_singleton.mpr ?_⟩⟩
          · show (0 : ℤ) < temp16.toNat - eluarpcStartOffset
            omega
          · show (eluarpcStartOffset : ℤ) + (temp16.toNat - eluarpcStartOffset) ≤ rfsBufferSize
            omega
          · refine Access.inside_of_bounds ?_ (Int.natCast_nonneg _) ?_
            · show (0 : ℤ) ≤ temp16.toNat - eluarpcStartOffset
              omega
            · show (eluarpcStartOffset : ℤ) + (0 : ℕ) ≤ rfsBufferSize
              omega
      · refine ⟨⟨fun _ ↦ ⟨?_, ?_⟩, fun hread ↦ ?_⟩, List.forall_mem_singleton.mpr hstore⟩
        · show 0 ≤ mem.readLen + 1
          omega
        · show mem.readLen + 1 < eluarpcStartOffset
          omega
        · exact (nomatch hread)
    · obtain ⟨hnonneg, hlt, hend⟩ := hsound.request hstate
      refine ⟨?_, List.forall_mem_singleton.mpr (Access.inside_of_bounds Int.one_nonneg ?_ ?_)⟩
      · dsimp only
        split_ifs with hdone
        · exact ⟨fun hread ↦ (nomatch hread), fun hread ↦ (nomatch hread)⟩
        · refine ⟨fun hread ↦ (nomatch hread), fun _ ↦ ⟨?_, ?_, hend⟩⟩
          · show 0 ≤ mem.readLen + 1
            omega
          · show mem.readLen + 1 < mem.expectedLen
            omega
      · show 0 ≤ (eluarpcStartOffset : ℤ) + mem.readLen
        omega
      · show (eluarpcStartOffset : ℤ) + mem.readLen + (1 : ℕ) ≤ rfsBufferSize
        omega
    · exact ⟨hsound, fun _ hmem ↦ absurd hmem List.not_mem_nil⟩

/-! ### Reads of files -/

/-- A read of a file that asks for no more than there is room for. -/
theorem serverReadAccesses_inside {config : ServerConfig} {ram : Ram}
    (hfits : ∀ fd count, remotefsReadReadRequest ram config.rfsBuffer = (.ok, fd, count) →
      eluarpcReadBufOffset + count.toNat ≤ rfsBufferSize) :
    ∀ access ∈ serverReadAccesses config ram, access.Inside := by
  unfold serverReadAccesses
  split
  · exact fun _ hmem ↦ absurd hmem List.not_mem_nil
  · split_ifs
    · split
      · exact fun _ hmem ↦ absurd hmem List.not_mem_nil
      · rename_i fd count hrequest
        refine List.forall_mem_singleton.mpr (Access.inside_of_bounds (Int.natCast_nonneg _)
          (Int.natCast_nonneg _) ?_)
        show (eluarpcReadBufOffset : ℤ) + count.toNat ≤ rfsBufferSize
        exact_mod_cast hfits fd count hrequest
    · exact fun _ hmem ↦ absurd hmem List.not_mem_nil

/-! ### The client -/

/-- The response is read into the buffer if its size fits. -/
theorem rfschAccesses_inside (build : RfsBuild) (client : ClientConfig) (ram : Ram)
    (pending : List UInt8) {response : Option (List UInt8)}
    (hfits : ∀ bytes ∈ response, SizeFits eluarpcStartOffset (2 ^ build.rfsBufferSize) bytes) :
    ∀ access ∈ rfschAccesses build client ram pending response, access.Inside := by
  have hcapacity : eluarpcStartOffset ≤ 2 ^ build.rfsBufferSize :=
    Nat.le_trans (by decide) (Nat.le_of_lt build.fits)
  have hfirst : ∀ stored ≤ 1, Access.Inside ⟨2 ^ build.rfsBufferSize, 0, 1, stored⟩ := by
    intro stored hle
    refine Access.inside_of_bounds Int.one_nonneg (Int.le_refl _) ?_
    show (0 : ℤ) + stored ≤ (2 ^ build.rfsBufferSize : ℕ)
    have hone : 1 ≤ eluarpcStartOffset := by decide
    omega
  unfold rfschAccesses
  refine List.forall_mem_append.mpr ⟨?_, List.forall_mem_cons.mpr ⟨hfirst 0 (by decide), ?_⟩⟩
  · intro access hmem
    obtain ⟨_, _, rfl⟩ := List.mem_map.mp hmem
    exact hfirst 1 (Nat.le_refl _)
  · split
    · rename_i bytes _
      exact receiveAccesses_inside hcapacity _ _ (hfits _ rfl)
    · exact fun _ hmem ↦ absurd hmem List.not_mem_nil

/-! ### Runs -/

section Runs

variable {Host : Type} {posix : Posix Host} {config : ServerConfig} {build : RfsBuild}
  {client : ClientConfig}

/-- What arrives, or is asked for, fits. -/
def Readers.Fits (config : ServerConfig) (build : RfsBuild) (readers : Readers Host) :
    ReaderEvent → Prop
  | .serial request => SizeFits eluarpcStartOffset rfsBufferSize request
  | .udp results => ∃ datagrams : List (List UInt8), results = datagrams.map some ∧
      SizeFits eluarpcStartOffset rfsBufferSize datagrams.flatten
  | .mem c => ∀ byte ∈ c, readers.mem.Fits config readers.server.ram byte
  | .execute _ => ∀ fd count,
      remotefsReadReadRequest readers.server.ram config.rfsBuffer = (.ok, fd, count) →
        eluarpcReadBufOffset + count.toNat ≤ rfsBufferSize
  | .client _ _ response => ∀ bytes ∈ response,
      SizeFits eluarpcStartOffset (2 ^ build.rfsBufferSize) bytes

/-- The variables are in order, and all that has been stored is inside the buffers. -/
structure Readers.Sound (readers : Readers Host) : Prop where
  mem : readers.mem.Sound
  inside : ∀ access ∈ readers.accesses, access.Inside

/-- What an event stores is inside the buffers. -/
theorem Readers.Sound.step {readers after : Readers Host} (hsound : readers.Sound)
    {event : ReaderEvent} (hfits : readers.Fits config build event)
    (hstep : readerStep posix config build client readers event = some after) : after.Sound := by
  have hbuffer : eluarpcStartOffset ≤ rfsBufferSize := by decide
  cases event with
  | serial request =>
    obtain rfl := Option.some.inj hstep
    exact ⟨hsound.mem, List.forall_mem_append.mpr
      ⟨hsound.inside, receiveAccesses_inside hbuffer _ _ hfits⟩⟩
  | udp results =>
    obtain ⟨datagrams, rfl, hsize⟩ := hfits
    obtain rfl := Option.some.inj hstep
    exact ⟨hsound.mem, List.forall_mem_append.mpr
      ⟨hsound.inside, udpReadRequestPacket_inside _ hsize⟩⟩
  | mem c =>
    obtain rfl := Option.some.inj hstep
    obtain ⟨hmem, hstored⟩ := hsound.mem.read hfits
    exact ⟨hmem, List.forall_mem_append.mpr ⟨hsound.inside, hstored⟩⟩
  | execute fuel =>
    obtain ⟨executed, -, hafter⟩ := Option.bind_eq_some_iff.mp hstep
    obtain rfl := Option.some.inj hafter
    exact ⟨hsound.mem, List.forall_mem_append.mpr
      ⟨hsound.inside, serverReadAccesses_inside hfits⟩⟩
  | client ram pending response =>
    obtain rfl := Option.some.inj hstep
    exact ⟨hsound.mem, List.forall_mem_append.mpr
      ⟨hsound.inside, rfschAccesses_inside build client ram pending hfits⟩⟩

/-- In a run in which everything fits, all that is stored is inside the buffers, and no length is
negative. -/
theorem packets_stay_inside (posix : Posix Host) (config : ServerConfig) (build : RfsBuild)
    (client : ClientConfig) {readers : Readers Host}
    (hreach : (readerSystem posix config build client).ReachableUnder (Readers.Fits config build)
      readers) : ∀ access ∈ readers.accesses, access.Inside := by
  refine (hreach.invariant Readers.Sound ?_ fun _ _ _ hsound hfits hstep ↦
    hsound.step hfits hstep).inside
  rintro start ⟨hmem, haccesses⟩
  refine ⟨hmem ▸ sound_start, ?_⟩
  rw [haccesses]
  exact fun _ hmem ↦ absurd hmem List.not_mem_nil

end Runs

/-- A build whose client has a buffer of 512 bytes. -/
def smallBuild : RfsBuild := ⟨9, eluarpcWriteRequestExtra_lt⟩

/-- The state before anything is read. -/
def freshReaders : Readers Unit := ⟨⟨fun _ ↦ 0, ()⟩, rfsMemStartRequest, []⟩

/-- A packet with one byte behind its size. -/
def shortPacket : List UInt8 := [typePktSize, typeInt16, 5, 0, 7]

theorem packets_stay_inside_shortPacket :
    ∃ readers : Readers Unit,
      readers.accesses.length = 2 ∧ ∀ access ∈ readers.accesses, access.Inside := by
  have hfits : SizeFits eluarpcStartOffset rfsBufferSize shortPacket := by
    intro size hsize
    have hfive : some 5 = some size := hsize
    obtain rfl := Option.some.inj hfive
    decide
  have hstart : (readerSystem readHost rootServer smallBuild plainClient).ReachableUnder
      (Readers.Fits rootServer smallBuild) freshReaders := .start ⟨rfl, rfl⟩
  have hreach := hstart.andThen (.serial shortPacket) hfits rfl
  exact ⟨_, by decide, packets_stay_inside readHost rootServer smallBuild plainClient hreach⟩

/-- A packet of the largest size. -/
def largePacket : List UInt8 :=
  typePktSize :: typeInt16 :: 0xFF :: 0xFF :: List.replicate 65531 0

theorem not_packets_stay_inside_large_size :
    ¬ ∀ readers : Readers Unit,
      (readerSystem readHost rootServer smallBuild plainClient).Reachable readers →
        ∀ access ∈ readers.accesses, access.Inside := by
  intro hinside
  have hsize : sizeField largePacket = some 65535 := rfl
  have hwhole : ∀ size ∈ sizeField largePacket, size ≤ largePacket.length := by
    intro size hmem
    rw [hsize] at hmem
    obtain rfl := Option.some.inj hmem
    rw [largePacket, List.length_cons, List.length_cons, List.length_cons, List.length_cons,
      List.length_replicate]
  have hstart : (readerSystem readHost rootServer smallBuild plainClient).Reachable
      freshReaders := .start ⟨rfl, rfl⟩
  have hreach := hstart.andThen (.serial largePacket) trivial rfl
  have hfits := (receiveAccesses_inside_iff (by decide : eluarpcStartOffset ≤ rfsBufferSize)
    freshReaders.server.ram rootServer.rfsBuffer hwhole).mp (hinside _ hreach)
  exact absurd (hfits 65535 hsize).2 (by decide)

end Elua.Rfs
