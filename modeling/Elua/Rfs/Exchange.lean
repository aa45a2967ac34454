import Elua.Rfs.Server

/-!
# Exchanges of the remote file system

What the two ends do with packets. A packet that is received whole stands in the buffer
(`rfschReceive_packet`), so a call whose request and response are packets reads the response
(`rfsch_packet`), and a turn of the server answers a request with what its handler has written
(`serverTurn_packet`).
-/

set_option autoImplicit false
set_option relaxedAutoImplicit false

namespace Elua.Rfs

open Foundation Rpc

/-- The letters of a packet are proper, and it is no longer than its size can say. -/
structure ProperPacket (fmt : List WriteItem) : Prop where
  proper : ∀ item ∈ fmt, item.Proper
  length_le : (packet fmt).length ≤ 65535

section Packets

variable {fmt : List WriteItem}

theorem length_packet_eq (fmt : List WriteItem) :
    (packet fmt).length = 16 + (encodeAll fmt).length := by
  have hbody : (packetBody fmt).length = 6 + ((encodeAll fmt).length + 6) := by
    rw [packetBody, List.length_append, List.length_append]
    rfl
  rw [length_packet, hbody, eluarpcStartOffset]
  omega

theorem ProperPacket.length_lt (hpacket : ProperPacket fmt) : (packet fmt).length < 2 ^ 32 :=
  Nat.lt_of_le_of_lt hpacket.length_le (by decide)

theorem ProperPacket.toNat_size (hpacket : ProperPacket fmt) :
    (UInt16.ofNat (packet fmt).length).toNat = (packet fmt).length :=
  UInt16.toNat_ofNat_of_lt' (Nat.lt_succ_of_le hpacket.length_le)

/-- A packet that is written stands in memory. -/
theorem ProperPacket.written (hpacket : ProperPacket fmt) (ram : Ram) (addr : Addr) :
    BytesAt (eluarpcGenWrite ram addr fmt) addr (packet fmt) :=
  (eluarpcGenWrite_spec ram addr hpacket.proper hpacket.length_lt).1

/-- A packet that stands in memory is read. -/
theorem genRead_of_packet {ram : Ram} {addr : Addr} {items : List ReadItem}
    {values : List ReadValue} (hpacket : ProperPacket fmt) (hbytes : BytesAt ram addr (packet fmt))
    (hitems : fmt.map WriteItem.toRead = items) (hvalues : storedAll (addr.plus 10) fmt = values) :
    eluarpcGenRead ram addr items = (.ok, values) := by
  subst hitems hvalues
  exact genRead_packet hpacket.proper hbytes

/-- A packet that stands in memory is sent. -/
theorem rfschSend_packet (hpacket : ProperPacket fmt) {ram : Ram} {buffer : Addr}
    (hbytes : BytesAt ram buffer (packet fmt)) : rfschSend ram buffer = some (packet fmt) := by
  rw [rfschSend, getPacketSize_eq (bytesAt_packet hbytes).1]
  simp only [hpacket.toNat_size, hbytes.loadBytes_eq]

/-- A response that stands in memory is sent. -/
theorem serSendResponsePacket_packet (hpacket : ProperPacket fmt) {ram : Ram} {buffer : Addr}
    (hbytes : BytesAt ram buffer (packet fmt)) : serSendResponsePacket ram buffer = packet fmt := by
  rw [serSendResponsePacket, getPacketSize_eq (bytesAt_packet hbytes).1]
  simp only [hpacket.toNat_size, hbytes.loadBytes_eq]

end Packets

section Receiving

/-- The number of bytes behind the size. -/
theorem toNat_size_sub {size : UInt16} (hsize : eluarpcStartOffset ≤ size.toNat) :
    (size.toUInt32 - UInt32.ofNat eluarpcStartOffset).toNat = size.toNat - eluarpcStartOffset := by
  have hoffset : (UInt32.ofNat eluarpcStartOffset).toNat = eluarpcStartOffset := rfl
  have hle : UInt32.ofNat eluarpcStartOffset ≤ size.toUInt32 := by
    rw [UInt32.le_iff_toNat_le, hoffset, UInt16.toNat_toUInt32]
    exact hsize
  rw [UInt32.toNat_sub_of_le _ _ hle, hoffset, UInt16.toNat_toUInt32]

/-- As many bytes as the first of them say are received whole, and what follows them is left. -/
theorem rfschReceive_whole {ram : Ram} {buffer : Addr} {bytes : List UInt8} {size : UInt16}
    (hlower : eluarpcStartOffset ≤ bytes.length) (hlength : bytes.length = size.toNat)
    (hsize : eluarpcGetPacketSize
      (Cursor.putAll ⟨ram, buffer⟩ (bytes.take eluarpcStartOffset)).ram buffer = (.ok, size))
    (rest : List UInt8) :
    rfschReceive ram buffer (bytes ++ rest) =
      (.ok, (Cursor.putAll ⟨ram, buffer⟩ bytes).ram, rest) := by
  have hheader : (bytes.take eluarpcStartOffset).length = eluarpcStartOffset :=
    List.length_take_of_le hlower
  have hrest : (size.toUInt32 - UInt32.ofNat eluarpcStartOffset).toNat =
      (bytes.drop eluarpcStartOffset).length := by
    rw [toNat_size_sub (hlength ▸ hlower), List.length_drop, hlength]
  have hall : (Cursor.putAll ⟨(Cursor.putAll ⟨ram, buffer⟩ (bytes.take eluarpcStartOffset)).ram,
      buffer.plus eluarpcStartOffset⟩ (bytes.drop eluarpcStartOffset)).ram =
        (Cursor.putAll ⟨ram, buffer⟩ bytes).ram := by
    have haddr : (Cursor.putAll ⟨ram, buffer⟩ (bytes.take eluarpcStartOffset)).addr =
        buffer.plus eluarpcStartOffset := by
      rw [addr_putAll, hheader]
    rw [← haddr]
    conv_rhs => rw [← List.take_append_drop eluarpcStartOffset bytes, putAll_append]
  simp only [rfschReceive, rfsRecv, List.take_append_of_le_length hlower,
    List.drop_append_of_le_length hlower, hheader, hsize, hrest, List.take_left, List.drop_left,
    hall, ne_eq, not_true_eq_false, if_false]

/-- A packet that has arrived is received whole, and what follows it is left. -/
theorem rfschReceive_packet {fmt : List WriteItem} (hpacket : ProperPacket fmt) (ram : Ram)
    (buffer : Addr) (rest : List UInt8) :
    rfschReceive ram buffer (packet fmt ++ rest) =
      (.ok, (Cursor.putAll ⟨ram, buffer⟩ (packet fmt)).ram, rest) := by
  have hlower : eluarpcStartOffset ≤ (packet fmt).length := by
    rw [length_packet]
    exact Nat.le_add_right _ _
  have htake : (packet fmt).take eluarpcStartOffset = packetSize (packet fmt).length := by
    rw [length_packet]
    exact List.take_left' rfl
  have hfirst : BytesAt (Cursor.putAll ⟨ram, buffer⟩ (packetSize (packet fmt).length)).ram buffer
      (packetSize (packet fmt).length) := bytesAt_putAll (show 4 ≤ 2 ^ 32 by decide)
  refine rfschReceive_whole hlower hpacket.toNat_size.symm ?_ rest
  rw [htake]
  exact getPacketSize_eq hfirst

end Receiving

/-! ### The client -/

/-- A transport that also records what is on the wire. -/
def recording {State : Type} (transport : Transport State) :
    Transport (State × List (List UInt8)) where
  exchange := fun (state, wire) request ↦ do
    let (response, after) ← transport.exchange state request
    pure (response, after, wire ++ [request, response])

section Client

variable {State : Type} {config : ClientConfig} {transport : Transport State}
  {session : Session State} {request response : List WriteItem}

theorem recording_exchange {state after : State} {wire : List (List UInt8)}
    {sent received : List UInt8} (hexchange : transport.exchange state sent = some (received, after)) :
    (recording transport).exchange (state, wire) sent =
      some (received, after, wire ++ [sent, received]) := by
  simp only [recording, hexchange]
  rfl

/-- A call whose request is a packet, with whatever arrives. -/
theorem rfsch_eq {Result : Type} {writeRequest : Ram → Addr → Ram}
    {readResponse : Ram → Addr → EluarpcStatus × Result} {failure : Result} {received : List UInt8}
    {remote : State} (hrequest : ProperPacket request)
    (hwrite : ∀ ram p, writeRequest ram p = eluarpcGenWrite ram p request)
    (hinput : session.input = [])
    (hexchange : transport.exchange session.remote (packet request) = some (received, remote)) :
    rfsch config transport session writeRequest readResponse failure =
      let receive := rfschReceive (eluarpcGenWrite session.ram config.rfscBuffer request)
        config.rfscBuffer received
      some (if receive.1 = .err then failure
        else match readResponse receive.2.1 config.rfscBuffer with
          | (.err, _) => failure
          | (.ok, result) => result, ⟨receive.2.1, receive.2.2, remote⟩) := by
  have hsent := rfschSend_packet hrequest (hrequest.written session.ram config.rfscBuffer)
  simp only [rfsch, rfschSendRequestReadResponse, hwrite, hinput, rfschEmpty, hsent, hexchange,
    Option.bind_eq_bind, Option.bind_some, Option.pure_def]
  split_ifs
  · rfl
  · generalize readResponse _ _ = read
    obtain ⟨_ | _, result⟩ := read <;> rfl

/-- If the request and the response are packets, the response is interpreted. -/
theorem rfsch_packet {Result : Type} (writeRequest : Ram → Addr → Ram)
    (readResponse : Ram → Addr → EluarpcStatus × Result) (failure : Result) {result : Result}
    {remote : State} (hrequest : ProperPacket request) (hresponse : ProperPacket response)
    (hwrite : ∀ ram p, writeRequest ram p = eluarpcGenWrite ram p request)
    (hinput : session.input = [])
    (hexchange : transport.exchange session.remote (packet request) =
      some (packet response, remote))
    (hread : ∀ ram, BytesAt ram config.rfscBuffer (packet response) →
      readResponse ram config.rfscBuffer = (.ok, result)) :
    ∃ ram, BytesAt ram config.rfscBuffer (packet response) ∧
      rfsch config transport session writeRequest readResponse failure =
        some (result, ⟨ram, [], remote⟩) := by
  have hreceived := rfschReceive_packet hresponse
    (eluarpcGenWrite session.ram config.rfscBuffer request) config.rfscBuffer []
  rw [List.append_nil] at hreceived
  have hstands : BytesAt (Cursor.putAll ⟨eluarpcGenWrite session.ram config.rfscBuffer request,
      config.rfscBuffer⟩ (packet response)).ram config.rfscBuffer (packet response) :=
    bytesAt_putAll (Nat.le_of_lt hresponse.length_lt)
  refine ⟨_, hstands, ?_⟩
  have hstatus : ¬ ClientStatus.ok = ClientStatus.err := fun hsame ↦ ClientStatus.noConfusion hsame
  rw [rfsch_eq hrequest hwrite hinput hexchange, hreceived]
  simp only [if_neg hstatus, hread _ hstands]

end Client

/-! ### The server -/

section Server

variable {Host : Type} {posix : Posix Host} {config : ServerConfig} {fuel : ℕ}
  {server : Server Host} {host : Host} {request response : List WriteItem}

/-- A request is answered with the packet that its handler writes. -/
theorem serverTurn_packet (hrequest : ProperPacket request) (hresponse : ProperPacket response)
    (hexecute : ∀ ram, BytesAt ram config.rfsBuffer (packet request) →
      ∃ ram', serverExecuteRequest posix config ⟨ram, server.host⟩ fuel =
        some (.ok, ⟨eluarpcGenWrite ram' config.rfsBuffer response, host⟩)) :
    ∃ ram, serverTurn posix config fuel server (packet request) =
      some (packet response, ⟨ram, host⟩) := by
  have hreceived := rfschReceive_packet hrequest server.ram config.rfsBuffer []
  rw [List.append_nil] at hreceived
  have hstands : BytesAt (Cursor.putAll ⟨server.ram, config.rfsBuffer⟩ (packet request)).ram
      config.rfsBuffer (packet request) := bytesAt_putAll (Nat.le_of_lt hrequest.length_lt)
  obtain ⟨ram, hexecuted⟩ := hexecute _ hstands
  have hbytes := hresponse.written ram config.rfsBuffer
  refine ⟨eluarpcGenWrite ram config.rfsBuffer response, ?_⟩
  simp only [serverTurn, serReadRequestPacket, hreceived, Option.bind_eq_bind, Option.bind_some,
    hexecuted, Option.pure_def, serSendResponsePacket_packet hresponse hbytes]

end Server

end Elua.Rfs
