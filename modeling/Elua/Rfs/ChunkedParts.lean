import Elua.Rfs.ChunkedTransfers

/-!
# The parts of a transfer

A call of the client changes the memory only in its own buffer, whatever arrives (`rfsch_outside`).
The packets of a part fit this buffer, so a part that is answered gives the result of the other end
and one that fails gives `-1`, and what stands in the buffer of the caller stays there. -/

set_option autoImplicit false
set_option relaxedAutoImplicit false

namespace Elua.Rfs

open Foundation Rpc

/-! ### One call of the client -/

section Calls

variable {State Result : Type} {client : ClientConfig} {transport : Transport State}
  {session : Session State} {request : List WriteItem} {received : List UInt8} {remote : State}
  {writeRequest : Ram → Addr → Ram} {readResponse : Ram → Addr → EluarpcStatus × Result}
  {failure : Result}

/-- What is received is stored from the start of the buffer on. -/
theorem rfschReceive_outside (ram : Ram) {buffer other : Addr}
    (houtside : received.length ≤ (other - buffer).toNat) :
    (rfschReceive ram buffer received).2.1 other = ram other := by
  have hheader : (Cursor.putAll ⟨ram, buffer⟩ (received.take eluarpcStartOffset)).ram other =
      ram other := putAll_outside ((List.length_take_le' _ _).trans houtside)
  unfold rfschReceive rfsRecv
  dsimp only
  by_cases hwhole : (received.take eluarpcStartOffset).length = eluarpcStartOffset
  · rw [if_neg (not_not.2 hwhole)]
    rw [List.length_take] at hwhole
    split
    · exact hheader
    · rename_i temp16 _
      generalize hrest : ((received.drop eluarpcStartOffset).take _) = rest
      have hlength : rest.length + eluarpcStartOffset ≤ received.length := by
        have hle := List.length_take_le' (temp16.toUInt32 - UInt32.ofNat eluarpcStartOffset).toNat
          (received.drop eluarpcStartOffset)
        rw [hrest, List.length_drop] at hle
        omega
      have hbody : rest.length ≤ (other - buffer.plus eluarpcStartOffset).toNat := by
        unfold Addr.plus eluarpcStartOffset at *
        bv_omega
      have hboth := (@putAll_outside ⟨(Cursor.putAll ⟨ram, buffer⟩
        (received.take eluarpcStartOffset)).ram, buffer.plus eluarpcStartOffset⟩ _ _ hbody).trans
        hheader
      split_ifs <;> exact hboth
  · rw [if_pos hwhole]
    exact hheader

variable {bound : ℕ}

/-- A call changes the memory only in the buffer. -/
theorem rfsch_outside (hrequest : ProperPacket request) (hsent : (packet request).length ≤ bound)
    (hreceived : received.length ≤ bound) {other : Addr}
    (houtside : bound ≤ (other - client.rfscBuffer).toNat) :
    (rfschReceive (eluarpcGenWrite session.ram client.rfscBuffer request) client.rfscBuffer
      received).2.1 other = session.ram other := by
  rw [rfschReceive_outside _ (hreceived.trans houtside)]
  exact (eluarpcGenWrite_spec session.ram client.rfscBuffer hrequest.proper hrequest.length_lt).2
    other (hsent.trans houtside)

variable (writeRequest readResponse failure) in
/-- A call that is answered with a packet. -/
theorem rfsch_answered {response : List WriteItem} {result : Result}
    (hrequest : ProperPacket request) (hresponse : ProperPacket response)
    (hsent : (packet request).length ≤ bound) (hreceived : (packet response).length ≤ bound)
    (hwrite : ∀ ram p, writeRequest ram p = eluarpcGenWrite ram p request)
    (hinput : session.input = [])
    (hexchange : transport.exchange session.remote (packet request) =
      some (packet response, remote))
    (hread : ∀ ram, BytesAt ram client.rfscBuffer (packet response) →
      readResponse ram client.rfscBuffer = (.ok, result)) :
    ∃ ram, BytesAt ram client.rfscBuffer (packet response) ∧
      rfsch client transport session writeRequest readResponse failure =
        some (result, ⟨ram, [], remote⟩) ∧
      ∀ other, bound ≤ (other - client.rfscBuffer).toNat → ram other = session.ram other := by
  obtain ⟨ram, hstands, hcalled⟩ := rfsch_packet writeRequest readResponse failure hrequest
    hresponse hwrite hinput hexchange hread
  refine ⟨ram, hstands, hcalled, fun other houtside ↦ ?_⟩
  have hsame := (Prod.mk.inj (Option.some.inj (hcalled.symm.trans
    (rfsch_eq hrequest hwrite hinput hexchange)))).2
  have hram : ram = _ := congrArg Session.ram hsame
  rw [hram]
  exact rfsch_outside hrequest hsent hreceived houtside

variable (writeRequest readResponse failure) in
/-- A call whose answer is refused. -/
theorem rfsch_refused (hrequest : ProperPacket request)
    (hsent : (packet request).length ≤ bound) (hreceived : received.length ≤ bound)
    (hwrite : ∀ ram p, writeRequest ram p = eluarpcGenWrite ram p request)
    (hinput : session.input = [])
    (hexchange : transport.exchange session.remote (packet request) = some (received, remote))
    (hrefused : Refused client readResponse received) :
    ∃ after, rfsch client transport session writeRequest readResponse failure =
        some (failure, after) ∧ after.remote = remote ∧
      ∀ other, bound ≤ (other - client.rfscBuffer).toNat → after.ram other = session.ram other := by
  generalize hreceive : rfschReceive (eluarpcGenWrite session.ram client.rfscBuffer request)
    client.rfscBuffer received = receive
  refine ⟨⟨receive.2.1, receive.2.2, remote⟩, ?_, rfl, fun other houtside ↦ ?_⟩
  swap
  · rw [← hreceive]
    exact rfsch_outside hrequest hsent hreceived houtside
  rw [rfsch_eq hrequest hwrite hinput hexchange, hreceive]
  refine congrArg (fun result ↦ some (result, _)) ?_
  split_ifs with hstatus
  · rfl
  · have herr := hrefused (eluarpcGenWrite session.ram client.rfscBuffer request)
    rw [hreceive] at herr
    replace herr := herr.resolve_left hstatus
    generalize readResponse _ _ = read at herr
    obtain ⟨status, result⟩ := read
    obtain rfl : status = .err := herr
    rfl

end Calls

/-! ### The packets of a part -/

section Packets

variable {build : SerialBuild}

theorem SerialBuild.bounds (build : SerialBuild) :
    29 < 2 ^ build.rfsBufferSize ∧ 2 ^ build.rfsBufferSize ≤ 32768 ∧
      build.realBufferSize = 2 ^ build.rfsBufferSize - 29 :=
  ⟨build.fits, Nat.pow_le_pow_right (by decide) build.serial, rfl⟩

/-- The packet of a write request fits: that of the longest part fills the buffer. -/
theorem writeRequest_fits (client : ClientConfig) (fd : Int32) {data : List UInt8}
    (hshort : data.length ≤ build.realBufferSize) :
    ProperPacket ((FileCall.write fd data).request client) ∧
      (packet ((FileCall.write fd data).request client)).length ≤ 2 ^ build.rfsBufferSize := by
  obtain ⟨hlarge, hsmall, hreal⟩ := build.bounds
  have hlength : (packet ((FileCall.write fd data).request client)).length = 29 + data.length := by
    simp only [FileCall.request, length_packet_eq, length_encodeAll_cons, length_encode_p]
    change 16 + (2 + (5 + (6 + data.length + 0))) = _
    omega
  refine ⟨⟨?_, by omega⟩, by omega⟩
  simp only [FileCall.request, List.forall_mem_cons]
  exact ⟨rfsOp_lt _ (by decide), trivial,
    ⟨_, rfl, (UInt32.toNat_ofNat_of_lt' (by change _ < 2 ^ 32; omega)).symm⟩, List.forall_mem_nil _⟩

theorem writeResponse_fits (build : SerialBuild) (result : UInt32) :
    ProperPacket [.r rfsOpWrite, .l result] ∧
      (packet [.r rfsOpWrite, .l result]).length ≤ 2 ^ build.rfsBufferSize := by
  obtain ⟨hlarge, -, -⟩ := build.bounds
  have hlength : (packet [.r rfsOpWrite, .l result]).length = 22 := length_packet_eq _
  refine ⟨⟨?_, by omega⟩, by omega⟩
  simp only [List.forall_mem_cons]
  exact ⟨rfsOp_lt _ (by decide), trivial, List.forall_mem_nil _⟩

theorem readRequest_fits (build : SerialBuild) (client : ClientConfig) (fd : Int32) (buf : Addr)
    (count : UInt32) :
    ProperPacket ((FileCall.read fd buf count).request client) ∧
      (packet ((FileCall.read fd buf count).request client)).length ≤
        2 ^ build.rfsBufferSize := by
  obtain ⟨hlarge, -, -⟩ := build.bounds
  have hlength : (packet ((FileCall.read fd buf count).request client)).length = 28 :=
    length_packet_eq _
  refine ⟨⟨?_, by omega⟩, by omega⟩
  simp only [FileCall.request, List.forall_mem_cons]
  exact ⟨rfsOp_lt _ (by decide), trivial, trivial, List.forall_mem_nil _⟩

theorem readResponse_fits {data : List UInt8} (hshort : data.length ≤ build.realBufferSize) :
    ProperPacket [.r rfsOpRead, .p (some data) (UInt32.ofNat data.length)] ∧
      (packet [.r rfsOpRead, .p (some data) (UInt32.ofNat data.length)]).length ≤
        2 ^ build.rfsBufferSize := by
  obtain ⟨hlarge, hsmall, hreal⟩ := build.bounds
  have hlength : (packet [.r rfsOpRead, .p (some data) (UInt32.ofNat data.length)]).length =
      23 + data.length := by
    simp only [length_packet_eq, length_encodeAll_cons, length_encode_p]
    change 16 + (1 + (6 + data.length + 0)) = _
    omega
  refine ⟨⟨?_, by omega⟩, by omega⟩
  simp only [List.forall_mem_cons]
  exact ⟨rfsOp_lt _ (by decide),
    ⟨_, rfl, (UInt32.toNat_ofNat_of_lt' (by change _ < 2 ^ 32; omega)).symm⟩, List.forall_mem_nil _⟩

end Packets

/-! ### One part -/

section Parts

variable {State : Type} {client : ClientConfig} {build : SerialBuild}
  {session : Session (State × List (List UInt8))} {state : State}

/-- How far a transfer has come: the other end is in some state, what was on the wire fits, and the
memory is as it should be. -/
structure Reached (build : SerialBuild) (memory : Ram → Prop)
    (session : Session (State × List (List UInt8))) (state : State) : Prop where
  remote : session.remote.1 = state
  fits : ∀ message ∈ session.remote.2, message.length ≤ 2 ^ build.rfsBufferSize
  memory : memory session.ram

/-- What is recorded of an exchange fits. -/
theorem Reached.after_exchange {memory next : Ram → Prop} {request response : List UInt8}
    (hreached : Reached build memory session state)
    {last : Session (State × List (List UInt8))} {after : State}
    (hremote : last.remote = (after, session.remote.2 ++ [request, response]))
    (hrequest : request.length ≤ 2 ^ build.rfsBufferSize)
    (hresponse : response.length ≤ 2 ^ build.rfsBufferSize) (hmemory : next last.ram) :
    Reached build next last after where
  remote := by rw [hremote]
  fits := by
    rw [hremote, List.forall_mem_append]
    refine ⟨hreached.fits, ?_⟩
    simp only [List.forall_mem_cons]
    exact ⟨hrequest, hresponse, List.forall_mem_nil _⟩
  memory := hmemory

/-- The exchange with a peer, recorded. -/
theorem Reached.exchange {memory : Ram → Prop} {transport : Transport State}
    {request response : List UInt8} {after : State} (hreached : Reached build memory session state)
    (hexchange : transport.exchange state request = some (response, after)) :
    (recording transport).exchange session.remote request =
      some (response, after, session.remote.2 ++ [request, response]) := by
  rw [← hreached.remote] at hexchange
  exact recording_exchange hexchange

/-- A part of what stands in memory. -/
theorem loadBytes_part {ram : Ram} {ptr : Addr} {data : List UInt8} (hdata : BytesAt ram ptr data)
    {offset size : ℕ} (hinside : offset + size ≤ data.length) :
    loadBytes ram (ptr.plus offset) size = (data.drop offset).take size := by
  have hsplit : data.take offset ++ ((data.drop offset).take size ++
      (data.drop offset).drop size) = data := by
    rw [List.take_append_drop, List.take_append_drop]
  have hoffset : (data.take offset).length = offset := by
    rw [List.length_take]
    omega
  have hsize : ((data.drop offset).take size).length = size := by
    rw [List.length_take, List.length_drop]
    omega
  rw [← hsplit, bytesAt_append, hoffset, bytesAt_append] at hdata
  have hload := hdata.2.1.loadBytes_eq
  rwa [hsize] at hload

variable {peer : Peer client build State} {fd : Int32} {buffer : UserBuffer client build}
  {data : List UInt8}

/-- What stands in the buffer that is given stays there. -/
theorem UserBuffer.keeps {bytes : List UInt8} {ram other : Ram}
    (hlength : bytes.length ≤ buffer.len)
    (houtside : ∀ addr, 2 ^ build.rfsBufferSize ≤ (addr - client.rfscBuffer).toNat →
      other addr = ram addr) (hbytes : BytesAt ram buffer.ptr bytes) :
    BytesAt other buffer.ptr bytes :=
  hbytes.congr fun index hindex ↦
    houtside _ (buffer.apart index (Nat.lt_of_lt_of_le hindex hlength))

/-- A write request that is answered with a result. -/
theorem rfscWrite_answered {chunk : List UInt8} {result : UInt32} {after : State}
    (hreached : Reached build (BytesAt · buffer.ptr data) session state)
    (hlength : data.length = buffer.len) (hinput : session.input = [])
    (hsize : chunk.length ≤ build.realBufferSize)
    (hexchange : peer.transport.exchange state
        (packet ((FileCall.write fd chunk).request client)) =
      some (packet [.r rfsOpWrite, .l result], after)) :
    ∃ last, rfscWrite client (recording peer.transport) session fd (some chunk)
        (UInt32.ofNat chunk.length) = some (result.toInt32, last) ∧ last.input = [] ∧
      Reached build (BytesAt · buffer.ptr data) last after := by
  obtain ⟨hrequest, hsent⟩ := writeRequest_fits client fd hsize
  obtain ⟨hresponse, hreceived⟩ := writeResponse_fits build result
  have hread (ram : Ram) (hbytes : BytesAt ram client.rfscBuffer
      (packet [.r rfsOpWrite, .l result])) :
      remotefsWriteReadResponse ram client.rfscBuffer = (.ok, result) := by
    have hvalues : eluarpcGenRead ram client.rfscBuffer [.r rfsOpWrite, .l] = (.ok, _) :=
      genRead_of_packet hresponse hbytes rfl rfl
    rw [remotefsWriteReadResponse, hvalues]
    rfl
  obtain ⟨ram, -, hcalled, houtside⟩ := rfsch_answered
    (fun ram p ↦ remotefsWriteWriteRequest ram p fd (some chunk) (UInt32.ofNat chunk.length))
    (fun ram p ↦ ((remotefsWriteReadResponse ram p).1, (remotefsWriteReadResponse ram p).2.toInt32))
    (-1) hrequest hresponse hsent hreceived (fun _ _ ↦ rfl) hinput (hreached.exchange hexchange)
    fun ram hbytes ↦ by rw [hread ram hbytes]
  exact ⟨_, hcalled, rfl, hreached.after_exchange rfl hsent hreceived
    (UserBuffer.keeps hlength.le houtside hreached.memory)⟩

/-- The chunk that a part of a write sends. -/
theorem writePart_chunk (hreached : Reached build (BytesAt · buffer.ptr data) session state)
    (hlength : data.length = buffer.len) {offset size : ℕ}
    (hinside : offset + size ≤ buffer.len) :
    loadBytes session.ram (buffer.ptr.plus offset) size = (data.drop offset).take size ∧
      ((data.drop offset).take size).length = size := by
  refine ⟨loadBytes_part hreached.memory (by omega), ?_⟩
  rw [List.length_take, List.length_drop]
  omega

/-- A part of a write that is taken. -/
theorem writePart_answered (hreached : Reached build (BytesAt · buffer.ptr data) session state)
    (hlength : data.length = buffer.len) (hinput : session.input = []) {offset size : ℕ}
    (hsize : size ≤ build.realBufferSize) (hinside : offset + size ≤ buffer.len)
    {taken : List UInt8} {after : State}
    (hpart : peer.writePart fd data state offset size = (some taken, after)) :
    ∃ last, rfscWrite client (recording peer.transport) session fd
        (some (loadBytes session.ram (buffer.ptr.plus offset) size)) (UInt32.ofNat size) =
          some (Int32.ofNat taken.length, last) ∧ last.input = [] ∧
      Reached build (BytesAt · buffer.ptr data) last after := by
  obtain ⟨hload, hchunk⟩ := writePart_chunk hreached hlength hinside
  rw [hload]
  unfold Peer.writePart at hpart
  generalize (data.drop offset).take size = chunk at hpart hchunk
  subst hchunk
  dsimp only at hpart
  split at hpart
  · cases hpart
  · rename_i count next hwrite
    obtain ⟨htaken, rfl⟩ := Prod.mk.inj hpart
    obtain rfl := Option.some.inj htaken
    have hcount : (chunk.take count).length = count := by
      rw [List.length_take]
      exact min_eq_left (peer.write_le _ _ _ _ _ hwrite)
    rw [hcount]
    exact rfscWrite_answered hreached hlength hinput hsize
      (peer.write_answered _ _ _ _ _ hsize hwrite)

/-- A part of a write that fails. -/
theorem writePart_failed (hreached : Reached build (BytesAt · buffer.ptr data) session state)
    (hlength : data.length = buffer.len) (hinput : session.input = []) {offset size : ℕ}
    (hsize : size ≤ build.realBufferSize) (hinside : offset + size ≤ buffer.len) {after : State}
    (hpart : peer.writePart fd data state offset size = (none, after)) :
    ∃ last, rfscWrite client (recording peer.transport) session fd
        (some (loadBytes session.ram (buffer.ptr.plus offset) size)) (UInt32.ofNat size) =
          some (-1, last) ∧ Reached build (BytesAt · buffer.ptr data) last after := by
  obtain ⟨hload, hchunk⟩ := writePart_chunk hreached hlength hinside
  rw [hload]
  unfold Peer.writePart at hpart
  generalize (data.drop offset).take size = chunk at hpart hchunk
  subst hchunk
  dsimp only at hpart
  split at hpart
  · rename_i next hwrite
    obtain rfl := (Prod.mk.inj hpart).2
    obtain ⟨response, hexchange, hreceived, hrefused | rfl⟩ :=
      peer.write_failed _ _ _ _ hsize hwrite
    · obtain ⟨hrequest, hsent⟩ := writeRequest_fits client fd hsize
      obtain ⟨last, hcalled, hremote, houtside⟩ := rfsch_refused
        (fun ram p ↦ remotefsWriteWriteRequest ram p fd (some chunk) (UInt32.ofNat chunk.length))
        (fun ram p ↦ ((remotefsWriteReadResponse ram p).1,
          (remotefsWriteReadResponse ram p).2.toInt32))
        (-1) hrequest hsent hreceived (fun _ _ ↦ rfl) hinput (hreached.exchange hexchange) hrefused
      exact ⟨last, hcalled, hreached.after_exchange hremote hsent hreceived
        (UserBuffer.keeps hlength.le houtside hreached.memory)⟩
    · obtain ⟨last, hcalled, -, hlast⟩ := rfscWrite_answered hreached hlength hinput hsize hexchange
      exact ⟨last, hcalled, hlast⟩
  · cases hpart

/-- A part of a read that is answered. -/
theorem readPart_answered {before : List UInt8}
    (hreached : Reached build (BytesAt · buffer.ptr before) session state)
    (hinput : session.input = []) {size : ℕ} (hsize : size ≤ build.realBufferSize)
    (hinside : before.length + size ≤ buffer.len) {given : List UInt8} {after : State}
    (hpart : peer.readPart fd state before.length size = (some given, after)) :
    ∃ last, rfscRead client (recording peer.transport) session fd
        (buffer.ptr.plus before.length) (UInt32.ofNat size) =
          some (Int32.ofNat given.length, last) ∧ last.input = [] ∧
      Reached build (BytesAt · buffer.ptr (before ++ given)) last after := by
  have hlen := buffer.len_lt
  have hgiven := peer.read_le _ _ _ _ _ hpart
  obtain ⟨hrequest, hsent⟩ := readRequest_fits build client fd (buffer.ptr.plus before.length)
    (UInt32.ofNat size)
  obtain ⟨hresponse, hreceived⟩ := readResponse_fits (hgiven.trans hsize)
  have hread (ram : Ram) (hbytes : BytesAt ram client.rfscBuffer
      (packet [.r rfsOpRead, .p (some given) (UInt32.ofNat given.length)])) :
      remotefsReadReadResponse ram client.rfscBuffer = (.ok,
        if UInt32.ofNat given.length = 0 then none
        else some (client.rfscBuffer.plus eluarpcReadBufOffset), UInt32.ofNat given.length) := by
    have hvalues : eluarpcGenRead ram client.rfscBuffer [.r rfsOpRead, .p] = (.ok, _) :=
      genRead_of_packet hresponse hbytes rfl rfl
    have haddr : ((client.rfscBuffer.plus 10).plus 1).plus eluarpcPtrHeaderSize =
        client.rfscBuffer.plus eluarpcReadBufOffset := by
      rw [Addr.plus_plus, Addr.plus_plus]
      rfl
    rw [remotefsReadReadResponse, hvalues, ← haddr]
    rfl
  obtain ⟨ram, hstands, hcalled, houtside⟩ := rfsch_answered
    (fun ram p ↦ remotefsReadWriteRequest ram p fd (UInt32.ofNat size))
    (fun ram p ↦ ((remotefsReadReadResponse ram p).1, some (remotefsReadReadResponse ram p).2))
    none hrequest hresponse hsent hreceived (fun _ _ ↦ rfl) hinput
    (hreached.exchange (peer.read_answered _ _ _ _ _ _ hsize hpart))
    fun ram hbytes ↦ by rw [hread ram hbytes]
  obtain ⟨-, -, hitems, -⟩ := bytesAt_packet hstands
  obtain ⟨-, hitems⟩ := bytesAt_append.mp hitems
  obtain ⟨hitem, -⟩ := bytesAt_append.mp hitems
  have hcount : given.length = (UInt32.ofNat given.length).toNat :=
    (UInt32.toNat_ofNat_of_lt' (by change _ < 2 ^ 32; omega)).symm
  have hdata := loadBytes_ptr (bytesAt_block hitem) hcount
  rw [Addr.plus_plus, Addr.plus_plus] at hdata
  refine ⟨⟨(Cursor.putAll ⟨ram, buffer.ptr.plus before.length⟩ given).ram, [], _⟩, ?_, rfl,
    hreached.after_exchange rfl hsent hreceived ?_⟩
  · rw [rfscRead, hcalled]
    exact congrArg (fun data ↦ some (Int32.ofNat given.length,
      (⟨(Cursor.putAll ⟨ram, buffer.ptr.plus before.length⟩ data).ram, [], _⟩ : Session _))) hdata
  · have hbefore : BytesAt ram buffer.ptr before :=
      UserBuffer.keeps (by omega) houtside hreached.memory
    rw [bytesAt_append]
    refine ⟨hbefore.congr fun index hindex ↦ putAll_outside ?_, bytesAt_putAll (by omega)⟩
    unfold Addr.plus
    bv_omega

/-- A part of a read that fails. -/
theorem readPart_failed {before : List UInt8}
    (hreached : Reached build (BytesAt · buffer.ptr before) session state)
    (hinput : session.input = []) {size : ℕ} (hsize : size ≤ build.realBufferSize)
    (hinside : before.length + size ≤ buffer.len) {after : State}
    (hpart : peer.readPart fd state before.length size = (none, after)) :
    ∃ last, rfscRead client (recording peer.transport) session fd
        (buffer.ptr.plus before.length) (UInt32.ofNat size) = some (-1, last) ∧
      Reached build (BytesAt · buffer.ptr before) last after := by
  obtain ⟨response, hexchange, hreceived, hrefused⟩ :=
    peer.read_failed _ _ (buffer.ptr.plus before.length) _ _ hsize hpart
  obtain ⟨hrequest, hsent⟩ := readRequest_fits build client fd (buffer.ptr.plus before.length)
    (UInt32.ofNat size)
  obtain ⟨last, hcalled, hremote, houtside⟩ := rfsch_refused
    (fun ram p ↦ remotefsReadWriteRequest ram p fd (UInt32.ofNat size))
    (fun ram p ↦ ((remotefsReadReadResponse ram p).1, some (remotefsReadReadResponse ram p).2))
    none hrequest hsent hreceived (fun _ _ ↦ rfl) hinput (hreached.exchange hexchange) hrefused
  refine ⟨last, ?_, hreached.after_exchange hremote hsent hreceived
    (UserBuffer.keeps (by omega) houtside hreached.memory)⟩
  rw [rfscRead, hcalled]
  rfl

end Parts

end Elua.Rfs
