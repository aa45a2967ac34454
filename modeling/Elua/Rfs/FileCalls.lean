import Elua.Rfs.Exchange

/-!
# Remote file calls and local ones

`FileCall` is a call of the client for a file. `clientCall` is what the client does, `osCall` what
the server does for the same arguments. `CallMeets` says that the two have the same result, that the
data of a read arrives, and that what is on the wire is packets. It holds exactly if the read of the
host does not fail and the name of the file fits into the buffer of the server (`callMeets_iff`): a
failed read is answered with a block whose length is the error, so that the end marker is written in
front of it. -/

set_option autoImplicit false
set_option relaxedAutoImplicit false

namespace Elua.Rfs

open Foundation Rpc

/-! ### Calls -/

/-- A call for a file. -/
inductive FileCall
  | «open» (pathname : CString) (flags mode : Int32)
  | read (fd : Int32) (buf : Addr) (count : UInt32)
  | write (fd : Int32) (buf : List UInt8)
  | lseek (fd offset whence : Int32)
  | close (fd : Int32)

/-- The call of the client. -/
def clientCall {State : Type} (config : ClientConfig) (transport : Transport State)
    (session : Session State) : FileCall → Option (Int32 × Session State)
  | .open pathname flags mode => rfscOpen config transport session pathname flags mode
  | .read fd buf count => rfscRead config transport session fd buf count
  | .write fd buf => rfscWrite config transport session fd (some buf) (UInt32.ofNat buf.length)
  | .lseek fd offset whence => rfscLseek config transport session fd offset whence
  | .close fd => rfscClose config transport session fd

/-- The call of the operating system for the same arguments, with the data that is read. A file is
opened under its full name. -/
def osCall {Host : Type} (posix : Posix Host) (client : ClientConfig) (config : ServerConfig)
    (host : Host) : FileCall → Option (Int32 × List UInt8 × Host)
  | .open pathname flags _ => do
    let fullname ← serverFullname config (some pathname.bytes)
    let (fd, host) := osOpen posix config host fullname
      (osOpenSysFlagsToRfsFlags client.openFlags flags).toInt32
    pure (fd, [], host)
  | .read fd _ count => some (osRead posix host fd count)
  | .write fd buf =>
    let (result, host) := osWrite posix host fd buf
    some (result, [], host)
  | .lseek fd offset whence =>
    let (result, host) := osLseek posix config host fd offset
      (osLseekSysWhenceToRfsWhence client.seekModes whence)
    some (result, [], host)
  | .close fd =>
    let (result, host) := osClose posix host fd
    some (result, [], host)

/-- The request of a call. -/
def FileCall.request (client : ClientConfig) : FileCall → List WriteItem
  | .open pathname flags mode =>
    [.o rfsOpOpen, .p (some (stringBlock pathname)) (stringBlockLen pathname),
      .i (osOpenSysFlagsToRfsFlags client.openFlags flags).toInt32, .i mode]
  | .read fd _ count => [.o rfsOpRead, .i fd, .l count]
  | .write fd buf => [.o rfsOpWrite, .i fd, .p (some buf) (UInt32.ofNat buf.length)]
  | .lseek fd offset whence =>
    [.o rfsOpLseek, .i fd, .L offset, .i (osLseekSysWhenceToRfsWhence client.seekModes whence)]
  | .close fd => [.o rfsOpClose, .i fd]

/-- The response to a call with a result and data. -/
def FileCall.response (result : Int32) (bytes : List UInt8) : FileCall → List WriteItem
  | .open _ _ _ => [.r rfsOpOpen, .i result]
  | .read _ _ _ => [.r rfsOpRead, .p (some bytes) (UInt32.ofNat bytes.length)]
  | .write _ _ => [.r rfsOpWrite, .l result.toUInt32]
  | .lseek _ _ _ => [.r rfsOpLseek, .L result]
  | .close _ => [.r rfsOpClose, .i result]

/-- The number of bytes of the longest packet of a call. -/
def FileCall.packetLength : FileCall → ℕ
  | .open pathname _ _ => 35 + pathname.strlen
  | .read _ _ count => max 28 (23 + count.toNat)
  | .write _ buf => 29 + buf.length
  | .lseek _ _ _ => 33
  | .close _ => 23

/-- The packets of a call fit into the buffers of the client and of the server. -/
def FileCall.Fits (clientBufferSize : ℕ) (call : FileCall) : Prop :=
  call.packetLength ≤ clientBufferSize ∧ call.packetLength ≤ rfsBufferSize

/-! ### What must hold -/

/-- The bytes are a packet whose size is the number of its bytes. -/
def WellFormed (bytes : List UInt8) : Prop := ∃ fmt, ProperPacket fmt ∧ bytes = packet fmt

/-- Where the data of a read goes. -/
def FileCall.buf : FileCall → Option Addr
  | .read _ buf _ => some buf
  | _ => none

/-- The call gives the result of the server's call of the operating system, the data arrives, and
what is on the wire is packets. -/
def CallMeets {Host : Type} (posix : Posix Host) (client : ClientConfig) (config : ServerConfig)
    (fuel : ℕ) (ram : Ram) (server : Server Host) (call : FileCall) : Prop :=
  ∃ result bytes host after,
    osCall posix client config server.host call = some (result, bytes, host) ∧
      clientCall client (recording (serverTransport posix config fuel)) ⟨ram, [], server, []⟩ call =
        some (result, after) ∧
      after.remote.1.host = host ∧
      (∀ buf, call.buf = some buf → BytesAt after.ram buf bytes) ∧
      ∀ message ∈ after.remote.2, WellFormed message

/-- The read of the host does not fail, and the full name fits. -/
def FileCall.Carried {Host : Type} (posix : Posix Host) (config : ServerConfig) (host : Host) :
    FileCall → Prop
  | .open pathname _ _ => (serverFullname config (some pathname.bytes)).isSome = true
  | .read fd _ count => ((posix.read host fd count).1).isSome = true
  | _ => True

/-! ### Packets -/

section Packets

theorem rfsBufferSize_le : rfsBufferSize ≤ 65535 := by decide

theorem rfsOp_lt : ∀ op ∈ [rfsOpOpen, rfsOpWrite, rfsOpRead, rfsOpClose, rfsOpLseek, rfsOpOpendir,
    rfsOpReaddir, rfsOpClosedir], op.toNat < 128 := by
  simp only [List.forall_mem_cons]
  exact ⟨by decide, by decide, by decide, by decide, by decide, by decide, by decide, by decide,
    List.forall_mem_nil _⟩

/-- A packet is short if its letters are. -/
theorem ProperPacket.of_length {fmt : List WriteItem} (hproper : ∀ item ∈ fmt, item.Proper)
    (hlength : 16 + (encodeAll fmt).length ≤ rfsBufferSize) : ProperPacket fmt := by
  refine ⟨hproper, ?_⟩
  rw [length_packet_eq]
  exact hlength.trans rfsBufferSize_le

/-- The number of bytes of the letters. -/
theorem length_encodeAll_cons (item : WriteItem) (fmt : List WriteItem) :
    (encodeAll (item :: fmt)).length = item.encode.length + (encodeAll fmt).length :=
  List.length_append

theorem length_encode_p (bytes : List UInt8) (srclen : UInt32) :
    (WriteItem.p (some bytes) srclen).encode.length = 6 + bytes.length :=
  List.length_append

theorem length_stringBlock (string : CString) :
    (stringBlock string).length = string.strlen + 1 := by
  rw [stringBlock, List.length_append]
  rfl

variable {client : ClientConfig} {call : FileCall} {clientBufferSize : ℕ}

/-- A short string is written as a block of its length. -/
theorem proper_string {string : CString} (hlength : string.strlen < rfsBufferSize) :
    WriteItem.Proper (.p (some (stringBlock string)) (stringBlockLen string)) := by
  have hle := rfsBufferSize_le
  exact ⟨_, rfl, (toNat_stringBlockLen (by omega)).symm⟩

/-- A short block has its length. -/
theorem proper_block {bytes : List UInt8} (hlength : bytes.length < rfsBufferSize) :
    WriteItem.Proper (.p (some bytes) (UInt32.ofNat bytes.length)) := by
  have hle := rfsBufferSize_le
  exact ⟨_, rfl, (UInt32.toNat_ofNat_of_lt' (Nat.lt_trans hlength (by decide))).symm⟩

/-- Requests are packets. -/
theorem FileCall.request_proper (hfits : call.Fits clientBufferSize) :
    ProperPacket (call.request client) := by
  obtain ⟨-, hlength⟩ := hfits
  cases call with
  | «open» pathname flags mode =>
    rw [packetLength] at hlength
    refine .of_length ?_ ?_
    · simp only [request, List.forall_mem_cons]
      exact ⟨rfsOp_lt _ (by decide), proper_string (by omega), trivial, trivial, List.forall_mem_nil _⟩
    · simp only [request, length_encodeAll_cons, length_encode_p, length_stringBlock]
      change 16 + (2 + (6 + (pathname.strlen + 1) + (5 + (5 + 0)))) ≤ rfsBufferSize
      omega
  | read fd buf count =>
    refine .of_length ?_ ?_
    · simp only [request, List.forall_mem_cons]
      exact ⟨rfsOp_lt _ (by decide), trivial, trivial, List.forall_mem_nil _⟩
    · exact Nat.le_trans (Nat.le_max_left _ _) hlength
  | write fd buf =>
    rw [packetLength] at hlength
    refine .of_length ?_ ?_
    · simp only [request, List.forall_mem_cons]
      exact ⟨rfsOp_lt _ (by decide), trivial, proper_block (by omega), List.forall_mem_nil _⟩
    · simp only [request, length_encodeAll_cons, length_encode_p]
      change 16 + (2 + (5 + (6 + buf.length + 0))) ≤ rfsBufferSize
      omega
  | lseek fd offset whence =>
    refine .of_length ?_ hlength
    simp only [request, List.forall_mem_cons]
    exact ⟨rfsOp_lt _ (by decide), trivial, trivial, trivial, List.forall_mem_nil _⟩
  | close fd =>
    refine .of_length ?_ hlength
    simp only [request, List.forall_mem_cons]
    exact ⟨rfsOp_lt _ (by decide), trivial, List.forall_mem_nil _⟩

/-- Responses are packets. -/
theorem FileCall.response_proper (hfits : call.Fits clientBufferSize) {result : Int32}
    {bytes : List UInt8}
    (hbytes : ∀ fd buf count, call = .read fd buf count → bytes.length ≤ count.toNat) :
    ProperPacket (call.response result bytes) := by
  obtain ⟨-, hlength⟩ := hfits
  cases call with
  | read fd buf count =>
    have hcount := hbytes fd buf count rfl
    have hmax := Nat.le_trans (Nat.le_max_right _ _) hlength
    refine .of_length ?_ ?_
    · simp only [response, List.forall_mem_cons]
      exact ⟨rfsOp_lt _ (by decide), proper_block (by omega), List.forall_mem_nil _⟩
    · simp only [response, length_encodeAll_cons, length_encode_p]
      change 16 + (1 + (6 + bytes.length + 0)) ≤ rfsBufferSize
      omega
  | _ =>
    refine .of_length ?_ (show 22 ≤ rfsBufferSize by decide)
    simp only [response, List.forall_mem_cons]
    exact ⟨rfsOp_lt _ (by decide), trivial, List.forall_mem_nil _⟩

end Packets

/-! ### The server -/

section Server

variable {Host : Type} {posix : Posix Host} {client : ClientConfig} {config : ServerConfig}
  {fuel : ℕ} {ram : Ram} {host after : Host} {result : Int32} {bytes : List UInt8}

/-- The handler of a request is found by its id. -/
theorem serverExecuteRequest_eq {id : UInt8} {fmt : List WriteItem}
    (hbytes : BytesAt ram config.rfsBuffer (packet (.o id :: fmt))) :
    serverExecuteRequest posix config ⟨ram, host⟩ fuel =
      if id = rfsOpOpen then serverOpen posix config ⟨ram, host⟩
      else if id = rfsOpWrite then serverWrite posix config ⟨ram, host⟩
      else if id = rfsOpRead then serverRead posix config ⟨ram, host⟩
      else if id = rfsOpClose then serverClose posix config ⟨ram, host⟩
      else if id = rfsOpLseek then serverLseek posix config ⟨ram, host⟩
      else if id = rfsOpOpendir then serverOpendir posix config ⟨ram, host⟩
      else if id = rfsOpReaddir then serverReaddir posix config ⟨ram, host⟩ fuel
      else if id = rfsOpClosedir then serverClosedir posix config ⟨ram, host⟩
      else some (.err, ⟨ram, host⟩) := by
  rw [serverExecuteRequest, getRequestId_eq hbytes]

theorem serverClose_eq {fd : Int32} (hrequest : ProperPacket [.o rfsOpClose, .i fd])
    (hbytes : BytesAt ram config.rfsBuffer (packet [.o rfsOpClose, .i fd])) :
    serverClose posix config ⟨ram, host⟩ =
      some (.ok, ⟨eluarpcGenWrite ram config.rfsBuffer [.r rfsOpClose, .i (posix.close host fd).1],
        (posix.close host fd).2⟩) := by
  have hread : eluarpcGenRead ram config.rfsBuffer [.o rfsOpClose, .i] = (.ok, [.int fd]) :=
    genRead_of_packet hrequest hbytes rfl rfl
  rw [serverClose, remotefsCloseReadRequest, hread]
  rfl

theorem serverLseek_eq {fd offset whence : Int32}
    (hrequest : ProperPacket [.o rfsOpLseek, .i fd, .L offset, .i whence])
    (hbytes : BytesAt ram config.rfsBuffer
      (packet [.o rfsOpLseek, .i fd, .L offset, .i whence])) :
    serverLseek posix config ⟨ram, host⟩ =
      some (.ok, ⟨eluarpcGenWrite ram config.rfsBuffer
        [.r rfsOpLseek, .L (osLseek posix config host fd offset whence).1],
        (osLseek posix config host fd offset whence).2⟩) := by
  have hread : eluarpcGenRead ram config.rfsBuffer [.o rfsOpLseek, .i, .L, .i] =
      (.ok, [.int fd, .s32 offset, .int whence]) := genRead_of_packet hrequest hbytes rfl rfl
  rw [serverLseek, remotefsLseekReadRequest, hread]
  rfl

/-- Where the data of a block stands. -/
theorem bytesAt_block {addr : Addr} {block : List UInt8} {srclen : UInt32}
    (hbytes : BytesAt ram addr (WriteItem.p (some block) srclen).encode) :
    BytesAt ram (addr.plus eluarpcPtrHeaderSize) block :=
  (bytesAt_append.mp hbytes).2

/-- The data that a pointer of the reader leads to. -/
theorem loadBytes_ptr {addr : Addr} {block : List UInt8} {srclen : UInt32}
    (hbytes : BytesAt ram addr block) (hlength : block.length = srclen.toNat) :
    loadBytes ram ((if srclen = 0 then none else some addr).getD 0) srclen.toNat = block := by
  split_ifs with hempty
  · subst hempty
    obtain rfl : block = [] := List.length_eq_zero_iff.mp hlength
    rfl
  · rw [← hlength]
    exact hbytes.loadBytes_eq

/-- The block of a string is not empty. -/
theorem stringBlockLen_ne {string : CString}
    (hlength : (stringBlock string).length = (stringBlockLen string).toNat) :
    stringBlockLen string ≠ 0 := by
  intro hzero
  rw [hzero, length_stringBlock] at hlength
  exact Nat.succ_ne_zero _ hlength

/-- The string whose block stands at an address. -/
theorem stringAt_of_length {addr : Addr} {string : CString}
    (hbytes : BytesAt ram addr (stringBlock string))
    (hlength : (stringBlock string).length = (stringBlockLen string).toNat) :
    stringAt ram addr = string.bytes := by
  have hlt := (stringBlockLen string).toNat_lt
  rw [← hlength, length_stringBlock] at hlt
  exact stringAt_block hbytes (Nat.lt_of_succ_lt hlt)

/-- The name of a request that begins with one. -/
theorem name_of_request {op : UInt8} {name : CString} {rest : List WriteItem} {p : Addr}
    (hrequest : ProperPacket (.o op :: .p (some (stringBlock name)) (stringBlockLen name) :: rest))
    (hbytes : BytesAt ram p
      (packet (.o op :: .p (some (stringBlock name)) (stringBlockLen name) :: rest))) :
    stringBlockLen name ≠ 0 ∧
      stringAt ram (((p.plus 10).plus 2).plus eluarpcPtrHeaderSize) = name.bytes := by
  obtain ⟨-, -, hitems, -⟩ := bytesAt_packet hbytes
  obtain ⟨-, hitems⟩ := bytesAt_append.mp hitems
  obtain ⟨hitem, -⟩ := bytesAt_append.mp hitems
  obtain ⟨block, hsome, hlength⟩ :=
    hrequest.proper _ (List.mem_cons_of_mem _ List.mem_cons_self)
  obtain rfl := Option.some.inj hsome
  exact ⟨stringBlockLen_ne hlength, stringAt_of_length (bytesAt_block hitem) hlength⟩

/-- A request to open a file is read. -/
theorem remotefsOpenReadRequest_eq {pathname : CString} {flags mode : Int32} {p : Addr}
    (hrequest : ProperPacket [.o rfsOpOpen, .p (some (stringBlock pathname))
      (stringBlockLen pathname), .i flags, .i mode])
    (hbytes : BytesAt ram p (packet [.o rfsOpOpen, .p (some (stringBlock pathname))
      (stringBlockLen pathname), .i flags, .i mode])) :
    ∃ filename, remotefsOpenReadRequest ram p = (.ok, some filename, flags, mode) ∧
      stringAt ram filename = pathname.bytes := by
  obtain ⟨hne, hname⟩ := name_of_request hrequest hbytes
  have hread : eluarpcGenRead ram p [.o rfsOpOpen, .p, .i, .i] = (.ok, _) :=
    genRead_of_packet hrequest hbytes rfl rfl
  refine ⟨_, ?_, hname⟩
  rw [remotefsOpenReadRequest, hread]
  exact congrArg (fun filename ↦ (EluarpcStatus.ok, filename, flags, mode)) (if_neg hne)

theorem serverWrite_eq {fd : Int32} {buf : List UInt8} {count : UInt32}
    (hrequest : ProperPacket [.o rfsOpWrite, .i fd, .p (some buf) count])
    (hbytes : BytesAt ram config.rfsBuffer (packet [.o rfsOpWrite, .i fd, .p (some buf) count])) :
    serverWrite posix config ⟨ram, host⟩ =
      some (.ok, ⟨eluarpcGenWrite ram config.rfsBuffer
        [.r rfsOpWrite, .l (posix.write host fd buf).1.toUInt32],
        (posix.write host fd buf).2⟩) := by
  obtain ⟨-, -, hitems, -⟩ := bytesAt_packet hbytes
  obtain ⟨-, hitems⟩ := bytesAt_append.mp hitems
  obtain ⟨-, hitems⟩ := bytesAt_append.mp hitems
  obtain ⟨hitem, -⟩ := bytesAt_append.mp hitems
  have hmem : WriteItem.p (some buf) count ∈ [.o rfsOpWrite, .i fd, .p (some buf) count] := by simp
  obtain ⟨block, hsome, hlength⟩ := hrequest.proper _ hmem
  obtain rfl := Option.some.inj hsome
  have hread : eluarpcGenRead ram config.rfsBuffer [.o rfsOpWrite, .i, .p] = (.ok, _) :=
    genRead_of_packet hrequest hbytes rfl rfl
  have hdata := loadBytes_ptr (bytesAt_block hitem) hlength
  rw [serverWrite, remotefsWriteReadRequest, hread]
  exact congrArg (fun data ↦ some (ServerStatus.ok, (⟨eluarpcGenWrite ram config.rfsBuffer
    [.r rfsOpWrite, .l (posix.write host fd data).1.toUInt32], (posix.write host fd data).2⟩ :
      Server Host))) hdata

theorem serverOpen_eq {pathname : CString} {flags mode : Int32} {fullname : List UInt8}
    (hrequest : ProperPacket [.o rfsOpOpen, .p (some (stringBlock pathname))
      (stringBlockLen pathname), .i flags, .i mode])
    (hbytes : BytesAt ram config.rfsBuffer (packet [.o rfsOpOpen,
      .p (some (stringBlock pathname)) (stringBlockLen pathname), .i flags, .i mode]))
    (hfullname : serverFullname config (some pathname.bytes) = some fullname) :
    serverOpen posix config ⟨ram, host⟩ =
      some (.ok, ⟨eluarpcGenWrite ram config.rfsBuffer
        [.r rfsOpOpen, .i (osOpen posix config host fullname flags).1],
        (osOpen posix config host fullname flags).2⟩) := by
  obtain ⟨filename, hread, hname⟩ := remotefsOpenReadRequest_eq hrequest hbytes
  have hfound : serverFullname config ((some filename).map (stringAt ram)) = some fullname := by
    rw [Option.map_some, hname]
    exact hfullname
  rw [serverOpen, hread]
  dsimp only
  rw [hfound]
  rfl

/-- A block that stands behind its header need not be copied. -/
theorem genWrite_none {addr : Addr} {id : UInt8} {block : List UInt8} {srclen : UInt32}
    (hblock : BytesAt ram (addr.plus eluarpcReadBufOffset) block)
    (hlength : block.length = srclen.toNat) (hshort : block.length ≤ rfsBufferSize) :
    eluarpcGenWrite ram addr [.r id, .p none srclen] =
      eluarpcGenWrite ram addr [.r id, .p (some block) srclen] := by
  have hle := rfsBufferSize_le
  have hheader : eluarpcWriteU32 (((eluarpcStartPacket ⟨ram, addr⟩).put (eluarpcOpResMod ||| id)).put
      typePtr) srclen = Cursor.putAll ⟨ram, addr.plus eluarpcStartOffset⟩
        (typeStart :: typeInt32 :: bytes32 packetSig ++
          (eluarpcOpResMod ||| id) :: typePtr :: typeInt32 :: bytes32 srclen) := by
    rw [eluarpcStartPacket, eluarpcWriteU32_eq, eluarpcWriteU32_eq, ← putAll_cons, ← putAll_cons,
      ← putAll_cons, ← putAll_append]
  have hitems : ∀ src, eluarpcWriteItems (eluarpcStartPacket ⟨ram, addr⟩) [.r id, .p src srclen] =
      putBlock (eluarpcWriteU32 (((eluarpcStartPacket ⟨ram, addr⟩).put (eluarpcOpResMod ||| id)).put
        typePtr) srclen) src srclen.toNat := fun _ ↦ rfl
  have hlist : (typeStart :: typeInt32 :: bytes32 packetSig ++
      (eluarpcOpResMod ||| id) :: typePtr :: typeInt32 :: bytes32 srclen).length = 13 := rfl
  generalize typeStart :: typeInt32 :: bytes32 packetSig ++
    (eluarpcOpResMod ||| id) :: typePtr :: typeInt32 :: bytes32 srclen = header at hheader hlist
  have haddr : (addr.plus eluarpcStartOffset).plus header.length =
      addr.plus eluarpcReadBufOffset := by
    rw [hlist]
    exact Addr.plus_plus addr eluarpcStartOffset 13
  have hstands : BytesAt (Cursor.putAll ⟨ram, addr.plus eluarpcStartOffset⟩ header).ram
      (Cursor.putAll ⟨ram, addr.plus eluarpcStartOffset⟩ header).addr block := by
    rw [addr_putAll, haddr]
    refine hblock.congr fun index hindex ↦ putAll_outside ?_
    rw [← haddr, Addr.plus_plus, Addr.sub_plus _ (by omega)]
    exact Nat.le_add_right _ _
  rw [eluarpcGenWrite, eluarpcGenWrite, hitems none, hitems (some block), hheader,
    putBlock_some _ hlength, ← hlength, putBlock_none hstands]

theorem serverRead_eq {fd : Int32} {count : UInt32} {data : List UInt8}
    (hrequest : ProperPacket [.o rfsOpRead, .i fd, .l count])
    (hbytes : BytesAt ram config.rfsBuffer (packet [.o rfsOpRead, .i fd, .l count]))
    (hdata : posix.read host fd count = (some data, after))
    (hshort : data.length ≤ rfsBufferSize) :
    ∃ ram', serverRead posix config ⟨ram, host⟩ =
      some (.ok, ⟨eluarpcGenWrite ram' config.rfsBuffer
        [.r rfsOpRead, .p (some data) (UInt32.ofNat data.length)], after⟩) := by
  have hle := rfsBufferSize_le
  have hread : eluarpcGenRead ram config.rfsBuffer [.o rfsOpRead, .i, .l] = (.ok, _) :=
    genRead_of_packet hrequest hbytes rfl rfl
  have hlength : data.length = (UInt32.ofNat data.length).toNat :=
    (UInt32.toNat_ofNat_of_lt' (Nat.lt_of_le_of_lt (Nat.le_trans hshort hle) (by decide))).symm
  have hstands : BytesAt (Cursor.putAll ⟨ram, config.rfsBuffer.plus eluarpcReadBufOffset⟩ data).ram
      (config.rfsBuffer.plus eluarpcReadBufOffset) data := bytesAt_putAll (by omega)
  have hos : osRead posix host fd count = ((UInt32.ofNat data.length).toInt32, data, after) := by
    rw [osRead, hdata]
  refine ⟨(Cursor.putAll ⟨ram, config.rfsBuffer.plus eluarpcReadBufOffset⟩ data).ram, ?_⟩
  rw [serverRead, remotefsReadReadRequest, hread]
  have hresponse := @genWrite_none _ config.rfsBuffer rfsOpRead data _ hstands hlength hshort
  rw [← hresponse]
  change some (ServerStatus.ok, (⟨remotefsReadWriteResponse (Cursor.putAll ⟨ram,
    config.rfsBuffer.plus eluarpcReadBufOffset⟩ (osRead posix host fd count).2.1).ram
      config.rfsBuffer (osRead posix host fd count).1.toUInt32,
        (osRead posix host fd count).2.2⟩ : Server Host)) = _
  rw [hos]
  rfl

/-- The server carries a call out, and its response is a packet. -/
theorem serverTurn_call {call : FileCall} {clientBufferSize : ℕ} (server : Server Host)
    (hfits : call.Fits clientBufferSize) (hcarried : call.Carried posix config server.host) :
    ∃ result bytes host ram,
      osCall posix client config server.host call = some (result, bytes, host) ∧
        (∀ fd buf count, call = .read fd buf count → result = (UInt32.ofNat bytes.length).toInt32) ∧
        ProperPacket (call.response result bytes) ∧
        serverTurn posix config fuel server (packet (call.request client)) =
          some (packet (call.response result bytes), ⟨ram, host⟩) := by
  have hrequest := @FileCall.request_proper client _ _ hfits
  cases call with
  | «open» pathname flags mode =>
    obtain ⟨fullname, hfullname⟩ := Option.isSome_iff_exists.mp hcarried
    have hresponse := @FileCall.response_proper _ _ hfits
      (osOpen posix config server.host fullname
        (osOpenSysFlagsToRfsFlags client.openFlags flags).toInt32).1 []
      (fun _ _ _ hcall ↦ by cases hcall)
    obtain ⟨ram, hturn⟩ := @serverTurn_packet Host posix config fuel server _ _ _ hrequest
      hresponse fun ram hbytes ↦ ⟨ram, (serverExecuteRequest_eq hbytes).trans
        (serverOpen_eq hrequest hbytes hfullname)⟩
    refine ⟨_, [], _, ram, ?_, (fun _ _ _ hcall ↦ by cases hcall), hresponse, hturn⟩
    rw [osCall, hfullname]
    rfl
  | read fd buf count =>
    obtain ⟨data, hdata⟩ := Option.isSome_iff_exists.mp hcarried
    have hcount := posix.read_le server.host fd count data hdata
    have hresponse := @FileCall.response_proper _ _ hfits (UInt32.ofNat data.length).toInt32 data
      (fun _ _ _ hcall ↦ by cases hcall; exact hcount)
    have hshort : data.length ≤ rfsBufferSize := by
      have hmax := Nat.le_trans (Nat.le_max_right _ _) hfits.2
      omega
    obtain ⟨ram, hturn⟩ := @serverTurn_packet Host posix config fuel server _ _ _ hrequest
      hresponse fun ram hbytes ↦ by
        obtain ⟨ram', hread⟩ := serverRead_eq hrequest hbytes (Prod.ext hdata rfl) hshort
        exact ⟨ram', (serverExecuteRequest_eq hbytes).trans hread⟩
    refine ⟨_, data, _, ram, ?_, (fun _ _ _ _ ↦ rfl), hresponse, hturn⟩
    have hos : posix.read server.host fd count = (some data, (posix.read server.host fd count).2) :=
      Prod.ext hdata rfl
    rw [osCall, osRead, hos]
  | write fd buf =>
    have hresponse := @FileCall.response_proper _ _ hfits (posix.write server.host fd buf).1 []
      (fun _ _ _ hcall ↦ by cases hcall)
    obtain ⟨ram, hturn⟩ := @serverTurn_packet Host posix config fuel server _ _ _ hrequest
      hresponse fun ram hbytes ↦ ⟨ram, (serverExecuteRequest_eq hbytes).trans
        (serverWrite_eq hrequest hbytes)⟩
    exact ⟨_, [], _, ram, rfl, (fun _ _ _ hcall ↦ by cases hcall), hresponse, hturn⟩
  | lseek fd offset whence =>
    have hresponse := @FileCall.response_proper _ _ hfits (osLseek posix config server.host fd offset
      (osLseekSysWhenceToRfsWhence client.seekModes whence)).1 [] (fun _ _ _ hcall ↦ by cases hcall)
    obtain ⟨ram, hturn⟩ := @serverTurn_packet Host posix config fuel server _ _ _ hrequest
      hresponse fun ram hbytes ↦ ⟨ram, (serverExecuteRequest_eq hbytes).trans
        (serverLseek_eq hrequest hbytes)⟩
    exact ⟨_, [], _, ram, rfl, (fun _ _ _ hcall ↦ by cases hcall), hresponse, hturn⟩
  | close fd =>
    have hresponse := @FileCall.response_proper _ _ hfits (posix.close server.host fd).1 []
      (fun _ _ _ hcall ↦ by cases hcall)
    obtain ⟨ram, hturn⟩ := @serverTurn_packet Host posix config fuel server _ _ _ hrequest
      hresponse fun ram hbytes ↦ ⟨ram, (serverExecuteRequest_eq hbytes).trans
        (serverClose_eq hrequest hbytes)⟩
    exact ⟨_, [], _, ram, rfl, (fun _ _ _ hcall ↦ by cases hcall), hresponse, hturn⟩

end Server

/-! ### The client -/

section Client

variable {State : Type} {client : ClientConfig} {transport : Transport State}
  {session : Session State} {call : FileCall} {result : Int32} {bytes : List UInt8} {remote : State}

/-- What the client reads of the response to `read`: the data stands in its buffer, unless there is
none. -/
theorem remotefsReadReadResponse_eq {ram : Ram} {p : Addr} {count : UInt32}
    (hresponse : ProperPacket [.r rfsOpRead, .p (some bytes) count])
    (hbytes : BytesAt ram p (packet [.r rfsOpRead, .p (some bytes) count])) :
    remotefsReadReadResponse ram p =
      (.ok, if count = 0 then none else some (p.plus eluarpcReadBufOffset), count) := by
  have hvalues : eluarpcGenRead ram p [.r rfsOpRead, .p] = (.ok, _) :=
    genRead_of_packet hresponse hbytes rfl rfl
  have haddr : ((p.plus 10).plus 1).plus eluarpcPtrHeaderSize = p.plus eluarpcReadBufOffset := by
    rw [Addr.plus_plus, Addr.plus_plus]
    rfl
  rw [remotefsReadReadResponse, hvalues, ← haddr]
  rfl

/-- `read` gives the number of bytes of the response, which it copies out of its buffer. -/
theorem clientCall_read {fd : Int32} {buf : Addr} {count : UInt32}
    (hrequest : ProperPacket ((FileCall.read fd buf count).request client))
    (hresponse : ProperPacket ((FileCall.read fd buf count).response result bytes))
    (hinput : session.input = [])
    (hexchange : transport.exchange session.remote
        (packet ((FileCall.read fd buf count).request client)) =
      some (packet ((FileCall.read fd buf count).response result bytes), remote)) :
    ∃ ram, clientCall client transport session (.read fd buf count) =
        some ((UInt32.ofNat bytes.length).toInt32, ⟨ram, [], remote⟩) ∧ BytesAt ram buf bytes := by
  obtain ⟨block, hsome, hlength⟩ := hresponse.proper (.p (some bytes) (UInt32.ofNat bytes.length))
    (List.mem_cons_of_mem _ List.mem_cons_self)
  obtain rfl := Option.some.inj hsome
  obtain ⟨ram, hstands, hcalled⟩ := @rfsch_packet _ client transport session _ _ _
    (fun ram p ↦ remotefsReadWriteRequest ram p fd count)
    (fun ram p ↦ ((remotefsReadReadResponse ram p).1, some (remotefsReadReadResponse ram p).2))
    none (some (if UInt32.ofNat bytes.length = 0 then none
      else some (client.rfscBuffer.plus eluarpcReadBufOffset), UInt32.ofNat bytes.length))
    remote hrequest hresponse (fun _ _ ↦ rfl) hinput hexchange fun ram hbytes ↦ by
      rw [remotefsReadReadResponse_eq hresponse hbytes]
  obtain ⟨-, -, hitems, -⟩ := bytesAt_packet hstands
  obtain ⟨-, hitems⟩ := bytesAt_append.mp hitems
  obtain ⟨hitem, -⟩ := bytesAt_append.mp hitems
  have hdata := loadBytes_ptr (bytesAt_block hitem) hlength
  rw [Addr.plus_plus, Addr.plus_plus] at hdata
  have hcopied : clientCall client transport session (.read fd buf count) =
      some ((UInt32.ofNat bytes.length).toInt32,
        ⟨(Cursor.putAll ⟨ram, buf⟩ (loadBytes ram ((if UInt32.ofNat bytes.length = 0 then none
          else some (client.rfscBuffer.plus eluarpcReadBufOffset)).getD 0)
            (UInt32.ofNat bytes.length).toNat)).ram, [], remote⟩) := by
    rw [clientCall, rfscRead, hcalled]
    rfl
  refine ⟨(Cursor.putAll ⟨ram, buf⟩ bytes).ram, ?_, ?_⟩
  · rw [hcopied]
    exact congrArg (fun data ↦ some ((UInt32.ofNat bytes.length).toInt32,
      (⟨(Cursor.putAll ⟨ram, buf⟩ data).ram, [], remote⟩ : Session State))) hdata
  · have hlt := (UInt32.ofNat bytes.length).toNat_lt
    exact bytesAt_putAll (by rw [hlength]; exact Nat.le_of_lt hlt)

/-- If the response is the packet of a result, the client returns the result, and it has the data.
-/
theorem clientCall_eq (hrequest : ProperPacket (call.request client))
    (hresponse : ProperPacket (call.response result bytes)) (hinput : session.input = [])
    (hexchange : transport.exchange session.remote (packet (call.request client)) =
      some (packet (call.response result bytes), remote))
    (hresult : ∀ fd buf count, call = .read fd buf count →
      result = (UInt32.ofNat bytes.length).toInt32) :
    ∃ after, clientCall client transport session call = some (result, after) ∧
      after.remote = remote ∧ ∀ buf, call.buf = some buf → BytesAt after.ram buf bytes := by
  cases call with
  | «open» pathname flags mode =>
    have hread : ∀ ram, BytesAt ram client.rfscBuffer (packet [.r rfsOpOpen, .i result]) →
        remotefsOpenReadResponse ram client.rfscBuffer = (.ok, result) := by
      intro ram hbytes
      have hvalues : eluarpcGenRead ram client.rfscBuffer [.r rfsOpOpen, .i] = (.ok, _) :=
        genRead_of_packet hresponse hbytes rfl rfl
      rw [remotefsOpenReadResponse, hvalues]
      rfl
    obtain ⟨ram, -, hcalled⟩ := rfsch_packet _ _ _ hrequest hresponse (fun _ _ ↦ rfl) hinput hexchange
      hread
    exact ⟨_, hcalled, rfl, fun _ hbuf ↦ by cases hbuf⟩
  | read fd buf count =>
    obtain ⟨ram, hcalled, hdata⟩ := clientCall_read hrequest hresponse hinput hexchange
    refine ⟨⟨ram, [], remote⟩, ?_, rfl, fun other hother ↦ ?_⟩
    · rw [hcalled, hresult fd buf count rfl]
    · obtain rfl := Option.some.inj hother
      exact hdata
  | write fd buf =>
    have hread : ∀ ram, BytesAt ram client.rfscBuffer (packet [.r rfsOpWrite, .l result.toUInt32]) →
        remotefsWriteReadResponse ram client.rfscBuffer = (.ok, result.toUInt32) := by
      intro ram hbytes
      have hvalues : eluarpcGenRead ram client.rfscBuffer [.r rfsOpWrite, .l] = (.ok, _) :=
        genRead_of_packet hresponse hbytes rfl rfl
      rw [remotefsWriteReadResponse, hvalues]
      rfl
    obtain ⟨ram, -, hcalled⟩ := rfsch_packet _
      (fun ram p ↦ ((remotefsWriteReadResponse ram p).1, (remotefsWriteReadResponse ram p).2.toInt32))
      (-1) hrequest hresponse (fun _ _ ↦ rfl) hinput hexchange fun ram hbytes ↦ by
        rw [hread ram hbytes]
    exact ⟨_, hcalled, rfl, fun _ hbuf ↦ by cases hbuf⟩
  | lseek fd offset whence =>
    have hread : ∀ ram, BytesAt ram client.rfscBuffer (packet [.r rfsOpLseek, .L result]) →
        remotefsLseekReadResponse ram client.rfscBuffer = (.ok, result) := by
      intro ram hbytes
      have hvalues : eluarpcGenRead ram client.rfscBuffer [.r rfsOpLseek, .L] = (.ok, _) :=
        genRead_of_packet hresponse hbytes rfl rfl
      rw [remotefsLseekReadResponse, hvalues]
      rfl
    obtain ⟨ram, -, hcalled⟩ := rfsch_packet _ _ _ hrequest hresponse (fun _ _ ↦ rfl) hinput hexchange
      hread
    exact ⟨_, hcalled, rfl, fun _ hbuf ↦ by cases hbuf⟩
  | close fd =>
    have hread : ∀ ram, BytesAt ram client.rfscBuffer (packet [.r rfsOpClose, .i result]) →
        remotefsCloseReadResponse ram client.rfscBuffer = (.ok, result) := by
      intro ram hbytes
      have hvalues : eluarpcGenRead ram client.rfscBuffer [.r rfsOpClose, .i] = (.ok, _) :=
        genRead_of_packet hresponse hbytes rfl rfl
      rw [remotefsCloseReadResponse, hvalues]
      rfl
    obtain ⟨ram, -, hcalled⟩ := rfsch_packet _ _ _ hrequest hresponse (fun _ _ ↦ rfl) hinput hexchange
      hread
    exact ⟨_, hcalled, rfl, fun _ hbuf ↦ by cases hbuf⟩

end Client

/-! ### Failed reads -/

section FailedReads

/-- The letters of the response to a failed read, as far as the end marker leaves them. -/
def failedLetters : List UInt8 := [eluarpcOpResMod ||| rfsOpRead, typePtr, typeInt32, 0xFF, 0xFF, 0xFF]

/-- The response to a failed read. -/
def failedResponse : List UInt8 :=
  packetSize 22 ++ (typeStart :: typeInt32 :: bytes32 packetSig ++
    (failedLetters ++ typeEnd :: typeInt32 :: bytes32 (~~~packetSig)))

/-- A letter whose first byte is that of a block is a block. -/
theorem length_encode_of_typePtr {item : WriteItem} {rest : List UInt8} (hproper : item.Proper)
    (hfirst : item.encode = typePtr :: rest) : 6 ≤ item.encode.length := by
  cases item with
  | r id =>
    have hsame := (List.cons.inj hfirst).1
    exact absurd hsame.symm (resMod_or_ne hproper (by decide))
  | p src srclen =>
    rw [WriteItem.encode, List.length_append]
    exact Nat.le_add_right 6 _
  | _ => exact absurd (List.cons.inj hfirst).1 (by decide)

/-- A letter whose first byte is that of a response has no other bytes. -/
theorem encode_of_resMod {item : WriteItem} {rest : List UInt8}
    (hfirst : item.encode = (eluarpcOpResMod ||| rfsOpRead) :: rest) : rest = [] := by
  cases item with
  | r id => exact (List.cons.inj hfirst).2.symm
  | _ => exact absurd (List.cons.inj hfirst).1 (by decide)

/-- Every letter has a first byte. -/
theorem encode_ne_nil (item : WriteItem) : item.encode ≠ [] := by
  cases item <;> exact List.cons_ne_nil _ _

/-- The first letter of a run of letters that is not empty. -/
theorem encodeAll_eq_cons {fmt : List WriteItem} {byte : UInt8} {bytes : List UInt8}
    (hsame : encodeAll fmt = byte :: bytes) :
    ∃ item rest tail, fmt = item :: rest ∧ item.encode = byte :: tail ∧
      bytes = tail ++ encodeAll rest := by
  cases fmt with
  | nil => cases hsame
  | cons item rest =>
    obtain ⟨first, tail, hencode⟩ := List.exists_cons_of_ne_nil (encode_ne_nil item)
    have hsplit : encodeAll (item :: rest) = item.encode ++ encodeAll rest := rfl
    rw [hsplit, hencode, List.cons_append] at hsame
    obtain ⟨rfl, rfl⟩ := List.cons.inj hsame
    exact ⟨item, rest, tail, rfl, hencode, rfl⟩

/-- No letters are encoded like this. -/
theorem encodeAll_ne_failedLetters {fmt : List WriteItem} (hproper : ∀ item ∈ fmt, item.Proper) :
    encodeAll fmt ≠ failedLetters := by
  intro hsame
  obtain ⟨first, rest, tail, rfl, hfirst, hrest⟩ := encodeAll_eq_cons hsame
  obtain rfl := encode_of_resMod hfirst
  obtain ⟨second, last, other, rfl, hsecond, hlast⟩ := encodeAll_eq_cons hrest.symm
  have hblock := length_encode_of_typePtr (hproper second (by simp)) hsecond
  have hshort := congrArg List.length hlast
  rw [hsecond, List.length_cons] at hblock
  rw [List.length_append] at hshort
  change 4 = _ at hshort
  omega

/-- The response to a failed read is no packet. -/
theorem not_wellFormed_failedResponse : ¬ WellFormed failedResponse := by
  rintro ⟨fmt, hpacket, hsame⟩
  rw [failedResponse, packet] at hsame
  obtain ⟨-, hbody⟩ := List.append_inj hsame rfl
  rw [packetBody] at hbody
  have hletters := List.append_cancel_right (List.append_cancel_left hbody)
  exact encodeAll_ne_failedLetters hpacket.proper hletters.symm

/-- A length that is an error moves the end marker in front of the block. -/
theorem genWrite_failed (ram : Ram) (addr : Addr) :
    BytesAt (eluarpcGenWrite ram addr [.r rfsOpRead, .p none (-1 : Int32).toUInt32]) addr
      failedResponse := by
  have hheader : eluarpcWriteU32 (((eluarpcStartPacket ⟨ram, addr⟩).put
      (eluarpcOpResMod ||| rfsOpRead)).put typePtr) (-1 : Int32).toUInt32 =
        Cursor.putAll ⟨ram, addr.plus eluarpcStartOffset⟩
          ((typeStart :: typeInt32 :: bytes32 packetSig ++ failedLetters) ++ [0xFF]) := by
    rw [eluarpcStartPacket, eluarpcWriteU32_eq, eluarpcWriteU32_eq, ← putAll_cons, ← putAll_cons,
      ← putAll_cons, ← putAll_append]
    rfl
  have hwrite : eluarpcGenWrite ram addr [.r rfsOpRead, .p none (-1 : Int32).toUInt32] =
      (eluarpcEndPacket addr (putBlock (eluarpcWriteU32 (((eluarpcStartPacket ⟨ram, addr⟩).put
        (eluarpcOpResMod ||| rfsOpRead)).put typePtr) (-1 : Int32).toUInt32) none
          (-1 : Int32).toUInt32.toNat)).ram := rfl
  have hlength : (typeStart :: typeInt32 :: bytes32 packetSig ++ failedLetters).length = 12 := rfl
  have hresponse : failedResponse = packetSize 22 ++ ((typeStart :: typeInt32 :: bytes32 packetSig ++
      failedLetters) ++ typeEnd :: typeInt32 :: bytes32 (~~~packetSig)) := by
    rw [failedResponse, List.append_assoc]
  rw [hwrite, hheader, hresponse]
  generalize typeStart :: typeInt32 :: bytes32 packetSig ++ failedLetters = front at hlength ⊢
  -- the cursor is one byte in front of the block
  have haddr : ((addr.plus eluarpcStartOffset).plus (front ++ [0xFF]).length).plus
      (-1 : Int32).toUInt32.toNat = addr.plus 16 := by
    have herror : (-1 : Int32).toUInt32.toNat = 2 ^ 32 - 1 := by decide
    rw [List.length_append, hlength, herror, eluarpcStartOffset, List.length_singleton]
    unfold Addr.plus
    bv_omega
  have hend : ∀ cursor : Cursor, eluarpcWriteU32 (cursor.put typeEnd) (~~~packetSig) =
      cursor.putAll (typeEnd :: typeInt32 :: bytes32 (~~~packetSig)) := fun cursor ↦ by
    rw [eluarpcWriteU32_eq, ← putAll_cons]
  have hsix : (typeEnd :: typeInt32 :: bytes32 (~~~packetSig)).length = 6 := rfl
  generalize typeEnd :: typeInt32 :: bytes32 (~~~packetSig) = finish at hend hsix ⊢
  have hfront : BytesAt (Cursor.putAll ⟨ram, addr.plus eluarpcStartOffset⟩
      (front ++ [0xFF])).ram (addr.plus eluarpcStartOffset) front := by
    have hall := @bytesAt_putAll ⟨ram, addr.plus eluarpcStartOffset⟩ (front ++ [0xFF])
      (by rw [List.length_append, hlength]; decide)
    exact (bytesAt_append.mp hall).1
  generalize hcursor : Cursor.putAll ⟨ram, addr.plus eluarpcStartOffset⟩ (front ++ [0xFF]) =
    cursor at hfront ⊢
  have hplace : cursor.addr.plus (-1 : Int32).toUInt32.toNat = addr.plus 16 := by
    rw [← haddr, ← hcursor, addr_putAll]
  rw [putBlock, hplace, eluarpcEndPacket]
  simp only [hend, addr_putAll]
  have hsize : ((addr.plus 16).plus finish.length - addr).toNat = 22 := by
    rw [hsix, Addr.plus_plus, Addr.sub_plus addr (by decide)]
  rw [hsize]
  generalize hram : (Cursor.putAll ⟨cursor.ram, addr.plus 16⟩ finish).ram = written
  have hpacket : eluarpcWriteU16 (Cursor.put ⟨written, addr⟩ typePktSize) (UInt16.ofNat 22) =
      Cursor.putAll ⟨written, addr⟩ (packetSize 22) := rfl
  have hfour : (packetSize 22).length = 4 := rfl
  have hbehind : ∀ {start count : ℕ} {bytes : List UInt8}, bytes.length = count → 4 ≤ start →
      start + count ≤ 22 → BytesAt written (addr.plus start) bytes →
        BytesAt (Cursor.putAll ⟨written, addr⟩ (packetSize 22)).ram (addr.plus start) bytes := by
    intro start count bytes hcount hstart hlast hbytes
    refine hbytes.congr fun index hindex ↦ putAll_outside ?_
    rw [Addr.plus_plus, Addr.sub_plus addr (by omega), hfour]
    omega
  rw [hpacket, bytesAt_append, bytesAt_append]
  refine ⟨bytesAt_putAll (by rw [hfour]; decide), hbehind hlength (by decide) (by decide) ?_, ?_⟩
  · rw [← hram]
    refine hfront.congr fun index hindex ↦ putAll_outside ?_
    rw [hlength] at hindex
    change finish.length ≤ (((addr.plus eluarpcStartOffset).plus index) - addr.plus 16).toNat
    rw [hsix, eluarpcStartOffset]
    unfold Addr.plus
    bv_omega
  · have hplus : (addr.plus (packetSize 22).length).plus front.length = addr.plus 16 := by
      rw [hfour, hlength, Addr.plus_plus]
    rw [hplus]
    refine hbehind hsix (by decide) (by decide) ?_
    rw [← hram]
    exact bytesAt_putAll (by rw [hsix]; decide)

/-- A failed read is answered with something that is no packet. -/
theorem serverTurn_failed {Host : Type} {posix : Posix Host} {config : ServerConfig} {fuel : ℕ}
    (server : Server Host) {fd : Int32} {count : UInt32}
    (hrequest : ProperPacket [.o rfsOpRead, .i fd, .l count])
    (hfailed : (posix.read server.host fd count).1 = none) :
    ∃ after, serverTurn posix config fuel server (packet [.o rfsOpRead, .i fd, .l count]) =
      some (failedResponse, after) := by
  have hreceived := rfschReceive_packet hrequest server.ram config.rfsBuffer []
  rw [List.append_nil] at hreceived
  have hstands : BytesAt (Cursor.putAll ⟨server.ram, config.rfsBuffer⟩
      (packet [.o rfsOpRead, .i fd, .l count])).ram config.rfsBuffer
        (packet [.o rfsOpRead, .i fd, .l count]) := bytesAt_putAll (Nat.le_of_lt hrequest.length_lt)
  generalize hram : (Cursor.putAll ⟨server.ram, config.rfsBuffer⟩
    (packet [.o rfsOpRead, .i fd, .l count])).ram = ram at hreceived hstands
  have hread : eluarpcGenRead ram config.rfsBuffer [.o rfsOpRead, .i, .l] = (.ok, _) :=
    genRead_of_packet hrequest hstands rfl rfl
  have hos : osRead posix server.host fd count =
      (-1, [], (posix.read server.host fd count).2) := by
    have hpair : posix.read server.host fd count = (none, (posix.read server.host fd count).2) :=
      Prod.ext hfailed rfl
    rw [osRead, hpair]
  have hexecuted : serverExecuteRequest posix config ⟨ram, server.host⟩ fuel =
      some (.ok, ⟨eluarpcGenWrite ram config.rfsBuffer
        [.r rfsOpRead, .p none (-1 : Int32).toUInt32], (posix.read server.host fd count).2⟩) := by
    refine (serverExecuteRequest_eq hstands).trans ?_
    change serverRead posix config ⟨ram, server.host⟩ = _
    rw [serverRead, remotefsReadReadRequest, hread]
    change some (ServerStatus.ok, (⟨remotefsReadWriteResponse (Cursor.putAll ⟨ram,
      config.rfsBuffer.plus eluarpcReadBufOffset⟩ (osRead posix server.host fd count).2.1).ram
        config.rfsBuffer (osRead posix server.host fd count).1.toUInt32,
          (osRead posix server.host fd count).2.2⟩ : Server Host)) = _
    rw [hos]
    rfl
  have hresponse := genWrite_failed ram config.rfsBuffer
  have hsent : serSendResponsePacket (eluarpcGenWrite ram config.rfsBuffer
      [.r rfsOpRead, .p none (-1 : Int32).toUInt32]) config.rfsBuffer = failedResponse := by
    have hsize := getPacketSize_eq (bytesAt_append.mp hresponse).1
    rw [serSendResponsePacket, hsize]
    exact hresponse.loadBytes_eq
  refine ⟨⟨eluarpcGenWrite ram config.rfsBuffer [.r rfsOpRead, .p none (-1 : Int32).toUInt32],
    (posix.read server.host fd count).2⟩, ?_⟩
  simp only [serverTurn, serReadRequestPacket, hreceived, Option.bind_eq_bind, Option.bind_some,
    hexecuted, Option.pure_def, hsent]

end FailedReads

/-! ### When calls are carried out -/

section Calls

variable {Host : Type} {posix : Posix Host} {client : ClientConfig} {config : ServerConfig}
  {fuel : ℕ} {server : Server Host} {call : FileCall}

/-- Whatever the client makes of the response, it has had one exchange. -/
theorem rfsch_remote {State Result : Type} {transport : Transport State} {session after : Session State}
    {request : List WriteItem} {writeRequest : Ram → Addr → Ram}
    {readResponse : Ram → Addr → EluarpcStatus × Result} {failure result : Result}
    (hrequest : ProperPacket request)
    (hwrite : ∀ ram p, writeRequest ram p = eluarpcGenWrite ram p request)
    (hinput : session.input = []) {received : List UInt8} {remote : State}
    (hexchange : transport.exchange session.remote (packet request) = some (received, remote))
    (hcalled : rfsch client transport session writeRequest readResponse failure =
      some (result, after)) : after.remote = remote := by
  rw [rfsch_eq hrequest hwrite hinput hexchange] at hcalled
  obtain ⟨-, rfl⟩ := Prod.mk.inj (Option.some.inj hcalled)
  rfl

/-- The server's host fails a read: what comes back is no packet. -/
theorem not_callMeets_of_failed {fd : Int32} {buf : Addr} {count : UInt32} {ram : Ram}
    {clientBufferSize : ℕ} (hfits : (FileCall.read fd buf count).Fits clientBufferSize)
    (hfailed : (posix.read server.host fd count).1 = none) :
    ¬ CallMeets posix client config fuel ram server (.read fd buf count) := by
  rintro ⟨result, bytes, host, after, -, hcalled, -, -, hwire⟩
  have hrequest := @FileCall.request_proper client _ _ hfits
  obtain ⟨last, hturn⟩ := @serverTurn_failed _ posix config fuel server fd count hrequest hfailed
  have hexchange := @recording_exchange _ (serverTransport posix config fuel) _ _ [] _ _ hturn
  rw [clientCall, rfscRead] at hcalled
  obtain ⟨called, hrfsch, hrest⟩ := Option.bind_eq_some_iff.mp hcalled
  have hremote := rfsch_remote hrequest (fun _ _ ↦ rfl) rfl hexchange hrfsch
  have hafter : after.remote = called.2.remote := by
    obtain ⟨value, session⟩ := called
    rcases value with - | ⟨resbuf, length⟩
    · obtain ⟨-, rfl⟩ := Prod.mk.inj (Option.some.inj hrest)
      rfl
    · obtain ⟨-, rfl⟩ := Prod.mk.inj (Option.some.inj hrest)
      rfl
  rw [hafter, hremote] at hwire
  exact not_wellFormed_failedResponse (hwire failedResponse (by simp))

/-- A call gives the result of the server's call of the operating system, its data arrives, and
packets are on the wire, exactly if the read of the host does not fail and the full name fits. -/
theorem callMeets_iff (posix : Posix Host) (client : ClientConfig) (config : ServerConfig)
    (fuel : ℕ) (ram : Ram) (server : Server Host) (call : FileCall) (clientBufferSize : ℕ)
    (hfits : call.Fits clientBufferSize) :
    CallMeets posix client config fuel ram server call ↔
      call.Carried posix config server.host := by
  constructor
  · intro hmeets
    cases call with
    | «open» pathname flags mode =>
      obtain ⟨result, bytes, host, after, hos, -⟩ := hmeets
      obtain ⟨fullname, hfullname, -⟩ := Option.bind_eq_some_iff.mp hos
      exact Option.isSome_iff_exists.mpr ⟨fullname, hfullname⟩
    | read fd buf count =>
      by_contra hfailed
      exact not_callMeets_of_failed hfits (Option.not_isSome_iff_eq_none.mp hfailed) hmeets
    | _ => trivial
  · intro hcarried
    have hrequest := @FileCall.request_proper client _ _ hfits
    obtain ⟨result, bytes, host, last, hos, hresult, hresponse, hturn⟩ :=
      @serverTurn_call Host posix client config fuel call clientBufferSize server hfits hcarried
    have hexchange := @recording_exchange _ (serverTransport posix config fuel) _ _ [] _ _ hturn
    obtain ⟨after, hcalled, hremote, hdata⟩ := @clientCall_eq _ client
      (recording (serverTransport posix config fuel)) ⟨ram, [], server, []⟩ call result bytes _
      hrequest hresponse rfl hexchange hresult
    refine ⟨result, bytes, host, after, hos, hcalled, ?_, hdata, ?_⟩
    · rw [hremote]
    · rw [hremote]
      simp only [List.nil_append, List.forall_mem_cons]
      exact ⟨⟨_, hrequest, rfl⟩, ⟨_, hresponse, rfl⟩, List.forall_mem_nil _⟩

/-- A read of three bytes. -/
theorem callMeets_read :
    ∃ (posix : Posix Unit) (client : ClientConfig) (config : ServerConfig) (ram : Ram)
      (server : Server Unit), (posix.read () 3 8).1 = some [1, 2, 3] ∧
        CallMeets posix client config 0 ram server (.read 3 0x100 8) := by
  refine ⟨⟨fun _ _ _ _ ↦ (3, ()), fun _ _ _ ↦ (0, ()), fun _ _ count ↦
      (some (([1, 2, 3] : List UInt8).take count.toNat), ()), fun _ _ ↦ (0, ()),
      fun _ _ _ _ ↦ (0, ()), fun _ _ ↦ (1, ()), fun _ _ ↦ (none, ()), fun _ _ ↦ (0, ()), ?_⟩,
    ⟨0x1000, rfsOpenFlags, rfsLseek⟩, ⟨0x1000, [0x2F], rfsOpenFlags, rfsLseek, 0, 8, by decide⟩,
    fun _ ↦ 0,
    ⟨fun _ ↦ 0, ()⟩, rfl, ?_⟩
  · rintro _ _ count bytes hbytes
    obtain rfl := Option.some.inj hbytes
    exact List.length_take_le _ _
  · refine (callMeets_iff _ _ _ _ _ _ _ 512 ?_).mpr rfl
    exact ⟨by decide, by decide⟩

/-- A read that the host does not carry out. -/
theorem not_callMeets_failed_read :
    ∃ (posix : Posix Unit) (client : ClientConfig) (config : ServerConfig) (ram : Ram)
      (server : Server Unit), (FileCall.read 3 0x100 8).Fits 512 ∧
        ¬ CallMeets posix client config 0 ram server (.read 3 0x100 8) := by
  have hfits : (FileCall.read 3 0x100 8).Fits 512 := ⟨by decide, by decide⟩
  refine ⟨⟨fun _ _ _ _ ↦ (3, ()), fun _ _ _ ↦ (0, ()), fun _ _ _ ↦ (none, ()), fun _ _ ↦ (0, ()),
      fun _ _ _ _ ↦ (0, ()), fun _ _ ↦ (1, ()), fun _ _ ↦ (none, ()), fun _ _ ↦ (0, ()), ?_⟩,
    ⟨0x1000, rfsOpenFlags, rfsLseek⟩, ⟨0x1000, [0x2F], rfsOpenFlags, rfsLseek, 0, 8, by decide⟩,
    fun _ ↦ 0,
    ⟨fun _ ↦ 0, ()⟩, hfits, not_callMeets_of_failed hfits rfl⟩
  rintro _ _ _ _ hbytes
  cases hbytes

end Calls

end Elua.Rfs
