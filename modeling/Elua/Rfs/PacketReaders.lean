import Elua.Foundation.TransitionSystem
import Elua.Rfs.Server
import Elua.Shell.Storage

/-!
# Where packets of the remote file system are stored

The readers of `rfs_transports.c`, that of the client, and `server_read`, with a record of what they
store into their buffers. A reader takes the size of a packet from its first four bytes, and reads
the rest behind them. The size is not compared with anything.

The three transports of the server read into one buffer. A run of `readerSystem` is any sequence of
passes of the readers, with what arrives in each of them, and of requests that are executed. -/

set_option autoImplicit false
set_option relaxedAutoImplicit false

namespace Elua.Rfs

open Foundation Rpc Shell

/-! ### The code -/

/-- Bytes that are read into a buffer: the size of the buffer as it is declared, the index from
which on they are stored, the length that is computed for them, and how many are stored. -/
structure Access where
  capacity : ℕ
  offset : ℤ
  length : ℤ
  stored : ℕ
  deriving DecidableEq

/-- The length is not negative, and every index that is stored to is inside the buffer. -/
def Access.Inside (access : Access) : Prop :=
  0 ≤ access.length ∧
    ∀ index : ℤ, access.offset ≤ index → index < access.offset + access.stored →
      0 ≤ index ∧ index < access.capacity

/-- What `ser_read_request_packet` stores in a pass, or the client when it gets the response: first
the length, and then the rest of the data. The bytes are read as `rfschReceive` does. -/
def receiveAccesses (capacity : ℕ) (ram : Ram) (buffer : Addr) (input : List UInt8) :
    List Access :=
  let (readbytes, ram, input) := rfsRecv ram buffer eluarpcStartOffset input
  let header : Access := ⟨capacity, 0, eluarpcStartOffset, readbytes⟩
  if readbytes ≠ eluarpcStartOffset then [header]
  else
    match eluarpcGetPacketSize ram buffer with
    | (.err, _) => [header]
    | (.ok, temp16) =>
      let length : ℤ := temp16.toNat - eluarpcStartOffset
      let (readbytes, _, _) :=
        rfsRecv ram (buffer.plus eluarpcStartOffset) (length % 2 ^ 32).toNat input
      [header, ⟨capacity, eluarpcStartOffset, length, readbytes⟩]

/-- What `rfsch_send_request_read_response` stores: the bytes that it drops are read to the start of
the buffer, up to the call that gets none. There is no response if the request is not sent. -/
def rfschAccesses (build : RfsBuild) (config : ClientConfig) (ram : Ram) (pending : List UInt8)
    (response : Option (List UInt8)) : List Access :=
  let ram := rfschEmpty ram config.rfscBuffer pending
  let dropped := pending.map fun _ ↦ Access.mk (2 ^ build.rfsBufferSize) 0 1 1
  dropped ++ ⟨2 ^ build.rfsBufferSize, 0, 1, 0⟩ ::
    match rfschSend ram config.rfscBuffer, response with
    | some _, some response =>
      receiveAccesses (2 ^ build.rfsBufferSize) ram config.rfscBuffer response
    | _, _ => []

section Server

variable (config : ServerConfig)

/-- `udp_read_helper`, and what the calls of `net_recvfrom` give: a datagram, of which the part that
does not fit is lost, or an error. It waits if there is nothing more. -/
def udpReadHelper (dest : ℤ) (size : UInt32) (ram : Ram) :
    List (Option (List UInt8)) → List Access × Ram × Option (List (Option (List UInt8)))
  | [] => ([], ram, if size = 0 then some [] else none)
  | result :: results =>
    if size = 0 then ([], ram, some (result :: results))
    else
      let data := (result.getD []).take size.toNat
      let readbytes : ℤ := if result = none then -1 else data.length
      let ram := (Cursor.putAll ⟨ram, config.rfsBuffer + BitVec.ofInt 32 dest⟩ data).ram
      let behind := udpReadHelper (dest + readbytes) (size - UInt32.ofInt readbytes) ram results
      (⟨rfsBufferSize, dest, size.toNat, data.length⟩ :: behind.1, behind.2)

/-- A pass of `udp_read_request_packet`. -/
def udpReadRequestPacket (ram : Ram) (results : List (Option (List UInt8))) : List Access × Ram :=
  let (header, ram, rest) :=
    udpReadHelper config 0 (UInt32.ofNat eluarpcStartOffset) ram results
  match rest with
  | none => (header, ram)
  | some rest =>
    match eluarpcGetPacketSize ram config.rfsBuffer with
    | (.err, _) => (header, ram)
    | (.ok, temp16) =>
      let length : ℤ := temp16.toNat - eluarpcStartOffset
      let (data, ram, _) := udpReadHelper config eluarpcStartOffset (UInt32.ofInt length) ram rest
      (header ++ ⟨rfsBufferSize, eluarpcStartOffset, length, 0⟩ :: data, ram)

/-- `MEM_STATE_READ_LENGTH`, `MEM_STATE_READ_REQUEST` and `MEM_STATE_REQUEST_DONE`. -/
inductive MemState
  | readLength
  | readRequest
  | requestDone
  deriving DecidableEq

/-- The variables of the memory transport. -/
structure MemReader where
  readLen : ℤ
  expectedLen : ℤ
  readState : MemState
  responseFlag : Bool

/-- `rfs_mem_start_request`. -/
def rfsMemStartRequest : MemReader := ⟨0, 0, .readLength, false⟩

/-- `rfs_mem_read_request_packet`: its result, the variables and the memory, and what it stores. -/
def rfsMemReadRequestPacket (ram : Ram) (mem : MemReader) (c : Option UInt8) :
    Int32 × MemReader × Ram × List Access :=
  match c with
  | none => (0, rfsMemStartRequest, ram, [])
  | some c =>
    match mem.readState with
    | .readLength =>
      let ram := Function.update ram (config.rfsBuffer + BitVec.ofInt 32 mem.readLen) c
      let store : Access := ⟨rfsBufferSize, mem.readLen, 1, 1⟩
      let mem := { mem with readLen := mem.readLen + 1 }
      if mem.readLen = (eluarpcStartOffset : ℤ) then
        match eluarpcGetPacketSize ram config.rfsBuffer with
        | (.err, _) => (0, { mem with readLen := 0, readState := .requestDone }, ram, [store])
        | (.ok, temp16) =>
          let length : ℤ := temp16.toNat - eluarpcStartOffset
          (1, { mem with readLen := 0, readState := .readRequest, expectedLen := length }, ram,
            [store, ⟨rfsBufferSize, eluarpcStartOffset, length, 0⟩])
      else (1, mem, ram, [store])
    | .readRequest =>
      let index : ℤ := eluarpcStartOffset + mem.readLen
      let ram := Function.update ram (config.rfsBuffer + BitVec.ofInt 32 index) c
      let mem := { mem with readLen := mem.readLen + 1 }
      let mem := if mem.readLen = mem.expectedLen then
          { mem with readState := .requestDone, responseFlag := true }
        else mem
      (1, mem, ram, [⟨rfsBufferSize, index, 1, 1⟩])
    | .requestDone => (1, mem, ram, [])

/-- What `server_read` asks the host to store, when the request is executed. -/
def serverReadAccesses (ram : Ram) : List Access :=
  match eluarpcGetRequestId ram config.rfsBuffer with
  | (.err, _) => []
  | (.ok, req) =>
    if req = rfsOpRead then
      match remotefsReadReadRequest ram config.rfsBuffer with
      | (.err, _) => []
      | (.ok, _, count) => [⟨rfsBufferSize, eluarpcReadBufOffset, count.toNat, count.toNat⟩]
    else []

end Server

/-! ### Runs -/

/-- The server and the variables of its memory transport, and all that has been stored there and in
the client. -/
structure Readers (Host : Type) where
  server : Server Host
  mem : MemReader
  accesses : List Access

/-- A pass of a reader, with what arrives, or a request that is executed. The memory of the client
is any that holds its request. -/
inductive ReaderEvent
  | serial (request : List UInt8)
  | udp (results : List (Option (List UInt8)))
  | mem (c : Option UInt8)
  | execute (fuel : ℕ)
  | client (ram : Ram) (pending : List UInt8) (response : Option (List UInt8))

section System

variable {Host : Type} (posix : Posix Host) (config : ServerConfig) (build : RfsBuild)
  (client : ClientConfig)

/-- What an event does. -/
def readerStep (readers : Readers Host) : ReaderEvent → Option (Readers Host)
  | .serial request =>
    some { readers with
      server.ram := (rfschReceive readers.server.ram config.rfsBuffer request).2.1
      accesses := readers.accesses ++
        receiveAccesses rfsBufferSize readers.server.ram config.rfsBuffer request }
  | .udp results =>
    let (accesses, ram) := udpReadRequestPacket config readers.server.ram results
    some { readers with server.ram := ram, accesses := readers.accesses ++ accesses }
  | .mem c =>
    let (_, mem, ram, accesses) :=
      rfsMemReadRequestPacket config readers.server.ram readers.mem c
    some ⟨{ readers.server with ram := ram }, mem, readers.accesses ++ accesses⟩
  | .execute fuel => do
    let (_, server) ← serverExecuteRequest posix config readers.server fuel
    pure { readers with
      server := server
      accesses := readers.accesses ++ serverReadAccesses config readers.server.ram }
  | .client ram pending response =>
    some { readers with
      accesses := readers.accesses ++ rfschAccesses build client ram pending response }

/-- The runs of the readers. -/
def readerSystem : TransitionSystem (Readers Host) ReaderEvent :=
  .ofFunction (fun readers ↦ readers.mem = rfsMemStartRequest ∧ readers.accesses = [])
    (readerStep posix config build client)

end System

end Elua.Rfs
