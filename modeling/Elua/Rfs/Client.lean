import Elua.Rfs.Codec

/-!
# The client of the remote file system

The code of `client.c`, with the translations of `elua_os_io.c`. The client writes a request into
its buffer, drops what has arrived before, sends the request, and reads the response into the same
buffer. A `Transport` is what is at the other end: it takes a request and gives the bytes that
arrive at the client. It may give nothing, if the other end has no defined behaviour. -/

set_option autoImplicit false
set_option relaxedAutoImplicit false

namespace Elua.Rfs

open Foundation Rpc

/-! ### Flags -/

/-- The `O_` flags of a system. -/
structure OpenFlags where
  append : UInt32
  creat : UInt32
  excl : UInt32
  trunc : UInt32
  sync : UInt32
  rdonly : UInt32
  wronly : UInt32
  rdwr : UInt32

/-- The `RFS_OPEN_FLAG_` flags. -/
def rfsOpenFlags : OpenFlags := ⟨0x01, 0x02, 0x04, 0x08, 0x10, 0x20, 0x40, 0x80⟩

/-- The `SEEK_` constants of a system. -/
structure SeekModes where
  set : Int32
  cur : Int32
  «end» : Int32

/-- `RFS_LSEEK_SET`, `RFS_LSEEK_CUR` and `RFS_LSEEK_END`. -/
def rfsLseek : SeekModes := ⟨1, 2, 3⟩

/-- `eluarpc_replace_flag`. -/
def eluarpcReplaceFlag (val origflag newflag : UInt32) : UInt32 :=
  if val &&& origflag ≠ 0 then newflag else 0

/-- The flags of one system as flags of another. -/
def replaceFlags (source target : OpenFlags) (flags : UInt32) : UInt32 :=
  eluarpcReplaceFlag flags source.append target.append |||
    eluarpcReplaceFlag flags source.creat target.creat |||
    eluarpcReplaceFlag flags source.excl target.excl |||
    eluarpcReplaceFlag flags source.trunc target.trunc |||
    eluarpcReplaceFlag flags source.sync target.sync |||
    eluarpcReplaceFlag flags source.rdonly target.rdonly |||
    eluarpcReplaceFlag flags source.wronly target.wronly |||
    eluarpcReplaceFlag flags source.rdwr target.rdwr

/-- `os_open_sys_flags_to_rfs_flags`. -/
def osOpenSysFlagsToRfsFlags (system : OpenFlags) (sysflags : Int32) : UInt32 :=
  replaceFlags system rfsOpenFlags sysflags.toUInt32

/-- `os_lseek_sys_whence_to_rfs_whence`. -/
def osLseekSysWhenceToRfsWhence (system : SeekModes) (syswhence : Int32) : Int32 :=
  if syswhence = system.set then rfsLseek.set
  else if syswhence = system.cur then rfsLseek.cur
  else if syswhence = system.end then rfsLseek.end
  else 0

/-! ### Requests and responses -/

/-- What is at the other end, with its state: the bytes that arrive after a request was sent. -/
structure Transport (State : Type) where
  exchange : State → List UInt8 → Option (List UInt8 × State)

/-- The client: the address of its buffer and the constants of its system. -/
structure ClientConfig where
  rfscBuffer : Addr
  openFlags : OpenFlags
  seekModes : SeekModes

/-- The memory of the client, the bytes that have arrived, and the other end. -/
structure Session (State : Type) where
  ram : Ram
  input : List UInt8
  remote : State

/-- `CLIENT_OK` and `CLIENT_ERR`. -/
inductive ClientStatus
  | ok
  | err
  deriving DecidableEq, Repr

/-- `rfs_recv`: how many of the bytes have arrived, the memory with them, and what is left. -/
def rfsRecv (ram : Ram) (p : Addr) (size : ℕ) (input : List UInt8) : ℕ × Ram × List UInt8 :=
  ((input.take size).length, (Cursor.putAll ⟨ram, p⟩ (input.take size)).ram, input.drop size)

/-- `rfsch_send_request_read_response`: empty the receive buffer. -/
def rfschEmpty (ram : Ram) (buffer : Addr) : List UInt8 → Ram
  | [] => ram
  | byte :: input => rfschEmpty (Function.update ram buffer byte) buffer input

/-- `rfsch_send_request_read_response`: the request that is sent. -/
def rfschSend (ram : Ram) (buffer : Addr) : Option (List UInt8) :=
  match eluarpcGetPacketSize ram buffer with
  | (.err, _) => none
  | (.ok, temp16) => some (loadBytes ram buffer temp16.toNat)

/-- `rfsch_send_request_read_response`: get the response, first the length, then the rest of the
data. -/
def rfschReceive (ram : Ram) (buffer : Addr) (input : List UInt8) :
    ClientStatus × Ram × List UInt8 :=
  let (readbytes, ram, input) := rfsRecv ram buffer eluarpcStartOffset input
  if readbytes ≠ eluarpcStartOffset then (.err, ram, input)
  else
    match eluarpcGetPacketSize ram buffer with
    | (.err, _) => (.err, ram, input)
    | (.ok, temp16) =>
      let rest := (temp16.toUInt32 - UInt32.ofNat eluarpcStartOffset).toNat
      let (readbytes, ram, input) := rfsRecv ram (buffer.plus eluarpcStartOffset) rest input
      if readbytes ≠ rest then (.err, ram, input) else (.ok, ram, input)

/-- `rfsch_send_request_read_response`. -/
def rfschSendRequestReadResponse {State : Type} (config : ClientConfig)
    (transport : Transport State) (session : Session State) :
    Option (ClientStatus × Session State) :=
  let ram := rfschEmpty session.ram config.rfscBuffer session.input
  match rfschSend ram config.rfscBuffer with
  | none => some (.err, ⟨ram, [], session.remote⟩)
  | some request => do
    let (response, remote) ← transport.exchange session.remote request
    let (status, ram, input) := rfschReceive ram config.rfscBuffer response
    pure (status, ⟨ram, input, remote⟩)

/-! ### Calls -/

section Calls

variable {State : Type} (config : ClientConfig) (transport : Transport State)
  (session : Session State)

/-- The steps that every call has in common: make the request, send it and get the response, and
interpret the response. -/
def rfsch {Result : Type} (writeRequest : Ram → Addr → Ram)
    (readResponse : Ram → Addr → EluarpcStatus × Result) (failure : Result) :
    Option (Result × Session State) := do
  let ram := writeRequest session.ram config.rfscBuffer
  let (status, after) ← rfschSendRequestReadResponse config transport { session with ram := ram }
  if status = ClientStatus.err then pure (failure, after)
  else
    match readResponse after.ram config.rfscBuffer with
    | (.err, _) => pure (failure, after)
    | (.ok, result) => pure (result, after)

def rfscOpen (pathname : CString) (flags mode : Int32) : Option (Int32 × Session State) :=
  rfsch config transport session
    (fun ram p ↦ remotefsOpenWriteRequest ram p pathname
      (osOpenSysFlagsToRfsFlags config.openFlags flags).toInt32 mode)
    remotefsOpenReadResponse (-1)

def rfscWrite (fd : Int32) (buf : Option (List UInt8)) (count : UInt32) :
    Option (Int32 × Session State) :=
  rfsch config transport session (fun ram p ↦ remotefsWriteWriteRequest ram p fd buf count)
    (fun ram p ↦ ((remotefsWriteReadResponse ram p).1, (remotefsWriteReadResponse ram p).2.toInt32))
    (-1)

/-- `rfsc_read`, with the copy of the data to `buf`. -/
def rfscRead (fd : Int32) (buf : Addr) (count : UInt32) : Option (Int32 × Session State) := do
  let (result, after) ← rfsch config transport session
    (fun ram p ↦ remotefsReadWriteRequest ram p fd count)
    (fun ram p ↦ ((remotefsReadReadResponse ram p).1, some (remotefsReadReadResponse ram p).2)) none
  match result with
  | none => pure (-1, after)
  | some (resbuf, count) =>
    -- without data there is no block to copy
    let data := loadBytes after.ram (resbuf.getD 0) count.toNat
    pure (count.toInt32, { after with ram := (Cursor.putAll ⟨after.ram, buf⟩ data).ram })

def rfscLseek (fd offset whence : Int32) : Option (Int32 × Session State) :=
  rfsch config transport session
    (fun ram p ↦ remotefsLseekWriteRequest ram p fd offset
      (osLseekSysWhenceToRfsWhence config.seekModes whence))
    remotefsLseekReadResponse (-1)

def rfscClose (fd : Int32) : Option (Int32 × Session State) :=
  rfsch config transport session (fun ram p ↦ remotefsCloseWriteRequest ram p fd)
    remotefsCloseReadResponse (-1)

def rfscOpendir (name : CString) : Option (UInt32 × Session State) :=
  rfsch config transport session (fun ram p ↦ remotefsOpendirWriteRequest ram p name)
    remotefsOpendirReadResponse 0

/-- `rfsc_readdir`: the name, the size and the time, none at the end or after an error. -/
def rfscReaddir (d : UInt32) : Option (Option (Addr × UInt32 × UInt32) × Session State) :=
  rfsch config transport session (fun ram p ↦ remotefsReaddirWriteRequest ram p d)
    (fun ram p ↦
      let (status, name, size, ftime) := remotefsReaddirReadResponse ram p
      (status, name.map fun addr ↦ (addr, size, ftime))) none

def rfscClosedir (d : UInt32) : Option (Int32 × Session State) :=
  rfsch config transport session (fun ram p ↦ remotefsClosedirWriteRequest ram p d)
    remotefsClosedirReadResponse (-1)

end Calls

end Elua.Rfs
