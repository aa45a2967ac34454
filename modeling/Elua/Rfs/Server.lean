import Elua.Rfs.Client

/-!
# The server of the remote file system

The code of `server.c` over the POSIX calls of `os_io_posix.c`, and the turn of the server that
reads a request, executes it and sends the response. The POSIX calls of the host are a parameter,
with the state that they change. The server builds every response in the buffer of the request.

A full name that does not fit into `server_fullname` is written past its end. From there on the
server has no defined behaviour, and a handler gives nothing.
-/

set_option autoImplicit false
set_option relaxedAutoImplicit false

namespace Elua.Rfs

open Foundation Rpc

/-! ### The host -/

/-- An entry of a directory, with its type. -/
structure Dirent where
  dName : CString
  dType : UInt8
  deriving DecidableEq

/-- The calls of the host. A read of at most a number of bytes gives no more, or fails. -/
structure Posix (Host : Type) where
  «open» : Host → List UInt8 → UInt32 → UInt32 → Int32 × Host
  write : Host → Int32 → List UInt8 → Int32 × Host
  read : Host → Int32 → UInt32 → Option (List UInt8) × Host
  close : Host → Int32 → Int32 × Host
  lseek : Host → Int32 → Int32 → Int32 → Int32 × Host
  opendir : Host → List UInt8 → UInt32 × Host
  readdir : Host → UInt32 → Option Dirent × Host
  closedir : Host → UInt32 → Int32 × Host
  read_le : ∀ host fd count bytes, (read host fd count).1 = some bytes → bytes.length ≤ count.toNat

/-- The server: the address of its buffer, the directory it serves, and the constants of the host:
the mode of new files and the type of regular files among them. -/
structure ServerConfig where
  rfsBuffer : Addr
  serverBasedir : List UInt8
  openFlags : OpenFlags
  seekModes : SeekModes
  fileMode : UInt32
  dtReg : UInt8
  dtReg_ne : dtReg ≠ 0

/-- The value of `DT_REG` on Linux is no other type. -/
theorem dtReg_linux_ne : (8 : UInt8) ≠ 0 := by decide

/-- The memory of the server and the state of the host. -/
structure Server (Host : Type) where
  ram : Ram
  host : Host

/-- `SERVER_OK` and `SERVER_ERR`. -/
inductive ServerStatus
  | ok
  | err
  deriving DecidableEq, Repr

/-- `PLATFORM_MAX_FNAME_LEN`. -/
def platformMaxFnameLen : ℕ := 2048

/-- `PLATFORM_PATH_SEPARATOR`. -/
def platformPathSeparator : UInt8 := 0x2F

/-- `RFS_MAX_FNAME_SIZE`. -/
def rfsMaxFnameSize : ℕ := 31

/-- The size of `rfs_buffer`: `MAX_PACKET_SIZE + ELUARPC_WRITE_REQUEST_EXTRA`. -/
def rfsBufferSize : ℕ := 4096 + 29

/-- `ELUARPC_READ_BUF_OFFSET`. -/
def eluarpcReadBufOffset : ℕ := 17

/-! ### The calls of the operating system -/

section OsCalls

variable {Host : Type} (posix : Posix Host) (config : ServerConfig) (host : Host)

def osOpen (pathname : List UInt8) (flags : Int32) : Int32 × Host :=
  posix.open host pathname (replaceFlags rfsOpenFlags config.openFlags flags.toUInt32)
    config.fileMode

def osWrite (fd : Int32) (buf : List UInt8) : Int32 × Host := posix.write host fd buf

/-- `os_read`: the result, and the bytes that were read. -/
def osRead (fd : Int32) (count : UInt32) : Int32 × List UInt8 × Host :=
  match posix.read host fd count with
  | (none, host) => (-1, [], host)
  | (some bytes, host) => ((UInt32.ofNat bytes.length).toInt32, bytes, host)

def osClose (fd : Int32) : Int32 × Host := posix.close host fd

def osLseek (fd offset whence : Int32) : Int32 × Host :=
  if whence = rfsLseek.set then posix.lseek host fd offset config.seekModes.set
  else if whence = rfsLseek.cur then posix.lseek host fd offset config.seekModes.cur
  else if whence = rfsLseek.end then posix.lseek host fd offset config.seekModes.end
  else (-1, host)

/-- `os_opendir`, whose name is never null. -/
def osOpendir (name : List UInt8) : UInt32 × Host := posix.opendir host name

/-- `os_readdir`: the loop over the entries up to the first one of the wanted type. The fuel bounds
the number of entries it skips. -/
def osReaddir (d : UInt32) : ℕ → Host → Option (Option CString × Host)
  | 0, _ => none
  | fuel + 1, host =>
    match posix.readdir host d with
    | (none, host) => some (none, host)
    | (some ent, host) =>
      if ent.dType &&& config.dtReg ≠ 0 then
        some (some ⟨ent.dName.bytes.take rfsMaxFnameSize, fun hzero ↦
          ent.dName.zero_notMem (List.mem_of_mem_take hzero)⟩, host)
      else osReaddir d fuel host

def osClosedir (d : UInt32) : Int32 × Host := posix.closedir host d

end OsCalls

/-! ### Handlers -/

/-- The real name of a file in `server_fullname`, unless it is written past its end or the byte in
front of it is looked at. -/
def serverFullname (config : ServerConfig) (filename : Option (List UInt8)) : Option (List UInt8) :=
  let base := config.serverBasedir.take platformMaxFnameLen
  match filename with
  | none => some base
  | some name =>
    if name = [] then some base
    else if base = [] then none
    else
      let dir := if base.getLast? ≠ some platformPathSeparator then base ++ [platformPathSeparator]
        else base
      let fullname := dir ++ name.take platformMaxFnameLen
      if fullname.length ≤ platformMaxFnameLen then some fullname else none

section Handlers

variable {Host : Type} (posix : Posix Host) (config : ServerConfig) (server : Server Host)

def serverOpen : Option (ServerStatus × Server Host) :=
  match remotefsOpenReadRequest server.ram config.rfsBuffer with
  | (.err, _) => some (.err, server)
  | (.ok, filename, flags, _) => do
    let fullname ← serverFullname config (filename.map (stringAt server.ram))
    let (fd, host) := osOpen posix config server.host fullname flags
    pure (.ok, ⟨remotefsOpenWriteResponse server.ram config.rfsBuffer fd, host⟩)

def serverWrite : Option (ServerStatus × Server Host) :=
  match remotefsWriteReadRequest server.ram config.rfsBuffer with
  | (.err, _) => some (.err, server)
  | (.ok, fd, buf, count) =>
    let bytes := loadBytes server.ram (buf.getD 0) count.toNat
    let (result, host) := osWrite posix server.host fd bytes
    some (.ok, ⟨remotefsWriteWriteResponse server.ram config.rfsBuffer result.toUInt32, host⟩)

def serverRead : Option (ServerStatus × Server Host) :=
  match remotefsReadReadRequest server.ram config.rfsBuffer with
  | (.err, _) => some (.err, server)
  | (.ok, fd, count) =>
    let (result, bytes, host) := osRead posix server.host fd count
    let ram := (Cursor.putAll ⟨server.ram, config.rfsBuffer.plus eluarpcReadBufOffset⟩ bytes).ram
    some (.ok, ⟨remotefsReadWriteResponse ram config.rfsBuffer result.toUInt32, host⟩)

def serverClose : Option (ServerStatus × Server Host) :=
  match remotefsCloseReadRequest server.ram config.rfsBuffer with
  | (.err, _) => some (.err, server)
  | (.ok, fd) =>
    let (result, host) := osClose posix server.host fd
    some (.ok, ⟨remotefsCloseWriteResponse server.ram config.rfsBuffer result, host⟩)

def serverLseek : Option (ServerStatus × Server Host) :=
  match remotefsLseekReadRequest server.ram config.rfsBuffer with
  | (.err, _) => some (.err, server)
  | (.ok, fd, offset, whence) =>
    let (result, host) := osLseek posix config server.host fd offset whence
    some (.ok, ⟨remotefsLseekWriteResponse server.ram config.rfsBuffer result, host⟩)

def serverOpendir : Option (ServerStatus × Server Host) :=
  match remotefsOpendirReadRequest server.ram config.rfsBuffer with
  | (.err, _) => some (.err, server)
  | (.ok, name) => do
    let fullname ← serverFullname config (name.map (stringAt server.ram))
    let (d, host) := osOpendir posix server.host fullname
    pure (.ok, ⟨remotefsOpendirWriteResponse server.ram config.rfsBuffer d, host⟩)

/-- The size of a file of the directory that is served, and the name that is sent: `server_readdir`
opens the file, and takes a descriptor of zero for a failure. -/
def serverFileSize (host : Host) (name : CString) :
    Option (Option CString × UInt32 × Host) := do
  let fullname ← serverFullname config (some name.bytes)
  let (fd, host) := osOpen posix config host fullname rfsOpenFlags.rdonly.toInt32
  if fd ≠ 0 then
    let (fsize, host) := osLseek posix config host fd 0 rfsLseek.end
    let (_, host) := osClose posix host fd
    pure (some name, fsize.toUInt32, host)
  else pure (none, 0, host)

def serverReaddir (fuel : ℕ) : Option (ServerStatus × Server Host) :=
  match remotefsReaddirReadRequest server.ram config.rfsBuffer with
  | (.err, _) => some (.err, server)
  | (.ok, d) => do
    match ← osReaddir posix config d fuel server.host with
    | (none, host) =>
      pure (.ok, ⟨remotefsReaddirWriteResponse server.ram config.rfsBuffer none 0 0, host⟩)
    | (some name, host) =>
      let (sent, fsize, host) ← serverFileSize posix config host name
      pure (.ok, ⟨remotefsReaddirWriteResponse server.ram config.rfsBuffer sent fsize 0, host⟩)

/-- `server_closedir`: the response has the handle, not the result. -/
def serverClosedir : Option (ServerStatus × Server Host) :=
  match remotefsClosedirReadRequest server.ram config.rfsBuffer with
  | (.err, _) => some (.err, server)
  | (.ok, d) =>
    let (_, host) := osClosedir posix server.host d
    some (.ok, ⟨remotefsClosedirWriteResponse server.ram config.rfsBuffer d.toInt32, host⟩)

/-- `server_execute_request`. -/
def serverExecuteRequest (fuel : ℕ) : Option (ServerStatus × Server Host) :=
  match eluarpcGetRequestId server.ram config.rfsBuffer with
  | (.err, _) => some (.err, server)
  | (.ok, req) =>
    if req = rfsOpOpen then serverOpen posix config server
    else if req = rfsOpWrite then serverWrite posix config server
    else if req = rfsOpRead then serverRead posix config server
    else if req = rfsOpClose then serverClose posix config server
    else if req = rfsOpLseek then serverLseek posix config server
    else if req = rfsOpOpendir then serverOpendir posix config server
    else if req = rfsOpReaddir then serverReaddir posix config server fuel
    else if req = rfsOpClosedir then serverClosedir posix config server
    else some (.err, server)

end Handlers

/-! ### Turns -/

/-- `ser_read_request_packet`: the length, then the rest of the data. With fewer bytes it waits for
more. -/
def serReadRequestPacket (ram : Ram) (buffer : Addr) (request : List UInt8) : Option Ram :=
  match rfschReceive ram buffer request with
  | (.err, _) => none
  | (.ok, ram, _) => some ram

/-- `ser_send_response_packet`. -/
def serSendResponsePacket (ram : Ram) (buffer : Addr) : List UInt8 :=
  match eluarpcGetPacketSize ram buffer with
  | (.err, _) => []
  | (.ok, temp16) => loadBytes ram buffer temp16.toNat

/-- One turn of the server: it reads a request, executes it and sends the response. -/
def serverTurn {Host : Type} (posix : Posix Host) (config : ServerConfig) (fuel : ℕ)
    (server : Server Host) (request : List UInt8) : Option (List UInt8 × Server Host) := do
  let ram ← serReadRequestPacket server.ram config.rfsBuffer request
  let (_, after) ← serverExecuteRequest posix config { server with ram := ram } fuel
  pure (serSendResponsePacket after.ram config.rfsBuffer, after)

/-- A transport that neither loses nor alters bytes, with the server at the other end. -/
def serverTransport {Host : Type} (posix : Posix Host) (config : ServerConfig) (fuel : ℕ) :
    Transport (Server Host) :=
  ⟨serverTurn posix config fuel⟩

end Elua.Rfs
