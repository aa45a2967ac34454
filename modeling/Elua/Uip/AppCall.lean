import Elua.Foundation.Overwrite
import Mathlib.Algebra.Group.Nat.Defs
import Mathlib.Data.Int.Basic

/-!
# The uIP application and the calls on a socket

`elua_uip_appcall`, which uIP calls in interrupt context for each event on a connection, and the
foreground calls that share the state of a socket with it. A call prepares this state
(`elua_prep_socket_state`) and waits until it is idle.

The pointer of the socket state is an offset into the buffer of the call, which is raw memory or a
Lua buffer. Which of them it is, the code knows from the field `res` only, which also is where
errors are signalled. A store that takes the one for the other, or that runs past the end of raw
memory, marks the buffer as misused. -/

set_option autoImplicit false
set_option relaxedAutoImplicit false

namespace Elua.Uip

open Foundation

/-! ### The state -/

/-- What the build fixes: `BUILD_CON_TCP`, whether `char` is signed, `UIP_RECEIVE_WINDOW`,
`UIP_CONNS` and the size of the buffer behind `uip_sappdata`. -/
structure Config where
  conTcp : Bool
  charSigned : Bool
  receiveWindow : ℕ
  connections : ℕ
  appdataSize : ℕ

/-- `ELUA_UIP_STATE_IDLE`, `ELUA_UIP_STATE_SEND` and so on. -/
inductive Phase
  | idle
  | send
  | recv
  | recv2
  | connect
  | close
  deriving DecidableEq, Repr

/-- `ELUA_NET_ERR_OK`. -/
def errOk : ℕ := 0

/-- `ELUA_NET_ERR_TIMEDOUT`. -/
def errTimedout : ℕ := 1

/-- `ELUA_NET_ERR_CLOSED`. -/
def errClosed : ℕ := 2

/-- `ELUA_NET_ERR_ABORTED`. -/
def errAborted : ℕ := 3

/-- `ELUA_NET_ERR_OVERFLOW`. -/
def errOverflow : ℕ := 4

/-- `ELUA_NET_NO_LASTCHAR`. -/
def noLastchar : ℤ := -1

/-- `ELUA_NET_TELNET_PORT`. -/
def telnetPort : ℕ := 23

/-- `struct elua_uip_state`. -/
structure SocketState where
  state : Phase
  res : ℕ
  ptr : ℤ
  len : ℤ
  readto : ℤ
  deriving DecidableEq, Repr

/-- The buffer of a call: whether it is a Lua buffer, and what it holds. -/
structure CallBuffer where
  lua : Bool
  bytes : List UInt8
  misused : Bool
  deriving DecidableEq, Repr

/-- An address, as its two words. -/
structure NetIp where
  word0 : ℕ
  word1 : ℕ
  deriving DecidableEq, Repr

/-- What the application uses of `struct uip_conn`, and what it asks of uIP: to close the
connection, and to send data. -/
structure Connection where
  lport : ℕ
  ripaddr : NetIp
  mss : ℕ
  stopped : Bool
  closing : Bool
  sent : List UInt8
  deriving DecidableEq, Repr

/-- `elua_uip_accept_pending_t`. -/
structure Pending where
  acceptRequest : ℕ
  sock : ℕ
  remote : NetIp
  port : ℕ
  deriving DecidableEq, Repr

/-- The static variables: `elua_uip_configured`, `elua_uip_telnet_socket`,
`elua_uip_accept_pending`, and the socket of `elua_net_connecting`. -/
structure Services where
  configured : Bool
  telnetSocket : Option ℕ
  acceptPending : List Pending
  connecting : Option ℕ
  deriving DecidableEq, Repr

/-- The flags of uIP, the received data, and the byte that stands behind this data. -/
structure Event where
  connected : Bool := false
  aborted : Bool := false
  timedout : Bool := false
  closed : Bool := false
  acked : Bool := false
  rexmit : Bool := false
  poll : Bool := false
  newdata : Bool := false
  data : List UInt8 := []
  behind : UInt8 := 0
  deriving DecidableEq, Repr

/-- The event ends a call with an error. -/
def Event.fails (event : Event) : Prop := event.aborted ∨ event.timedout ∨ event.closed

instance (event : Event) : Decidable event.fails :=
  inferInstanceAs (Decidable (event.aborted ∨ event.timedout ∨ event.closed))

/-- What a call of the application works on. -/
structure AppState where
  services : Services
  conn : Connection
  socket : SocketState
  buffer : CallBuffer
  deriving DecidableEq, Repr

/-- `htons`, of a little-endian processor. -/
def htons (word : ℕ) : ℕ := (word % 256) * 256 + word / 256 % 256

/-- The value of a `char`. -/
def charValue (config : Config) (byte : UInt8) : ℤ :=
  if config.charSigned ∧ 128 ≤ byte.toNat then byte.toNat - 256 else byte.toNat

/-- A value that is stored in an `elua_net_size`. -/
def toNetSize (value : ℤ) : ℤ := Int.bmod value (2 ^ 16)

/-! ### Stores -/

/-- Stores to raw memory. -/
def CallBuffer.store (buffer : CallBuffer) (ptr : ℤ) (data : List UInt8) : CallBuffer :=
  if data = [] then buffer
  else if buffer.lua ∨ ptr < 0 ∨ buffer.bytes.length < ptr + data.length then
    { buffer with misused := true }
  else { buffer with bytes := overwrite buffer.bytes ptr.toNat data }

/-- `luaL_addchar` and `luaL_addlstring`. -/
def CallBuffer.add (buffer : CallBuffer) (data : List UInt8) : CallBuffer :=
  if data = [] then buffer
  else if buffer.lua then { buffer with bytes := buffer.bytes ++ data }
  else { buffer with misused := true }

/-- What a store is, depending on the field `res`. -/
def CallBuffer.put (buffer : CallBuffer) (socket : SocketState) (data : List UInt8) : CallBuffer :=
  if socket.res ≠ 0 then buffer.add data else buffer.store socket.ptr data

/-! ### Telnet -/

/-- `TELNET_IAC_CHAR`. -/
def telnetIac : UInt8 := 255

/-- `TELNET_EOF`. -/
def telnetEof : UInt8 := 236

/-- `STD_CTRLZ_CODE`. -/
def ctrlZ : UInt8 := 26

/-- `TELNET_IAC_3B_FIRST` to `TELNET_IAC_3B_LAST`: a control sequence of three bytes. -/
def isThreeBytes (byte : UInt8) : Bool := 251 ≤ byte.toNat && byte.toNat ≤ 254

/-- The loop of `elua_uip_telnet_handle_input`: what it stores of the data, if there is room for a
number of bytes and some bytes of a control sequence are still to skip. -/
def telnetScan (behind : UInt8) : ℕ → ℕ → List UInt8 → List UInt8
  | _, _, [] => []
  | room, skip + 1, _ :: rest => telnetScan behind room skip rest
  | 0, 0, _ :: _ => []
  | room + 1, 0, byte :: rest =>
    if byte ≠ telnetIac then byte :: telnetScan behind room 0 rest
    else if isThreeBytes (rest.headD behind) then telnetScan behind (room + 1) 2 rest
    else if rest.headD behind = telnetEof then ctrlZ :: telnetScan behind room 1 rest
    else telnetScan behind (room + 1) 1 rest

/-- `elua_uip_telnet_handle_input`. -/
def telnetHandleInput (event : Event) (app : AppState) : AppState :=
  let stored := telnetScan event.behind app.socket.len.toNat 0 event.data
  if stored = [] then app
  else
    { app with
      conn := { app.conn with stopped := true }
      socket := { app.socket with
        state := .idle
        res := errOk
        ptr := app.socket.ptr + stored.length
        len := app.socket.len - stored.length }
      buffer := app.buffer.store app.socket.ptr stored }

/-- The bytes `elua_uip_telnet_prep_send` writes. -/
def telnetPrepSend (src : List UInt8) : List UInt8 :=
  src.flatMap fun byte ↦ if byte = 10 then [13, 10] else [byte]

/-! ### The application -/

/-- `uip_stop`. -/
def Connection.stop (conn : Connection) : Connection := { conn with stopped := true }

/-- Records a connection in the first free slot. -/
def recordPending (entry : Pending) : List Pending → Option (List Pending)
  | [] => none
  | slot :: slots =>
    if slot.acceptRequest ≠ 1 then some (entry :: slots)
    else (recordPending entry slots).map (slot :: ·)

/-- A connection is established. -/
def connectedCall (config : Config) (sockno : ℕ) (app : AppState) : AppState :=
  if app.socket.state = .connect ∧ app.services.connecting = some sockno then
    { app with socket := { app.socket with state := .idle }, conn := app.conn.stop }
  else if config.conTcp ∧ app.conn.lport = htons telnetPort then
    if app.services.telnetSocket ≠ none then { app with conn := { app.conn with closing := true } }
    else
      { app with
        services := { app.services with telnetSocket := some sockno }
        conn := app.conn.stop }
  else
    match recordPending ⟨1, sockno, app.conn.ripaddr, htons app.conn.lport⟩
      app.services.acceptPending with
    | none => { app with conn := { app.conn with closing := true } }
    | some slots =>
      { app with
        services := { app.services with acceptPending := slots }
        conn := app.conn.stop }

/-- Re-enables data transfer on the socket. -/
def restartCall (app : AppState) : AppState :=
  { app with
    socket := { app.socket with state := .recv2 }
    conn := { app.conn with stopped := false } }

/-- The socket is the one of the telnet console. -/
def Services.isTelnet (services : Services) (config : Config) (sockno : ℕ) : Bool :=
  config.conTcp && services.telnetSocket == some sockno

/-- Signals an error. -/
def errorCall (config : Config) (sockno : ℕ) (event : Event) (app : AppState) : AppState :=
  { app with
    services := { app.services with
      telnetSocket := if app.services.isTelnet config sockno then none
        else app.services.telnetSocket }
    socket := { app.socket with
      state := .idle
      res := if event.aborted then errAborted else if event.timedout then errTimedout
        else errClosed } }

/-- Counts what has been acknowledged. -/
def ackedSocket (conn : Connection) (socket : SocketState) : SocketState :=
  let minlen := min socket.len conn.mss
  { socket with
    len := socket.len - minlen
    ptr := socket.ptr + minlen
    state := if socket.len - minlen = 0 then .idle else socket.state }

/-- `uip_send`. -/
def uipSend (conn : Connection) (data : List UInt8) (len : ℤ) : Connection :=
  if 0 < len then { conn with sent := data.take len.toNat } else conn

/-- Sends what is left, or its beginning. -/
def transmit (config : Config) (sockno : ℕ) (app : AppState) : AppState :=
  let rest := segment app.buffer.bytes app.socket.ptr.toNat app.socket.len.toNat
  if app.services.isTelnet config sockno then
    { app with
      conn := uipSend app.conn (telnetPrepSend rest)
        (toNetSize (app.socket.len + rest.count 10))
      buffer := { app.buffer with
        misused := app.buffer.misused || config.appdataSize < (telnetPrepSend rest).length } }
  else { app with conn := uipSend app.conn rest (min app.socket.len app.conn.mss) }

/-- Handles data send. -/
def sendCall (config : Config) (sockno : ℕ) (event : Event) (app : AppState) : AppState :=
  let socket := if event.acked then ackedSocket app.conn app.socket else app.socket
  if 0 < socket.len then transmit config sockno { app with socket := socket }
  else { app with socket := socket }

/-- The loop over the data in read-to mode: the bytes that are stored, and whether the delimiter
was found. -/
def readTo (config : Config) (readto : ℤ) : List UInt8 → List UInt8 × Bool
  | [] => ([], false)
  | byte :: rest =>
    if charValue config byte = readto then ([], true)
    else
      let behind := readTo config readto rest
      (if byte ≠ 13 then byte :: behind.1 else behind.1, behind.2)

/-- What is stored of the data a call looks at, and whether the delimiter was found. -/
def taken (config : Config) (readto : ℤ) (data : List UInt8) : List UInt8 × Bool :=
  if readto ≠ noLastchar then readTo config readto data else (data, false)

/-- Handles data receive, not on the telnet socket. -/
def receiveCall (config : Config) (event : Event) (app : AppState) : AppState :=
  let datalen := event.data.length
  let socket := if app.socket.len < datalen then { app.socket with res := errOverflow }
    else app.socket
  let temp := min socket.len datalen
  let stored := taken config socket.readto (event.data.take temp.toNat)
  let len := if socket.readto ≠ noLastchar then socket.len - stored.1.length
    else socket.len - temp
  let buffer := if temp < 0 ∧ socket.readto = noLastchar then { app.buffer with misused := true }
    else app.buffer.put socket stored.1
  if len = 0 ∨ datalen < config.receiveWindow ∨ stored.2 then
    { app with
      conn := app.conn.stop
      socket := { socket with len := len, res := errOk, state := .idle }
      buffer := buffer }
  else { app with socket := { socket with len := len }, buffer := buffer }

/-- `elua_uip_appcall`, for an event on the connection with a socket number. -/
def eluaUipAppcall (config : Config) (sockno : ℕ) (event : Event) (app : AppState) : AppState :=
  if ¬ app.services.configured then app
  else if event.connected then connectedCall config sockno app
  else if app.socket.state = .idle then app
  else if app.socket.state = .recv then restartCall app
  else if event.fails then errorCall config sockno event app
  else if (event.acked ∨ event.rexmit ∨ event.poll) ∧ app.socket.state = .send then
    sendCall config sockno event app
  else if app.socket.state = .close then
    { app with
      conn := { app.conn with closing := true }
      socket := { app.socket with state := .idle } }
  else if event.newdata then
    if app.socket.state = .recv2 then
      if app.services.isTelnet config sockno then telnetHandleInput event app
      else receiveCall config event app
    else { app with conn := app.conn.stop }
  else app

/-! ### Calls -/

/-- What a call on a socket does at first: it returns, or it waits until the state is idle. -/
inductive NetCall
  | returns (value : ℤ)
  | waits (socket : SocketState)
  deriving DecidableEq, Repr

/-- `ELUA_UIP_IS_SOCK_OK`. -/
def isSockOk (config : Config) (services : Services) (sock : ℤ) : Bool :=
  services.configured && decide (0 ≤ sock ∧ sock < config.connections)

/-- `elua_prep_socket_state`, for a buffer that the pointer points to the start of. -/
def prepSocketState (len readto : ℤ) (res : ℕ) (state : Phase) : SocketState :=
  ⟨state, res, 0, len, readto⟩

/-- `elua_net_send`, on a socket that is active or not. It returns `len - pstate->len`. -/
def eluaNetSend (config : Config) (services : Services) (active : Bool) (sock len : ℤ) : NetCall :=
  if ¬ isSockOk config services sock ∨ ¬ active then .returns (-1)
  else if len = 0 then .returns 0
  else .waits (prepSocketState len noLastchar errOk .send)

/-- `elua_net_recv_internal`, on a socket that is active or not. It returns
`maxsize - pstate->len`. -/
def eluaNetRecvInternal (config : Config) (services : Services) (active : Bool)
    (sock maxsize readto : ℤ) (withBuffer : ℕ) : NetCall :=
  if ¬ isSockOk config services sock ∨ ¬ active then .returns (-1)
  else if maxsize = 0 then .returns 0
  else .waits (prepSocketState maxsize readto withBuffer .recv)

/-- `elua_net_recv`. -/
def eluaNetRecv (config : Config) (services : Services) (active : Bool)
    (sock maxsize readto : ℤ) : NetCall :=
  eluaNetRecvInternal config services active sock maxsize readto 0

/-- `elua_net_recvbuf`. -/
def eluaNetRecvbuf (config : Config) (services : Services) (active : Bool)
    (sock maxsize readto : ℤ) : NetCall :=
  eluaNetRecvInternal config services active sock maxsize readto 1

/-- What a call that waits does when its time is over, with the interrupts disabled. -/
def recvTimedout (socket : SocketState) : SocketState :=
  if socket.state ≠ .idle then { socket with res := errTimedout, state := .idle } else socket

/-! ### What the application does, state by state -/

section Application

variable {config : Config} {sockno : ℕ} {event : Event} {app : AppState}

/-- What the table of pending connections becomes when a connection is established. -/
theorem acceptPending_of_connected (hconfigured : app.services.configured)
    (hconnected : event.connected) :
    (eluaUipAppcall config sockno event app).services.acceptPending =
      if app.socket.state = .connect ∧ app.services.connecting = some sockno ∨
          config.conTcp ∧ app.conn.lport = htons telnetPort then app.services.acceptPending
      else (recordPending ⟨1, sockno, app.conn.ripaddr, htons app.conn.lport⟩
        app.services.acceptPending).getD app.services.acceptPending := by
  unfold eluaUipAppcall connectedCall
  rw [if_neg (not_not.mpr hconfigured), if_pos hconnected]
  by_cases houtgoing : app.socket.state = .connect ∧ app.services.connecting = some sockno
  · rw [if_pos houtgoing, if_pos (.inl houtgoing)]
  rw [if_neg houtgoing]
  by_cases htelnet : config.conTcp ∧ app.conn.lport = htons telnetPort
  · have heither : (app.socket.state = .connect ∧ app.services.connecting = some sockno) ∨
        config.conTcp ∧ app.conn.lport = htons telnetPort := .inr htelnet
    rw [if_pos htelnet, if_pos heither]
    split_ifs <;> rfl
  rw [if_neg htelnet, if_neg (not_or.mpr ⟨houtgoing, htelnet⟩)]
  cases hrecord : recordPending ⟨1, sockno, app.conn.ripaddr, htons app.conn.lport⟩
    app.services.acceptPending <;> rfl

/-- An idle socket is left alone. -/
theorem eluaUipAppcall_of_idle (hconnected : ¬ event.connected)
    (hidle : app.socket.state = .idle) : eluaUipAppcall config sockno event app = app := by
  unfold eluaUipAppcall
  split_ifs <;> rfl

/-- An error ends a call. -/
theorem eluaUipAppcall_of_fails (hconfigured : app.services.configured)
    (hconnected : ¬ event.connected) (hfails : event.fails)
    (hstate : app.socket.state = .send ∨ app.socket.state = .recv2) :
    eluaUipAppcall config sockno event app = errorCall config sockno event app := by
  unfold eluaUipAppcall
  rw [if_neg (not_not.mpr hconfigured), if_neg hconnected]
  rcases hstate with hstate | hstate <;> simp [hstate, hfails]

/-- While a call sends, the application counts what is acknowledged and sends what is left. -/
theorem eluaUipAppcall_of_send (hconfigured : app.services.configured)
    (hconnected : ¬ event.connected) (hfails : ¬ event.fails) (hsend : app.socket.state = .send) :
    eluaUipAppcall config sockno event app =
      if event.acked ∨ event.rexmit ∨ event.poll then sendCall config sockno event app
      else if event.newdata then { app with conn := app.conn.stop } else app := by
  unfold eluaUipAppcall
  rw [if_neg (not_not.mpr hconfigured), if_neg hconnected]
  simp [hsend, hfails]

/-- The first event of a call that receives lets the peer send. -/
theorem eluaUipAppcall_of_recv (hconfigured : app.services.configured)
    (hconnected : ¬ event.connected) (hrecv : app.socket.state = .recv) :
    eluaUipAppcall config sockno event app = restartCall app := by
  unfold eluaUipAppcall
  rw [if_neg (not_not.mpr hconfigured), if_neg hconnected]
  simp [hrecv]

/-- Data is received when the peer may send. -/
theorem eluaUipAppcall_of_recv2 (hconfigured : app.services.configured)
    (hconnected : ¬ event.connected) (hfails : ¬ event.fails) (hrecv : app.socket.state = .recv2) :
    eluaUipAppcall config sockno event app =
      if event.newdata then
        if app.services.isTelnet config sockno then telnetHandleInput event app
        else receiveCall config event app
      else app := by
  unfold eluaUipAppcall
  rw [if_neg (not_not.mpr hconfigured), if_neg hconnected]
  simp [hrecv, hfails]

end Application

end Elua.Uip
