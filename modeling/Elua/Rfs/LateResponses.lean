import Elua.Foundation.TransitionSystem
import Elua.Rfs.Directories

/-!
# Late responses

The client gives a request up when its response does not arrive in time, and the response may arrive
later. A `Link` is the client, the server and the bytes between them. Each byte bears the number of
the call whose request it is part of, or whose request it answers. The server answers when it likes,
bytes arrive when they like, and a call ends when the response is there or when the client has
waited long enough.

Nothing in a packet says which request it answers. The client drops the bytes that have arrived when
it sends a request, and no others. If nothing of an earlier call is then on its way, whatever the
client accepts was produced for the request (`responsesBelong_of_quietCalls`). Otherwise a late
answer to one read is the data of the next one (`late_response_is_accepted`). -/

set_option autoImplicit false
set_option relaxedAutoImplicit false

namespace Elua.Rfs

open Foundation Rpc

/-! ### Operations -/

/-- A call of the client. -/
inductive Operation
  | file (call : FileCall)
  | opendir (name : CString)
  | readdir (d : UInt32)
  | closedir (d : UInt32)

/-- The client makes the request. -/
def Operation.writeRequest (client : ClientConfig) (ram : Ram) (p : Addr) : Operation → Ram
  | .file (.open pathname flags mode) =>
    remotefsOpenWriteRequest ram p pathname
      (osOpenSysFlagsToRfsFlags client.openFlags flags).toInt32 mode
  | .file (.read fd _ count) => remotefsReadWriteRequest ram p fd count
  | .file (.write fd buf) =>
    remotefsWriteWriteRequest ram p fd (some buf) (UInt32.ofNat buf.length)
  | .file (.lseek fd offset whence) =>
    remotefsLseekWriteRequest ram p fd offset (osLseekSysWhenceToRfsWhence client.seekModes whence)
  | .file (.close fd) => remotefsCloseWriteRequest ram p fd
  | .opendir name => remotefsOpendirWriteRequest ram p name
  | .readdir d => remotefsReaddirWriteRequest ram p d
  | .closedir d => remotefsClosedirWriteRequest ram p d

/-- The client interprets the response. -/
def Operation.readResponse (ram : Ram) (p : Addr) : Operation → EluarpcStatus
  | .file (.open ..) => (remotefsOpenReadResponse ram p).1
  | .file (.read ..) => (remotefsReadReadResponse ram p).1
  | .file (.write ..) => (remotefsWriteReadResponse ram p).1
  | .file (.lseek ..) => (remotefsLseekReadResponse ram p).1
  | .file (.close ..) => (remotefsCloseReadResponse ram p).1
  | .opendir _ => (remotefsOpendirReadResponse ram p).1
  | .readdir _ => (remotefsReaddirReadResponse ram p).1
  | .closedir _ => (remotefsClosedirReadResponse ram p).1

/-- The memory after a response is accepted: a read copies its data. -/
def Operation.deliver (ram : Ram) (p : Addr) : Operation → Ram
  | .file (.read _ buf _) =>
    let (_, resbuf, count) := remotefsReadReadResponse ram p
    (Cursor.putAll ⟨ram, buf⟩ (loadBytes ram (resbuf.getD 0) count.toNat)).ram
  | _ => ram

/-! ### The link -/

/-- Bytes that belong to a call. -/
def numbered (number : ℕ) (bytes : List UInt8) : List (UInt8 × ℕ) := bytes.map fun byte ↦ (byte, number)

/-- The client and the server, with the bytes between them and the number of the call that each byte
belongs to. -/
structure Link (Host : Type) where
  /-- The memory of the client. -/
  ram : Ram
  /-- The call whose response the client waits for, with its number. -/
  waiting : Option (ℕ × Operation)
  /-- The bytes that have arrived at the client. -/
  input : List (UInt8 × ℕ)
  /-- The bytes of requests that the server has not read. -/
  requests : List (UInt8 × ℕ)
  /-- The bytes of answers on their way to the client. -/
  flight : List (UInt8 × ℕ)
  server : Server Host
  /-- The number of the next call. -/
  next : ℕ
  /-- What the server has answered to which call. -/
  answered : List (ℕ × List UInt8)
  /-- What the client has accepted as the response of which call. -/
  accepted : List (ℕ × List (UInt8 × ℕ))

/-- An event of the link. -/
inductive LinkEvent
  | call (operation : Operation)
  | answer
  | arrive (count : ℕ)
  | finish

section Steps

variable {Host : Type} (posix : Posix Host) (client : ClientConfig) (config : ServerConfig)
  (fuel : ℕ) (link : Link Host)

/-- The client makes a request, drops what has arrived, and sends it. If the request is damaged
the call fails at once. -/
def callStep (operation : Operation) : Link Host :=
  let ram := rfschEmpty (operation.writeRequest client link.ram client.rfscBuffer)
    client.rfscBuffer (link.input.map Prod.fst)
  match rfschSend ram client.rfscBuffer with
  | none => { link with ram := ram, input := [] }
  | some request =>
    { link with
      ram := ram
      input := []
      requests := link.requests ++ numbered link.next request
      waiting := some (link.next, operation)
      next := link.next + 1 }

/-- The server reads a request, executes it and sends the response. -/
def answerStep : Option (Link Host) := do
  let bytes := link.requests.map Prod.fst
  let number ← link.requests.head?.map Prod.snd
  let (response, server) ← serverTurn posix config fuel link.server bytes
  let (_, _, left) := rfschReceive link.server.ram config.rfsBuffer bytes
  pure
    { link with
      requests := link.requests.drop (bytes.length - left.length)
      flight := link.flight ++ numbered number response
      server := server
      answered := link.answered ++ [(number, response)] }

/-- Bytes arrive at the client. -/
def arriveStep (count : ℕ) : Link Host :=
  { link with input := link.input ++ link.flight.take count, flight := link.flight.drop count }

/-- The client stops waiting for the response of a call: it reads what it can get, and interprets it
if that is all. -/
def finishStep (number : ℕ) (operation : Operation) : Link Host :=
  let (status, ram, left) := rfschReceive link.ram client.rfscBuffer (link.input.map Prod.fst)
  let taken := link.input.length - left.length
  let after := { link with ram := ram, waiting := none, input := link.input.drop taken }
  if status = .ok ∧ operation.readResponse ram client.rfscBuffer = .ok then
    { after with
      ram := operation.deliver ram client.rfscBuffer
      accepted := link.accepted ++ [(number, link.input.take taken)] }
  else after

/-- What an event does. The client makes one call at a time. -/
def linkStep : LinkEvent → Option (Link Host)
  | .call operation => if link.waiting = none then some (callStep client link operation) else none
  | .answer => answerStep posix config fuel link
  | .arrive count => some (arriveStep link count)
  | .finish => link.waiting.map fun (number, operation) ↦ finishStep client link number operation

end Steps

/-- The link from when nothing has been sent. -/
def linkSystem {Host : Type} (posix : Posix Host) (client : ClientConfig) (config : ServerConfig)
    (fuel : ℕ) : TransitionSystem (Link Host) LinkEvent :=
  .ofFunction
    (fun link ↦ link.waiting = none ∧ link.input = [] ∧ link.requests = [] ∧ link.flight = [] ∧
      link.answered = [] ∧ link.accepted = [])
    (linkStep posix client config fuel)

/-- Every response that the client has accepted is what the server has answered to that call. -/
def ResponsesBelong {Host : Type} (link : Link Host) : Prop :=
  ∀ number response, (number, response) ∈ link.accepted →
    ∃ bytes, (number, bytes) ∈ link.answered ∧ response = numbered number bytes

/-- When a call is made, nothing of an earlier one is on its way: no request is unanswered, and no
byte of an answer has still to arrive. -/
def QuietCalls {Host : Type} (link : Link Host) : LinkEvent → Prop
  | .call _ => link.requests = [] ∧ link.flight = []
  | _ => True

/-! ### Frames -/

section Frames

variable {ram other : Ram} {addr addr' : Addr} {bytes input : List UInt8}

/-- The size of a packet stands in its first four bytes. -/
theorem getPacketSize_congr (hheader : bytes.length = eluarpcStartOffset)
    (hbytes : BytesAt ram addr bytes) (hother : BytesAt other addr' bytes) :
    eluarpcGetPacketSize ram addr = eluarpcGetPacketSize other addr' := by
  obtain ⟨first, second, third, fourth, rfl⟩ := List.length_eq_four.mp hheader
  obtain ⟨hfirst, hsecond, hthird, hfourth, -⟩ := hbytes
  obtain ⟨hfirst', hsecond', hthird', hfourth', -⟩ := hother
  simp only [eluarpcGetPacketSize, eluarpcReadU16, eluarpcReadExpect, Reader.next, hfirst, hsecond,
    hthird, hfourth, hfirst', hsecond', hthird', hfourth']

/-- Bytes whose number stands in their first four. -/
def Framed (bytes : List UInt8) : Prop :=
  ∃ ram addr size, eluarpcGetPacketSize ram addr = (.ok, size) ∧ bytes = loadBytes ram addr size.toNat

/-- The header of a framed packet gives its length, wherever it stands. -/
theorem Framed.getPacketSize (hframed : Framed bytes) {header rest : List UInt8}
    (hsplit : bytes = header ++ rest) (hheader : header.length = eluarpcStartOffset)
    (hbytes : BytesAt ram addr header) :
    ∃ size, eluarpcGetPacketSize ram addr = (.ok, size) ∧ bytes.length = size.toNat := by
  obtain ⟨other, addr', size, hsize, rfl⟩ := hframed
  have hstands := bytesAt_loadBytes other addr' size.toNat
  rw [hsplit] at hstands
  obtain ⟨hother, -⟩ := bytesAt_append.mp hstands
  exact ⟨size, (getPacketSize_congr hheader hbytes hother).trans hsize, length_loadBytes ..⟩

/-- Of the bytes of a packet only all together are received. -/
theorem rfschReceive_framed {after : Ram} {left : List UInt8} {buffer : Addr}
    (hframed : bytes = [] ∨ Framed bytes) (hstart : input <+: bytes)
    (hreceived : rfschReceive ram buffer input = (.ok, after, left)) : input = bytes ∧ left = [] := by
  simp only [rfschReceive] at hreceived
  have hread : (rfsRecv ram buffer eluarpcStartOffset input).1 = eluarpcStartOffset := by
    by_contra hshort
    rw [if_pos hshort] at hreceived
    cases (Prod.mk.inj hreceived).1
  rw [if_neg (not_not_intro hread)] at hreceived
  have hheader : (input.take eluarpcStartOffset).length = eluarpcStartOffset := hread
  obtain ⟨late, rfl⟩ := hstart
  have hframed : Framed (input ++ late) := by
    rcases hframed with hnil | hframed
    · rw [(List.append_eq_nil_iff.mp hnil).1] at hheader
      cases hheader
    · exact hframed
  have hstands : BytesAt (rfsRecv ram buffer eluarpcStartOffset input).2.1 buffer
      (input.take eluarpcStartOffset) := bytesAt_putAll (by rw [hheader]; decide)
  obtain ⟨size, hsize, hlength⟩ := hframed.getPacketSize
    (by rw [← List.append_assoc, List.take_append_drop]) hheader hstands
  have hfour : eluarpcStartOffset ≤ input.length := by
    rw [← hheader]
    exact List.length_take_le' ..
  rw [List.length_append] at hlength
  have hrest := toNat_size_sub (show eluarpcStartOffset ≤ size.toNat by omega)
  simp only [hsize, hrest] at hreceived
  have hrecv : (rfsRecv (rfsRecv ram buffer eluarpcStartOffset input).2.1
      (buffer.plus eluarpcStartOffset) (size.toNat - eluarpcStartOffset)
      (rfsRecv ram buffer eluarpcStartOffset input).2.2).1 = size.toNat - eluarpcStartOffset := by
    by_contra hshort
    rw [if_pos hshort] at hreceived
    cases (Prod.mk.inj hreceived).1
  rw [if_neg (not_not_intro hrecv)] at hreceived
  have hall : ((input.drop eluarpcStartOffset).take (size.toNat - eluarpcStartOffset)).length =
      size.toNat - eluarpcStartOffset := hrecv
  rw [List.length_take, List.length_drop] at hall
  have hlate : late = [] := List.eq_nil_of_length_eq_zero (by omega)
  refine ⟨by rw [hlate, List.append_nil], ?_⟩
  have hleft : (input.drop eluarpcStartOffset).drop (size.toNat - eluarpcStartOffset) = left :=
    (Prod.mk.inj (Prod.mk.inj hreceived).2).2
  rw [← hleft, List.drop_drop]
  exact List.drop_eq_nil_of_le (by omega)

/-- What the client sends is framed. -/
theorem framed_of_rfschSend {request : List UInt8} {buffer : Addr}
    (hsent : rfschSend ram buffer = some request) : Framed request := by
  rw [rfschSend] at hsent
  split at hsent
  · cases hsent
  · rename_i size hsize
    exact ⟨ram, buffer, size, hsize, (Option.some.inj hsent).symm⟩

/-- What the server sends is framed, if it is anything. -/
theorem framed_of_serSendResponsePacket (ram : Ram) (buffer : Addr) :
    serSendResponsePacket ram buffer = [] ∨ Framed (serSendResponsePacket ram buffer) := by
  rw [serSendResponsePacket]
  split
  · exact .inl rfl
  · rename_i size hsize
    exact .inr ⟨ram, buffer, size, hsize, rfl⟩

/-- A turn of the server reads a packet and sends what is framed. -/
theorem framed_of_serverTurn {Host : Type} {posix : Posix Host} {config : ServerConfig} {fuel : ℕ}
    {server after : Server Host} {bytes response : List UInt8}
    (hserver : serverTurn posix config fuel server bytes = some (response, after)) :
    (∃ ram left, rfschReceive server.ram config.rfsBuffer bytes = (.ok, ram, left)) ∧
      (response = [] ∨ Framed response) := by
  obtain ⟨ram, hread, hrest⟩ := Option.bind_eq_some_iff.mp hserver
  obtain ⟨⟨status, last⟩, -, hsent⟩ := Option.bind_eq_some_iff.mp hrest
  obtain ⟨rfl, -⟩ := Prod.mk.inj (Option.some.inj hsent)
  refine ⟨?_, framed_of_serSendResponsePacket last.ram config.rfsBuffer⟩
  rw [serReadRequestPacket] at hread
  split at hread
  · cases hread
  · rename_i other left hreceived
    exact ⟨other, left, hreceived⟩

/-- Something is received. -/
theorem ne_nil_of_rfschReceive {after : Ram} {left : List UInt8} {buffer : Addr}
    (hreceived : rfschReceive ram buffer input = (.ok, after, left)) : input ≠ [] := by
  rintro rfl
  have hstatus : ClientStatus.err = ClientStatus.ok := congrArg Prod.fst hreceived
  cases hstatus

end Frames

/-! ### Runs -/

section Runs

variable {Host : Type} {posix : Posix Host} {client : ClientConfig} {config : ServerConfig}
  {fuel : ℕ} {link after : Link Host}

@[simp] theorem map_fst_numbered (number : ℕ) (bytes : List UInt8) :
    (numbered number bytes).map Prod.fst = bytes := by
  rw [numbered, List.map_map]
  exact List.map_id _

@[simp] theorem length_numbered (number : ℕ) (bytes : List UInt8) :
    (numbered number bytes).length = bytes.length := List.length_map ..

/-- While the client waits, nothing but its request or the answer to it is on its way. -/
def Outstanding (link : Link Host) (number : ℕ) : Prop :=
  (∃ request, Framed request ∧ link.requests = numbered number request ∧ link.flight = [] ∧
      link.input = []) ∨
    (link.requests = [] ∧ ∃ response, (response = [] ∨ Framed response) ∧
      (number, response) ∈ link.answered ∧ link.input ++ link.flight = numbered number response)

/-- What is accepted belongs to its call, and so does what the client waits for. -/
structure InTurn (link : Link Host) : Prop where
  belong : ResponsesBelong link
  waiting : ∀ number operation, link.waiting = some (number, operation) → Outstanding link number

/-- The calls that are quiet leave their own request on its way. -/
theorem InTurn.call (hturn : InTurn link) (operation : Operation) (hidle : link.waiting = none)
    (hrequests : link.requests = []) (hflight : link.flight = []) :
    InTurn (callStep client link operation) := by
  simp only [callStep]
  split
  · refine ⟨hturn.belong, fun number other hwaiting ↦ ?_⟩
    rw [hidle] at hwaiting
    cases hwaiting
  · rename_i request hsent
    refine ⟨hturn.belong, fun number other hwaiting ↦ .inl ⟨request, framed_of_rfschSend hsent, ?_⟩⟩
    obtain ⟨rfl, -⟩ := Prod.mk.inj (Option.some.inj hwaiting)
    refine ⟨?_, hflight, rfl⟩
    rw [hrequests, List.nil_append]

/-- The server answers the call whose request is on its way. -/
theorem InTurn.answer (hturn : InTurn link) (hstep : answerStep posix config fuel link = some after) :
    InTurn after := by
  obtain ⟨number, hnumber, hrest⟩ := Option.bind_eq_some_iff.mp hstep
  obtain ⟨⟨response, server⟩, hserver, hlast⟩ := Option.bind_eq_some_iff.mp hrest
  obtain ⟨⟨ram, left, hreceived⟩, hresponse⟩ := framed_of_serverTurn hserver
  simp only [hreceived] at hlast
  obtain rfl := Option.some.inj hlast
  refine ⟨fun other accepted hmem ↦ ?_, fun other operation hwaiting ↦ ?_⟩
  · obtain ⟨bytes, hanswered, hbytes⟩ := hturn.belong other accepted hmem
    exact ⟨bytes, List.mem_append_left _ hanswered, hbytes⟩
  · rcases hturn.waiting other operation hwaiting with
      ⟨request, hframed, hrequests, hflight, hinput⟩ | ⟨hrequests, -⟩
    · obtain rfl : number = other := by
        rw [hrequests, numbered, List.head?_map, Option.map_map] at hnumber
        obtain ⟨byte, -, hother⟩ := Option.map_eq_some_iff.mp hnumber
        exact hother.symm
      rw [hrequests, map_fst_numbered] at hreceived
      obtain ⟨-, rfl⟩ := rfschReceive_framed (.inr hframed) List.prefix_rfl hreceived
      refine .inr ⟨?_, response, hresponse, List.mem_append_right _ List.mem_cons_self, ?_⟩
      · simp only [hrequests, map_fst_numbered, List.length_nil, Nat.sub_zero]
        exact List.drop_eq_nil_of_le (Nat.le_of_eq (length_numbered ..))
      · simp only [hinput, hflight, List.nil_append]
    · rw [hrequests] at hnumber
      cases hnumber

/-- Arriving bytes are still of the same call. -/
theorem InTurn.arrive (hturn : InTurn link) (count : ℕ) : InTurn (arriveStep link count) := by
  refine ⟨hturn.belong, fun number operation hwaiting ↦ ?_⟩
  rcases hturn.waiting number operation hwaiting with
    ⟨request, hframed, hrequests, hflight, hinput⟩ | ⟨hrequests, response, hframed, hanswered, hbytes⟩
  · refine .inl ⟨request, hframed, hrequests, ?_, ?_⟩
    · simp only [arriveStep, hflight, List.drop_nil]
    · simp only [arriveStep, hflight, hinput, List.take_nil, List.append_nil]
  · refine .inr ⟨hrequests, response, hframed, hanswered, ?_⟩
    simp only [arriveStep, List.append_assoc, List.take_append_drop, hbytes]

/-- What the client accepts is the whole answer to its request. -/
theorem InTurn.finish (hturn : InTurn link) {number : ℕ} {operation : Operation}
    (hwaiting : link.waiting = some (number, operation)) :
    InTurn (finishStep client link number operation) := by
  rcases hreceived : rfschReceive link.ram client.rfscBuffer (link.input.map Prod.fst) with
    ⟨status, ram, left⟩
  simp only [finishStep, hreceived]
  split_ifs with haccepted
  · obtain ⟨rfl, -⟩ := haccepted
    refine ⟨fun other response hmem ↦ ?_, fun _ _ hnone ↦ by cases hnone⟩
    rcases List.mem_append.mp hmem with hmem | hmem
    · exact hturn.belong other response hmem
    · obtain ⟨rfl, rfl⟩ := Prod.mk.inj (List.mem_singleton.mp hmem)
      rcases hturn.waiting other operation hwaiting with
        ⟨-, -, -, -, hinput⟩ | ⟨-, response, hframed, hanswered, hbytes⟩
      · rw [hinput] at hreceived
        exact absurd rfl (ne_nil_of_rfschReceive hreceived)
      · have hall : link.input.map Prod.fst ++ link.flight.map Prod.fst = response := by
          rw [← List.map_append, hbytes, map_fst_numbered]
        obtain ⟨hwhole, rfl⟩ := rfschReceive_framed hframed ⟨_, hall⟩ hreceived
        have hflight : link.flight = [] := by
          rw [hwhole] at hall
          exact List.map_eq_nil_iff.mp (List.append_right_eq_self.mp hall)
        rw [hflight, List.append_nil] at hbytes
        refine ⟨response, hanswered, ?_⟩
        rw [List.length_nil, Nat.sub_zero, List.take_length, hbytes]
  · exact ⟨hturn.belong, fun _ _ hnone ↦ by cases hnone⟩

theorem InTurn.step (hturn : InTurn link) {event : LinkEvent} (hquiet : QuietCalls link event)
    (hstep : linkStep posix client config fuel link event = some after) : InTurn after := by
  cases event with
  | call operation =>
    obtain ⟨hidle, hcall⟩ := Option.ite_none_right_eq_some.mp hstep
    obtain rfl := Option.some.inj hcall
    exact hturn.call operation hidle hquiet.1 hquiet.2
  | answer => exact hturn.answer hstep
  | arrive count =>
    obtain rfl := Option.some.inj hstep
    exact hturn.arrive count
  | finish =>
    obtain ⟨⟨number, operation⟩, hwaiting, rfl⟩ := Option.map_eq_some_iff.mp hstep
    exact hturn.finish hwaiting

end Runs

/-- If nothing of an earlier call is on its way when a call is made, what the client accepts as its
response is what the server has answered to it, for every order of answers, arrivals and timeouts.
-/
theorem responsesBelong_of_quietCalls {Host : Type} (posix : Posix Host) (client : ClientConfig)
    (config : ServerConfig) (fuel : ℕ) (link : Link Host)
    (hreach : (linkSystem posix client config fuel).ReachableUnder QuietCalls link) :
    ResponsesBelong link := by
  refine (hreach.invariant InTurn ?_ fun _ _ _ hturn hquiet hstep ↦ hturn.step hquiet hstep).belong
  rintro link ⟨hwaiting, -, -, -, -, haccepted⟩
  refine ⟨fun number response hmem ↦ ?_, fun number operation hsome ↦ ?_⟩
  · rw [haccepted] at hmem
    cases hmem
  · rw [hwaiting] at hsome
    cases hsome

/-! ### Reads -/

section Reads

variable {Host : Type} {posix : Posix Host} {client : ClientConfig} {config : ServerConfig}
  {fuel : ℕ} {link : Link Host}

/-- A call whose request is a packet waits for the response. -/
theorem callStep_packet {operation : Operation} {request : List WriteItem}
    (hrequest : ProperPacket request)
    (hwrite : operation.writeRequest client link.ram client.rfscBuffer =
      eluarpcGenWrite link.ram client.rfscBuffer request) (hinput : link.input = []) :
    callStep client link operation =
      { link with
        ram := eluarpcGenWrite link.ram client.rfscBuffer request
        requests := link.requests ++ numbered link.next (packet request)
        waiting := some (link.next, operation)
        next := link.next + 1 } := by
  have hsent := rfschSend_packet hrequest (hrequest.written link.ram client.rfscBuffer)
  simp only [callStep, hwrite, hinput, List.map_nil, rfschEmpty, hsent]

/-- A request that is a packet is read whole. -/
theorem answerStep_packet {request : List WriteItem} {response : List UInt8} {server : Server Host}
    {number : ℕ} (hrequest : ProperPacket request)
    (hrequests : link.requests = numbered number (packet request))
    (hserver : serverTurn posix config fuel link.server (packet request) = some (response, server)) :
    answerStep posix config fuel link = some
      { link with
        requests := []
        flight := link.flight ++ numbered number response
        server := server
        answered := link.answered ++ [(number, response)] } := by
  have hreceived := rfschReceive_packet hrequest link.server.ram config.rfsBuffer []
  rw [List.append_nil] at hreceived
  have hnumber : (numbered number (packet request)).head?.map Prod.snd = some number := by
    rcases hpacket : packet request with - | ⟨byte, bytes⟩
    · cases hpacket
    · rfl
  simp only [answerStep, hrequests, map_fst_numbered, hnumber, hserver, hreceived,
    Option.bind_eq_bind, Option.bind_some, Option.pure_def, List.length_nil, Nat.sub_zero]
  rw [List.drop_eq_nil_of_le (Nat.le_of_eq (length_numbered ..))]

/-- A client that waits in vain gives the call up. -/
theorem finishStep_nil {number : ℕ} {operation : Operation} (hinput : link.input = []) :
    finishStep client link number operation = { link with waiting := none } := by
  have hreceived : rfschReceive link.ram client.rfscBuffer [] = (.err, link.ram, []) := rfl
  have hstatus : ¬ (ClientStatus.err = ClientStatus.ok ∧
      operation.readResponse link.ram client.rfscBuffer = .ok) := fun hok ↦ by cases hok.1
  simp only [finishStep, hinput, List.map_nil, hreceived, if_neg hstatus, List.drop_nil]

/-- A client that waits accepts a packet that can be read. -/
theorem finishStep_packet {number other : ℕ} {operation : Operation} {response : List WriteItem}
    (hresponse : ProperPacket response) (hinput : link.input = numbered other (packet response))
    (hread : ∀ ram, BytesAt ram client.rfscBuffer (packet response) →
      operation.readResponse ram client.rfscBuffer = .ok) :
    (finishStep client link number operation).accepted =
      link.accepted ++ [(number, numbered other (packet response))] := by
  have hreceived := rfschReceive_packet hresponse link.ram client.rfscBuffer []
  rw [List.append_nil] at hreceived
  have hstands : BytesAt (Cursor.putAll ⟨link.ram, client.rfscBuffer⟩ (packet response)).ram
      client.rfscBuffer (packet response) := bytesAt_putAll (Nat.le_of_lt hresponse.length_lt)
  simp only [finishStep, hinput, map_fst_numbered, hreceived, hread _ hstands, and_self, if_true,
    List.length_nil, Nat.sub_zero, List.take_length]

end Reads

/-! ### Two reads -/

theorem length_of_take {data bytes : List UInt8} {count : ℕ}
    (hbytes : some (data.take count) = some bytes) : bytes.length ≤ count := by
  rw [← Option.some.inj hbytes]
  exact List.length_take_le ..

/-- A host whose files have three bytes. -/
def readHost : Posix Unit where
  «open» := fun host _ _ _ ↦ (3, host)
  write := fun host _ _ ↦ (-1, host)
  read := fun host _ count ↦ (some (([1, 2, 3] : List UInt8).take count.toNat), host)
  close := fun host _ ↦ (0, host)
  lseek := fun host _ _ _ ↦ (0, host)
  opendir := fun host _ ↦ (0, host)
  readdir := fun host _ ↦ (none, host)
  closedir := fun host _ ↦ (0, host)
  read_le := fun _ _ _ _ hbytes ↦ length_of_take hbytes

/-- A client with its buffer and the flags of the server. -/
def plainClient : ClientConfig := ⟨0x1000, rfsOpenFlags, rfsLseek⟩

theorem read_fits (fd : Int32) (buf : Addr) : (FileCall.read fd buf 8).Fits 512 :=
  ⟨show max 28 (23 + (8 : UInt32).toNat) ≤ 512 by decide,
    show max 28 (23 + (8 : UInt32).toNat) ≤ rfsBufferSize by decide⟩

/-- The server answers a read, and the answer is on its way. -/
theorem exists_answered_read :
    ∃ (link : Link Unit) (response : List WriteItem),
      (linkSystem readHost plainClient rootServer 0).ReachableUnder QuietCalls link ∧
        ProperPacket response ∧
        (∀ fd buf ram, BytesAt ram plainClient.rfscBuffer (packet response) →
          (Operation.file (.read fd buf 8)).readResponse ram plainClient.rfscBuffer = .ok) ∧
        link.waiting = some (0, .file (.read 3 0x100 8)) ∧ link.input = [] ∧ link.requests = [] ∧
        link.flight = numbered 0 (packet response) ∧ link.next = 1 ∧ link.accepted = [] := by
  have hrequest := @FileCall.request_proper plainClient _ _ (read_fits 3 0x100)
  obtain ⟨result, bytes, host, ram, -, hresult, hresponse, hserver⟩ :=
    @serverTurn_call Unit readHost plainClient rootServer 0 (.read 3 0x100 8) 512 ⟨fun _ ↦ 0, ()⟩
      (read_fits 3 0x100) rfl
  have hstart : (linkSystem readHost plainClient rootServer 0).ReachableUnder QuietCalls
      ⟨fun _ ↦ 0, none, [], [], [], ⟨fun _ ↦ 0, ()⟩, 0, [], []⟩ :=
    .start ⟨rfl, rfl, rfl, rfl, rfl, rfl⟩
  have hcall := hstart.andThen (.call (.file (.read 3 0x100 8))) ⟨rfl, rfl⟩
    (congrArg some (callStep_packet hrequest rfl rfl))
  have hanswer := hcall.andThen .answer trivial (answerStep_packet hrequest rfl hserver)
  refine ⟨_, _, hanswer, hresponse, fun fd buf ram hbytes ↦ ?_, rfl, rfl, rfl, rfl, rfl, rfl⟩
  have hvalues : eluarpcGenRead ram plainClient.rfscBuffer [.r rfsOpRead, .p] = (.ok, _) :=
    genRead_of_packet hresponse hbytes rfl rfl
  rw [Operation.readResponse, remotefsReadReadResponse, hvalues]

/-- A read whose answer arrives in time. -/
theorem responsesBelong_read :
    ∃ link : Link Unit, link.accepted ≠ [] ∧ ResponsesBelong link := by
  obtain ⟨link, response, hreach, hresponse, hread, hwaiting, hinput, -, hflight, -, haccepted⟩ :=
    exists_answered_read
  have harrive := hreach.andThen (.arrive link.flight.length) trivial rfl
  have hstep : linkStep readHost plainClient rootServer 0 (arriveStep link link.flight.length)
      .finish = some (finishStep plainClient (arriveStep link link.flight.length) 0
        (.file (.read 3 0x100 8))) :=
    congrArg (Option.map _) hwaiting
  have hfinish := harrive.andThen .finish trivial hstep
  refine ⟨_, ?_, responsesBelong_of_quietCalls readHost plainClient rootServer 0 _ hfinish⟩
  have harrived : (arriveStep link link.flight.length).input = numbered 0 (packet response) := by
    simp only [arriveStep, hinput, hflight, List.nil_append, List.take_length]
  rw [finishStep_packet hresponse harrived (hread 3 0x100)]
  exact List.append_ne_nil_of_right_ne_nil _ (List.cons_ne_nil _ _)

/-- The client gives a read up whose answer is late, and takes the answer for that of the next read.
-/
theorem late_response_is_accepted :
    ∃ link : Link Unit, (linkSystem readHost plainClient rootServer 0).Reachable link ∧
      ¬ ResponsesBelong link := by
  obtain ⟨late, response, hreach, hresponse, hread, hwaiting, hinput⟩ :
      ∃ (late : Link Unit) (response : List WriteItem),
        (linkSystem readHost plainClient rootServer 0).Reachable late ∧ ProperPacket response ∧
          (∀ ram, BytesAt ram plainClient.rfscBuffer (packet response) →
            (Operation.file (.read 3 0x200 8)).readResponse ram plainClient.rfscBuffer = .ok) ∧
          late.waiting = some (1, .file (.read 3 0x200 8)) ∧
          late.input = numbered 0 (packet response) := by
    obtain ⟨link, response, hreach, hresponse, hread, hwaiting, hinput, -, hflight, hnext, -⟩ :=
      exists_answered_read
    have hstep : linkStep readHost plainClient rootServer 0 link .finish =
        some (finishStep plainClient link 0 (.file (.read 3 0x100 8))) :=
      congrArg (Option.map _) hwaiting
    have hgivenUp := hreach.reachable.andThen .finish trivial hstep
    rw [finishStep_nil hinput] at hgivenUp
    have hrequest := @FileCall.request_proper plainClient _ _ (read_fits 3 0x200)
    have hcall := hgivenUp.andThen (.call (.file (.read 3 0x200 8))) trivial
      (congrArg some (callStep_packet hrequest rfl hinput))
    have harrive := hcall.andThen (.arrive link.flight.length) trivial rfl
    refine ⟨_, response, harrive, hresponse, hread 3 0x200, ?_, ?_⟩
    · simp only [arriveStep, hnext]
    · simp only [arriveStep, hinput, hflight, List.nil_append, List.take_length]
  have hstep : linkStep readHost plainClient rootServer 0 late .finish =
      some (finishStep plainClient late 1 (.file (.read 3 0x200 8))) :=
    congrArg (Option.map _) hwaiting
  refine ⟨_, hreach.andThen .finish trivial hstep, fun hbelong ↦ ?_⟩
  have hmem : (1, numbered 0 (packet response)) ∈
      (finishStep plainClient late 1 (.file (.read 3 0x200 8))).accepted := by
    rw [finishStep_packet hresponse hinput hread]
    exact List.mem_append_right _ List.mem_cons_self
  obtain ⟨bytes, -, hbytes⟩ := hbelong 1 _ hmem
  have hnumber := congrArg (fun bytes ↦ bytes.head?.map Prod.snd) hbytes
  rcases bytes with - | ⟨byte, bytes⟩
  · cases hnumber
  · cases hnumber

end Elua.Rfs
