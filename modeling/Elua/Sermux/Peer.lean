import Elua.Sermux.BoardToPc
import Elua.Sermux.PcToBoard

/-!
# The two ends of the serial multiplexer as peers

The board and the PC have the same part in the protocol. A `Peer` is an end of the link with what
the protocol needs of it: what it puts on the wire for a byte of a service, what it does with each
kind of byte that it gets, and how it answers a request for the service id. `boardPeer` and `pcPeer`
are the two ends, for a board with as many virtual UARTs as the PC uses services. -/

set_option autoImplicit false
set_option relaxedAutoImplicit false

namespace Elua.Sermux

open Foundation

/-! ### Peers -/

/-- What the protocol knows of an end: the service it has selected, the service it has announced,
the bytes it sends again on request behind the service id, and if an escape is pending. -/
structure PeerView where
  serviceIn : Option ℕ
  serviceOut : Option ℕ
  lastSent : Option (List UInt8)
  gotEsc : Bool
  running : Bool

/-- What an end does with a byte that it gets: it answers, hands a byte to a service, or stops with
a protocol error. -/
inductive PeerEffect
  | reply (byte : UInt8)
  | delivered (service : ℕ) (data : UInt8)
  | protocolError
  deriving DecidableEq, Repr

/-- A data byte goes to the service that is selected. Without one, the service id is requested. -/
def handedOn (serviceIn : Option ℕ) (data : UInt8) : List PeerEffect :=
  match serviceIn with
  | none => [.reply sermuxForceSidChar]
  | some service => [.delivered service data]

/-- A service id is announced when it changes. -/
def serviceBytes (serviceOut : Option ℕ) (service : ℕ) : List UInt8 :=
  if some service ≠ serviceOut then [UInt8.ofNat service] else []

/-- An end of a link with a number of services. -/
structure Peer (services : ℕ) (State Source : Type) where
  send : State → Source → UInt8 → State × List UInt8
  receive : State → UInt8 → State × List PeerEffect
  service : Source → ℕ
  admits : Source → Prop
  view : State → PeerView
  valid : ∀ source, admits source → isVirtualUart services (service source)
  wire_send : ∀ state source data, admits source → (send state source data).2 =
    serviceBytes (view state).serviceOut (service source) ++ encodedData data
  view_send : ∀ state source data, admits source → view (send state source data).1 =
    { view state with
      serviceOut := some (service source)
      lastSent := some (encodedData data) }
  receive_service : ∀ state id, (view state).running = true → isVirtualUart services id →
    (receive state (UInt8.ofNat id)).2 = [] ∧
      view (receive state (UInt8.ofNat id)).1 = { view state with serviceIn := some id }
  receive_escape : ∀ state, (view state).running = true →
    (receive state sermuxEscapeChar).2 = [] ∧
      view (receive state sermuxEscapeChar).1 = { view state with gotEsc := true }
  receive_plain : ∀ state data, (view state).running = true → (view state).gotEsc = false →
    needsEscape data = false →
    (∀ id, (view state).serviceIn = some id → isVirtualUart services id) →
    (receive state data).2 = handedOn (view state).serviceIn data ∧
      view (receive state data).1 = view state
  receive_escaped : ∀ state data, (view state).running = true → (view state).gotEsc = true →
    needsEscape data = true →
    (∀ id, (view state).serviceIn = some id → isVirtualUart services id) →
    (receive state (escapedByte data)).2 = handedOn (view state).serviceIn data ∧
      view (receive state (escapedByte data)).1 = { view state with gotEsc := false }
  receive_force : ∀ state id bytes, (view state).running = true →
    (view state).serviceOut = some id → (view state).lastSent = some bytes →
    (receive state sermuxForceSidChar).2 = (UInt8.ofNat id :: bytes).map .reply ∧
      view (receive state sermuxForceSidChar).1 = { view state with lastSent := none }

/-! ### What is sent again -/

/-- The data byte that was sent last, as it is sent again. -/
def resentBytes (lastSent : ℕ) : List UInt8 :=
  (if lastSent &&& sermuxEscMask ≠ 0 then [sermuxEscapeChar] else []) ++
    [UInt8.ofNat (lastSent &&& 0xFF)]

theorem resentBytes_plain (data : UInt8) : resentBytes data.toNat = [data] :=
  forall_byte_of_bitVec (fun data ↦ resentBytes data.toNat = [data]) (by decide) data

theorem resentBytes_escaped (data : UInt8) :
    resentBytes (sermuxEscMask ||| data.toNat) = [sermuxEscapeChar, data] :=
  forall_byte_of_bitVec (fun data ↦
    resentBytes (sermuxEscMask ||| data.toNat) = [sermuxEscapeChar, data]) (by decide) data

theorem resentBytes_of_needsEscape (data : UInt8) :
    resentBytes (if needsEscape data then sermuxEscMask ||| (escapedByte data).toNat
      else data.toNat) = encodedData data := by
  rw [encodedData]
  split_ifs
  · exact resentBytes_escaped (escapedByte data)
  · exact resentBytes_plain data

/-! ### The board -/

/-- What the handler of the board does, as an end of the link. -/
def RxEffect.toPeer : RxEffect → List PeerEffect
  | .serviceSelected _ => []
  | .escapeSeen => []
  | .transmitted byte => [.reply byte]
  | .stored service data => [.delivered service data]

def SermuxBoard.view (board : SermuxBoard) : PeerView where
  serviceIn := board.uartServiceIdIn
  serviceOut := board.uartServiceIdOut
  lastSent := board.uartLastSent.map resentBytes
  gotEsc := board.uartGotEsc
  running := true

/-- The handler of the board for one byte. -/
def boardPeerReceive (sermuxNumVuart : ℕ) (board : SermuxBoard) (data : UInt8) :
    SermuxBoard × List PeerEffect :=
  let result := cmnRxHandler sermuxNumVuart board data
  (result.1, result.2.flatMap RxEffect.toPeer)

section Board

variable {services : ℕ}

/-- A data byte that is not escaped is no service id of the board. -/
theorem not_isVirtualUart_of_plain (hservices : services ≤ sermuxServiceMax) {data : UInt8}
    (hplain : needsEscape data = false) : ¬ isVirtualUart services data.toNat := by
  rw [plain_service_iff (Nat.le_succ_of_le hservices) hplain]
  exact fun hninth ↦ absurd hninth.1 (Nat.not_lt_of_le hservices)

theorem receiveData_toPeer (board : SermuxBoard) (data : UInt8) :
    (receiveData board data).2.flatMap RxEffect.toPeer = handedOn board.uartServiceIdIn
      (if board.uartGotEsc then data ^^^ sermuxEscapeXorMask else data) := by
  simp only [receiveData]
  rcases board.uartServiceIdIn with - | service <;> rfl

theorem view_platformUartSend {id : ℕ} (hid : isVirtualUart services id) (board : SermuxBoard)
    (data : UInt8) : (platformUartSend services board id data).1.view =
      { board.view with
        serviceOut := some id
        lastSent := some (encodedData data) } := by
  rw [← resentBytes_of_needsEscape, platformUartSend, if_pos hid]
  split_ifs <;> rfl

theorem boardPeerReceive_service (hservices : services ≤ sermuxServiceMax) {id : ℕ}
    (hid : isVirtualUart services id) (board : SermuxBoard) :
    (boardPeerReceive services board (UInt8.ofNat id)).2 = [] ∧
      (boardPeerReceive services board (UInt8.ofNat id)).1.view =
        { board.view with serviceIn := some id } := by
  obtain ⟨hbyte, hne⟩ := service_byte_facts (Nat.le_succ_of_le hservices) hid
  rw [boardPeerReceive, cmnRxHandler_service hid hbyte hne]
  exact ⟨rfl, rfl⟩

theorem boardPeerReceive_escape (services : ℕ) (board : SermuxBoard) :
    (boardPeerReceive services board sermuxEscapeChar).2 = [] ∧
      (boardPeerReceive services board sermuxEscapeChar).1.view =
        { board.view with gotEsc := true } := by
  rw [boardPeerReceive, cmnRxHandler_escape]
  exact ⟨rfl, rfl⟩

theorem boardPeerReceive_plain (hservices : services ≤ sermuxServiceMax) {board : SermuxBoard}
    {data : UInt8} (hplain : needsEscape data = false) (hescape : board.uartGotEsc = false) :
    (boardPeerReceive services board data).2 = handedOn board.uartServiceIdIn data ∧
      (boardPeerReceive services board data).1.view = board.view := by
  rw [boardPeerReceive, cmnRxHandler_data (ne_escape_of_plain hplain) (ne_force_of_plain hplain)
    (not_isVirtualUart_of_plain hservices hplain)]
  refine ⟨?_, ?_⟩
  · rw [receiveData_toPeer, hescape]
    rfl
  · simp only [receiveData, SermuxBoard.view, hescape]

theorem boardPeerReceive_escaped (hservices : services ≤ sermuxServiceMax) {board : SermuxBoard}
    {data : UInt8} (hneeds : needsEscape data = true) (hescape : board.uartGotEsc = true) :
    (boardPeerReceive services board (escapedByte data)).2 = handedOn board.uartServiceIdIn data ∧
      (boardPeerReceive services board (escapedByte data)).1.view =
        { board.view with gotEsc := false } := by
  rw [boardPeerReceive, cmnRxHandler_data (escaped_byte_ne_escape hneeds)
    (escaped_byte_ne_force hneeds) (escaped_not_service (Nat.le_succ_of_le hservices) hneeds)]
  refine ⟨?_, rfl⟩
  rw [receiveData_toPeer, hescape, if_pos rfl, xor_mask_cancel]

theorem boardPeerReceive_force (hservices : services ≤ sermuxServiceMax) {board : SermuxBoard}
    {id : ℕ} {bytes : List UInt8} (hout : board.view.serviceOut = some id)
    (hlast : board.view.lastSent = some bytes) :
    (boardPeerReceive services board sermuxForceSidChar).2 =
        (UInt8.ofNat id :: bytes).map .reply ∧
      (boardPeerReceive services board sermuxForceSidChar).1.view =
        { board.view with lastSent := none } := by
  have hservice : ¬ isVirtualUart services sermuxForceSidChar.toNat := by
    rintro ⟨-, hlt⟩
    have hvalue : sermuxForceSidChar.toNat = 255 := rfl
    simp only [sermuxServiceMax, sermuxServiceIdFirst, sermuxServiceIdLast] at hservices hlt
    omega
  have hne : sermuxForceSidChar ≠ sermuxEscapeChar := by decide
  obtain ⟨lastSent, hsome, rfl⟩ := Option.map_eq_some_iff.mp hlast
  have hid : board.uartServiceIdOut = some id := hout
  rw [boardPeerReceive, cmnRxHandler, if_pos hne, if_neg hservice, if_pos rfl, hsome]
  refine ⟨?_, rfl⟩
  simp only [retransmission, hid, Option.map_some, Option.getD_some, List.flatMap_map]
  exact (List.flatMap_pure_eq_map PeerEffect.reply _)

/-- The board is an end of the link. -/
def boardPeer (hservices : services ≤ sermuxServiceMax) : Peer services SermuxBoard ℕ where
  send := platformUartSend services
  receive := boardPeerReceive services
  service := id
  admits := isVirtualUart services
  view := SermuxBoard.view
  valid := fun _ hadmits ↦ hadmits
  wire_send := fun board _ data hadmits ↦ platformUartSend_wire hadmits board data
  view_send := fun board _ data hadmits ↦ view_platformUartSend hadmits board data
  receive_service := fun board _ _ hid ↦ boardPeerReceive_service hservices hid board
  receive_escape := fun board _ ↦ boardPeerReceive_escape services board
  receive_plain := fun _ _ _ hescape hplain _ ↦
    boardPeerReceive_plain hservices hplain hescape
  receive_escaped := fun _ _ _ hescape hneeds _ ↦
    boardPeerReceive_escaped hservices hneeds hescape
  receive_force := fun _ _ _ _ hout hlast ↦ boardPeerReceive_force hservices hout hlast

end Board

/-! ### The PC -/

/-- What the program on the PC does, as an end of the link. The ports are numbered behind the remote
file system. -/
def MuxEffect.toPeer (config : MuxConfig) : MuxEffect → PeerEffect
  | .transmitted byte => .reply byte
  | .toRfs byte => .delivered sermuxServiceIdFirst byte
  | .toPort index byte => .delivered (sermuxServiceIdFirst + index + config.serviceOffset) byte
  | .protocolError => .protocolError

def MuxServer.view (server : MuxServer) : PeerView where
  serviceIn := server.serviceIdIn
  serviceOut := server.serviceIdOut
  lastSent := server.prevSent.map resentBytes
  gotEsc := server.gotEsc
  running := server.running

/-- The service branch of the program, without the roles of the bytes. -/
def pcPeerSend (config : MuxConfig) (server : MuxServer) (source : Source) (data : UInt8) :
    MuxServer × List UInt8 :=
  let result := serviceByte config server (source, data)
  (result.1, result.2.map Prod.snd)

/-- The transport branch of the program. -/
def pcPeerReceive (config : MuxConfig) (server : MuxServer) (c : UInt8) :
    MuxServer × List PeerEffect :=
  let result := transportByte config server c
  (result.1, result.2.map (MuxEffect.toPeer config))

section Pc

variable {config : MuxConfig} {server : MuxServer}

theorem map_snd_payload (data : UInt8) : (payload data).map Prod.snd = encodedData data := by
  rw [payload, encodedData]
  split_ifs <;> rfl

theorem wire_pcPeerSend (config : MuxConfig) (server : MuxServer) (source : Source) (data : UInt8) :
    (pcPeerSend config server source data).2 =
      serviceBytes server.serviceIdOut (serviceOf config source) ++ encodedData data := by
  rw [← map_snd_payload]
  change ((serviceByte config server (source, data)).2).map Prod.snd = _
  rw [serviceByte_wire, List.map_append, announcement, serviceBytes]
  split_ifs <;> rfl

theorem view_pcPeerSend (config : MuxConfig) (server : MuxServer) (source : Source) (data : UInt8) :
    (pcPeerSend config server source data).1.view =
      { server.view with
        serviceOut := some (serviceOf config source)
        lastSent := some (encodedData data) } := by
  rw [← resentBytes_of_needsEscape, pcPeerSend, serviceByte]
  split_ifs <;> rfl

/-- A byte that is handed on goes to the service that is selected. -/
theorem map_deliver (server : MuxServer) (data : UInt8)
    (hvalid : ∀ id, server.serviceIdIn = some id → isVirtualUart config.services id) :
    (deliver config server data).map (MuxEffect.toPeer config) =
      handedOn server.serviceIdIn data := by
  rcases hservice : server.serviceIdIn with - | service
  · rw [deliver, hservice]
    rfl
  · obtain ⟨hfirst, -⟩ := hvalid service hservice
    rw [deliver, hservice]
    simp only [handedOn]
    split_ifs with hrfs
    · have hmode : config.muxMode = .rfsmux ∧ service = sermuxServiceIdFirst := by
        rw [MuxConfig.rfsServiceId] at hrfs
        split at hrfs
        · cases hrfs
        · exact ⟨by assumption, Option.some.inj hrfs⟩
      rw [hmode.2]
      rfl
    · have hservice : sermuxServiceIdFirst + (service - sermuxServiceIdFirst -
          config.serviceOffset) + config.serviceOffset = service := by
        rw [MuxConfig.rfsServiceId] at hrfs
        rw [MuxConfig.serviceOffset]
        rcases hmode : config.muxMode with - | -
        · simp only
          omega
        · rw [hmode] at hrfs
          have hne : service ≠ sermuxServiceIdFirst := fun heq ↦ hrfs (congrArg some heq)
          simp only
          omega
      simp only [List.map_cons, List.map_nil, MuxEffect.toPeer, hservice]

theorem pcPeerReceive_service (hservices : config.services ≤ sermuxServiceMax) {id : ℕ}
    (hrunning : server.running = true) (hid : isVirtualUart config.services id) :
    (pcPeerReceive config server (UInt8.ofNat id)).2 = [] ∧
      (pcPeerReceive config server (UInt8.ofNat id)).1.view =
        { server.view with serviceIn := some id } := by
  obtain ⟨hfirst, hlt⟩ := hid
  have hlast : id ≤ sermuxServiceIdLast := by
    simp only [sermuxServiceMax, sermuxServiceIdFirst, sermuxServiceIdLast] at *
    omega
  rw [pcPeerReceive, transportByte_service hfirst hlast hrunning]
  exact ⟨rfl, rfl⟩

theorem pcPeerReceive_escape (hrunning : server.running = true) :
    (pcPeerReceive config server sermuxEscapeChar).2 = [] ∧
      (pcPeerReceive config server sermuxEscapeChar).1.view =
        { server.view with gotEsc := true } := by
  rw [pcPeerReceive, transportByte_escape hrunning]
  exact ⟨rfl, rfl⟩

theorem pcPeerReceive_plain {data : UInt8} (hrunning : server.running = true)
    (hescape : server.gotEsc = false) (hplain : needsEscape data = false)
    (hvalid : ∀ id, server.serviceIdIn = some id → isVirtualUart config.services id) :
    (pcPeerReceive config server data).2 = handedOn server.serviceIdIn data ∧
      (pcPeerReceive config server data).1.view = server.view := by
  rw [pcPeerReceive, transportByte_plain hplain hrunning hescape]
  exact ⟨map_deliver server data hvalid, rfl⟩

theorem pcPeerReceive_escaped {data : UInt8} (hrunning : server.running = true)
    (hescape : server.gotEsc = true) (hneeds : needsEscape data = true)
    (hvalid : ∀ id, server.serviceIdIn = some id → isVirtualUart config.services id) :
    (pcPeerReceive config server (escapedByte data)).2 = handedOn server.serviceIdIn data ∧
      (pcPeerReceive config server (escapedByte data)).1.view =
        { server.view with gotEsc := false } := by
  rw [pcPeerReceive, transportByte_escaped hneeds hrunning hescape]
  exact ⟨map_deliver server data hvalid, rfl⟩

theorem pcPeerReceive_force {id : ℕ} {bytes : List UInt8} (hrunning : server.running = true)
    (hout : server.view.serviceOut = some id) (hlast : server.view.lastSent = some bytes) :
    (pcPeerReceive config server sermuxForceSidChar).2 = (UInt8.ofNat id :: bytes).map .reply ∧
      (pcPeerReceive config server sermuxForceSidChar).1.view =
        { server.view with lastSent := none } := by
  have hservice : ¬ (sermuxServiceIdFirst ≤ sermuxForceSidChar.toNat ∧
      sermuxForceSidChar.toNat ≤ sermuxServiceIdLast) := by decide
  have hne : sermuxForceSidChar ≠ sermuxEscapeChar := by decide
  obtain ⟨lastSent, hsome, rfl⟩ := Option.map_eq_some_iff.mp hlast
  have hid : server.serviceIdOut = some id := hout
  rw [pcPeerReceive, transportByte, if_neg (not_not_intro hrunning), if_pos hne, if_neg hservice,
    if_pos rfl, hsome]
  refine ⟨?_, rfl⟩
  simp only [resend, hid, Option.map_some, Option.getD_some, List.map_map]
  rfl

/-- The PC is an end of the link. -/
def pcPeer (config : MuxConfig) (hservices : config.services ≤ sermuxServiceMax) :
    Peer config.services MuxServer Source where
  send := pcPeerSend config
  receive := pcPeerReceive config
  service := serviceOf config
  admits := Admits config
  view := MuxServer.view
  valid := fun _ hadmits ↦ isVirtualUart_serviceOf hadmits
  wire_send := fun server source data _ ↦ wire_pcPeerSend config server source data
  view_send := fun server source data _ ↦ view_pcPeerSend config server source data
  receive_service := fun _ _ hrunning hid ↦ pcPeerReceive_service hservices hrunning hid
  receive_escape := fun _ hrunning ↦ pcPeerReceive_escape hrunning
  receive_plain := fun _ _ hrunning hescape hplain hvalid ↦
    pcPeerReceive_plain hrunning hescape hplain hvalid
  receive_escaped := fun _ _ hrunning hescape hneeds hvalid ↦
    pcPeerReceive_escaped hrunning hescape hneeds hvalid
  receive_force := fun _ _ _ hrunning hout hlast ↦ pcPeerReceive_force hrunning hout hlast

end Pc

end Elua.Sermux
