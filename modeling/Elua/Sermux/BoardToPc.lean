import Elua.Sermux.Board
import Elua.Sermux.MuxServer

/-!
# From the board to the PC

The board sends bytes for its virtual UARTs with `platform_uart_send`, and the PC's transport
decoder in plain multiplexer mode takes the stream apart. `Synchronized` relates the two ends: the
service the board last announced is the one the decoder has selected, and no escape is pending.
One sent byte keeps the ends synchronized and is handed to the right port
(`decode_platformUartSend`), so a whole stream is (`transport_decodes_board_stream`).
-/

set_option autoImplicit false
set_option relaxedAutoImplicit false

namespace Elua.Sermux

open Foundation

/-- The two ends agree on the current service, and the decoder runs with no pending escape. -/
structure Synchronized (board : SermuxBoard) (server : MuxServer) : Prop where
  service_eq : board.uartServiceIdOut = server.serviceIdIn
  gotEsc_eq : server.gotEsc = false
  running_eq : server.running = true

/-- The bytes of one call: the service id if it changes, then the encoded data byte. -/
theorem platformUartSend_wire {sermuxNumVuart id : ℕ} (hid : isVirtualUart sermuxNumVuart id)
    (board : SermuxBoard) (data : UInt8) :
    (platformUartSend sermuxNumVuart board id data).2 =
      (if some id ≠ board.uartServiceIdOut then [UInt8.ofNat id] else []) ++ encodedData data := by
  rw [platformUartSend, if_pos hid, encodedData]
  split_ifs <;> rfl

/-- After a call the board's current service is the one it sent for. -/
theorem platformUartSend_serviceIdOut {sermuxNumVuart id : ℕ}
    (hid : isVirtualUart sermuxNumVuart id) (board : SermuxBoard) (data : UInt8) :
    (platformUartSend sermuxNumVuart board id data).1.uartServiceIdOut = some id := by
  rw [platformUartSend, if_pos hid]
  split_ifs <;> rfl

variable {config : MuxConfig} {server : MuxServer}

/-- The announcement of a service, made only when it changes, selects that service. -/
theorem decode_announcement {id : ℕ} (hfirst : sermuxServiceIdFirst ≤ id)
    (hlast : id ≤ sermuxServiceIdLast) (hrunning : server.running = true) :
    runTransducer (transportByte config) server
        (if some id ≠ server.serviceIdIn then [UInt8.ofNat id] else []) =
      ({ server with serviceIdIn := some id }, []) := by
  split_ifs with hchange
  · rw [runTransducer_cons_of (transportByte_service hfirst hlast hrunning)]
    rfl
  · rw [runTransducer_nil, not_not.mp hchange]

/-- The encoding of a data byte is passed on as that byte. -/
theorem decode_encodedData (hrunning : server.running = true) (hescape : server.gotEsc = false)
    (data : UInt8) :
    runTransducer (transportByte config) server (encodedData data) =
      (server, deliver config server data) := by
  rw [encodedData]
  split_ifs with hneeds
  · rw [runTransducer_cons_of (transportByte_escape hrunning), runTransducer_cons_of
      (@transportByte_escaped config { server with gotEsc := true } data hneeds hrunning rfl)]
    simp only [runTransducer_nil, List.nil_append, List.append_nil, ← hescape]
    rfl
  · rw [runTransducer_cons_of
      (transportByte_plain (Bool.not_eq_true _ ▸ hneeds) hrunning hescape)]
    simp

/-- One byte sent for a virtual UART reaches the port of that UART, and the ends stay
synchronized. -/
theorem decode_platformUartSend {sermuxNumVuart : ℕ} (hmax : sermuxNumVuart ≤ sermuxServiceMax)
    (hmode : config.muxMode = .mux) {board : SermuxBoard} (hsync : Synchronized board server)
    {id : ℕ} (hid : isVirtualUart sermuxNumVuart id) (data : UInt8) :
    (runTransducer (transportByte config) server
        (platformUartSend sermuxNumVuart board id data).2).2 =
      [.toPort (id - sermuxServiceIdFirst) data] ∧
    Synchronized (platformUartSend sermuxNumVuart board id data).1
      (runTransducer (transportByte config) server
        (platformUartSend sermuxNumVuart board id data).2).1 := by
  have hlast : id ≤ sermuxServiceIdLast := by
    have hbound := hid.2
    simp only [sermuxServiceMax, sermuxServiceIdFirst, sermuxServiceIdLast] at *
    omega
  have hdecoded : runTransducer (transportByte config) server
      (platformUartSend sermuxNumVuart board id data).2 =
        ({ server with serviceIdIn := some id }, [.toPort (id - sermuxServiceIdFirst) data]) := by
    rw [platformUartSend_wire hid, runTransducer_append, hsync.service_eq,
      decode_announcement hid.1 hlast hsync.running_eq]
    rw [@decode_encodedData config { server with serviceIdIn := some id } hsync.running_eq
      hsync.gotEsc_eq]
    simp [deliver, MuxConfig.rfsServiceId, MuxConfig.serviceOffset, hmode]
  rw [hdecoded]
  exact ⟨rfl, platformUartSend_serviceIdOut hid board data, hsync.gotEsc_eq, hsync.running_eq⟩

/-- Every stream of bytes the board sends for its virtual UARTs from the initial state is handed
out by the decoder in plain multiplexer mode, byte for byte in order, each byte to the port of its
UART, with no protocol error and no request for the service id. -/
theorem transport_decodes_board_stream (sermuxNumVuart : ℕ)
    (hmax : sermuxNumVuart ≤ sermuxServiceMax) (config : MuxConfig)
    (hmode : config.muxMode = .mux) (hports : sermuxNumVuart ≤ config.vportNum)
    (server : MuxServer) (hservice : server.serviceIdIn = none) (hescape : server.gotEsc = false)
    (hrunning : server.running = true) (traffic : List (ℕ × UInt8))
    (hids : ∀ item ∈ traffic, isVirtualUart sermuxNumVuart item.1) :
    (runTransducer (transportByte config) server
        (runTransducer (fun board item ↦ platformUartSend sermuxNumVuart board item.1 item.2)
          .initial traffic).2).2 =
      traffic.map (fun item ↦ .toPort (item.1 - sermuxServiceIdFirst) item.2) ∧
    ∀ item ∈ traffic, item.1 - sermuxServiceIdFirst < config.vportNum := by
  constructor
  · have hstart : Synchronized .initial server := ⟨hservice.symm, hescape, hrunning⟩
    rw [decode_encode Synchronized
      (fun item ↦ [MuxEffect.toPort (item.1 - sermuxServiceIdFirst) item.2])
      (fun item ↦ isVirtualUart sermuxNumVuart item.1)
      (fun board server item hsync hid ↦ decode_platformUartSend hmax hmode hsync hid item.2)
      traffic hids hstart]
    exact List.flatMap_pure_eq_map _ traffic
  · intro item hitem
    obtain ⟨hfirst, hbound⟩ := hids item hitem
    omega

/-- Two services that send a service id, an escape character and a plain byte. -/
theorem transport_decodes_two_services :
    (runTransducer (transportByte ⟨.mux, 2⟩) .initial
        (runTransducer (fun board item ↦ platformUartSend 2 board item.1 item.2)
          .initial [(0xD0, 0xD1), (0xD1, 0xC0), (0xD1, 0x41)]).2).2 =
      [.toPort 0 0xD1, .toPort 1 0xC0, .toPort 1 0x41] :=
  (transport_decodes_board_stream 2 (by decide) ⟨.mux, 2⟩ rfl (by decide) .initial rfl rfl rfl
    [(0xD0, 0xD1), (0xD1, 0xC0), (0xD1, 0x41)] (by decide)).1

end Elua.Sermux
