import Elua.Foundation.TransitionSystem
import Elua.Uip.AppCall
import Mathlib.Algebra.Order.Ring.Int

/-!
# Sending on a socket

A call of `elua_net_send` with the events of uIP that come while it waits. In flight is the chunk
that was sent last and is not confirmed. An acknowledge event confirms it as a whole, a chunk is cut
to the segment size in force when it is sent, and what is sent again replaces it.

An acknowledge event does not tell how much it confirms. The code counts the smaller of what is left
and the segment size of this moment. `deliveredExactly_iff`: if at every acknowledge event the chunk
in flight is the wire form of as many bytes, then a call that ends without an error has delivered
the wire form of its buffer. The number it returns leaves out the carriage returns that the telnet
socket puts before newlines. -/

set_option autoImplicit false
set_option relaxedAutoImplicit false

namespace Elua.Uip

open Foundation TransitionSystem

/-! ### The system -/

/-- A call of `elua_net_send` on a socket that is idle, with a buffer of at least as many bytes as
the call is to send. -/
structure SendRequest where
  config : Config
  services : Services
  active : Bool
  sockno : ℕ
  conn : Connection
  socket : SocketState
  memory : List UInt8
  len : ℤ
  idle : socket.state = .idle
  len_range : -2 ^ 15 ≤ len ∧ len < 2 ^ 15
  len_le : len ≤ memory.length

/-- The bytes to send. -/
def SendRequest.content (request : SendRequest) : List UInt8 :=
  request.memory.take request.len.toNat

/-- The request is on the telnet socket. -/
def SendRequest.telnet (request : SendRequest) : Bool :=
  request.services.isTelnet request.config request.sockno

/-- What some bytes are on the wire: on the telnet socket there is a carriage return before each
newline. -/
def SendRequest.wire (request : SendRequest) (data : List UInt8) : List UInt8 :=
  if request.telnet then telnetPrepSend data else data

/-- The call, the chunk in flight, what has been confirmed, and what the call has returned. -/
structure SendRun where
  app : AppState
  inFlight : List UInt8
  confirmed : List UInt8
  result : Option ℤ
  deriving DecidableEq

/-- An event of uIP, with the value of `uip_mss()`, or the end of the call. -/
inductive SendEvent
  | uip (mss : ℕ) (event : Event)
  | returns
  deriving DecidableEq

/-- The start of the call. -/
def SendRequest.start (request : SendRequest) : SendRun :=
  let app : SocketState → AppState := fun socket ↦
    ⟨request.services, request.conn, socket, ⟨false, request.memory, false⟩⟩
  match eluaNetSend request.config request.services request.active request.sockno request.len with
  | .returns value => ⟨app request.socket, [], [], some value⟩
  | .waits socket => ⟨app socket, [], [], none⟩

/-- What uIP sets before it calls the application. -/
def AppState.withMss (app : AppState) (mss : ℕ) : AppState :=
  { app with conn := { app.conn with mss := mss, sent := [] } }

/-- What uIP does with an event: it calls the application, and sends what this asks for. -/
def SendRequest.deliver (request : SendRequest) (run : SendRun) (mss : ℕ) (event : Event) :
    SendRun :=
  let app := eluaUipAppcall request.config request.sockno event (run.app.withMss mss)
  { run with
    app := app
    confirmed := if event.acked then run.confirmed ++ run.inFlight else run.confirmed
    inFlight := if app.conn.sent ≠ [] then app.conn.sent.take mss
      else if event.acked then [] else run.inFlight }

/-- One event. Only a chunk in flight is acknowledged. -/
def SendRequest.step (request : SendRequest) (run : SendRun) : SendEvent → Option SendRun
  | .uip mss event =>
    if event.connected ∨ (event.acked ∧ run.inFlight = []) then none
    else some (request.deliver run mss event)
  | .returns =>
    if run.app.socket.state = .idle ∧ run.result = none then
      some { run with result := some (request.len - run.app.socket.len) }
    else none

/-- The runs of the call. -/
def sendSystem (request : SendRequest) : TransitionSystem SendRun SendEvent :=
  ofFunction (fun run ↦ run = request.start) request.step

/-- The bytes that are left. -/
def SendRun.rest (run : SendRun) : List UInt8 :=
  segment run.app.buffer.bytes run.app.socket.ptr.toNat run.app.socket.len.toNat

/-- While the call waits, the chunk in flight is the wire form of the bytes that an acknowledge
event counts, and on the telnet socket the wire form of what is left fits the buffer of uIP. -/
def SendRequest.Matching (request : SendRequest) (run : SendRun) : SendEvent → Prop
  | .returns => True
  | .uip mss event => run.app.socket.state = .send ∧ ¬ event.fails →
    (event.acked → run.inFlight = request.wire (run.rest.take mss)) ∧
      (request.telnet → (telnetPrepSend run.rest).length ≤ request.config.appdataSize)

instance (request : SendRequest) (run : SendRun) (event : SendEvent) :
    Decidable (request.Matching run event) :=
  match event with
  | .returns => .isTrue trivial
  | .uip mss event => inferInstanceAs (Decidable (run.app.socket.state = .send ∧ ¬ event.fails →
      (event.acked → run.inFlight = request.wire (run.rest.take mss)) ∧
        (request.telnet → (telnetPrepSend run.rest).length ≤ request.config.appdataSize)))

/-- The call has returned a value, without an error. -/
def SendRequest.EndsWell (request : SendRequest) (run : SendRun) (value : ℤ) : Prop :=
  run.result = some value ∧ value ≠ -1 ∧ (request.len ≠ 0 → run.app.socket.res = errOk)

/-- What the caller relies on: the bytes have been delivered once and in order, and the value is
their number. -/
def SendRequest.DeliveredExactly (request : SendRequest) (run : SendRun) (value : ℤ) : Prop :=
  run.confirmed = request.wire request.content ∧ value = run.confirmed.length

/-! ### The wire form -/

theorem telnetPrepSend_append (first second : List UInt8) :
    telnetPrepSend (first ++ second) = telnetPrepSend first ++ telnetPrepSend second :=
  List.flatMap_append

/-- A part of some data is not longer on the wire. -/
theorem length_telnetPrepSend_drop_le (data : List UInt8) (count : ℕ) :
    (telnetPrepSend (data.drop count)).length ≤ (telnetPrepSend data).length := by
  conv => rhs; rw [← List.take_append_drop count data, telnetPrepSend_append, List.length_append]
  exact Nat.le_add_left _ _

/-- There is one byte more for each newline. -/
theorem length_telnetPrepSend (data : List UInt8) :
    (telnetPrepSend data).length = data.length + data.count 10 := by
  induction data with
  | nil => rfl
  | cons byte data ih =>
    rw [telnetPrepSend, List.flatMap_cons, List.length_append, ← telnetPrepSend, ih]
    by_cases hbyte : byte = 10
    · rw [if_pos hbyte, hbyte, List.count_cons_self, List.length_cons]
      simp only [List.length_cons, List.length_nil]
      omega
    · rw [if_neg hbyte, List.count_cons_of_ne hbyte]
      simp only [List.length_cons, List.length_nil]
      omega

variable {request : SendRequest} {run after : SendRun}

theorem SendRequest.wire_append (first second : List UInt8) :
    request.wire (first ++ second) = request.wire first ++ request.wire second := by
  unfold SendRequest.wire
  split_ifs
  · exact telnetPrepSend_append first second
  · rfl

@[simp] theorem SendRequest.wire_nil : request.wire [] = [] := by
  unfold SendRequest.wire
  split_ifs <;> rfl

/-- The wire form is as long as the data unless there is a newline on the telnet socket. -/
theorem SendRequest.length_wire_eq_iff (data : List UInt8) :
    (request.wire data).length = data.length ↔ (request.telnet → 10 ∉ data) := by
  unfold SendRequest.wire
  split_ifs with htelnet
  · rw [length_telnetPrepSend, ← List.count_eq_zero]
    constructor
    · intro hlength _
      omega
    · intro hcount
      rw [hcount htelnet, Nat.add_zero]
  · exact ⟨fun _ hyes ↦ absurd hyes htelnet, fun _ ↦ rfl⟩

/-! ### Transmission -/

section Transmission

variable {config : Config} {sockno : ℕ} {app : AppState}

@[simp] theorem transmit_services : (transmit config sockno app).services = app.services := by
  unfold transmit
  split_ifs <;> rfl

@[simp] theorem transmit_socket : (transmit config sockno app).socket = app.socket := by
  unfold transmit
  split_ifs <;> rfl

/-- The buffer of the call is left alone, and so is what stands behind that of uIP. -/
theorem transmit_buffer
    (hfits : app.services.isTelnet config sockno →
      (telnetPrepSend (segment app.buffer.bytes app.socket.ptr.toNat app.socket.len.toNat)).length ≤
        config.appdataSize) :
    (transmit config sockno app).buffer = app.buffer := by
  unfold transmit
  split_ifs with htelnet
  · simp only [decide_eq_false (Nat.not_lt.mpr (hfits htelnet)), Bool.or_false]
  · rfl

end Transmission

/-! ### The stages of a call -/

/-- The call waits, and as many bytes have been counted. -/
structure SendRequest.Sending (request : SendRequest) (run : SendRun) (count : ℕ) : Prop where
  len_ne : request.len ≠ 0
  configured : run.app.services.configured
  telnet : run.app.services.isTelnet request.config request.sockno = request.telnet
  state : run.app.socket.state = .send
  res : run.app.socket.res = errOk
  ptr : run.app.socket.ptr = count
  len : run.app.socket.len = request.len - count
  count_le : count ≤ request.len.toNat
  buffer : run.app.buffer = ⟨false, request.memory, false⟩
  result : run.result = none
  confirmed : run.confirmed = request.wire (request.content.take count)
  inFlight : request.len < 0 → run.inFlight = []

/-- Everything has been counted. -/
structure SendRequest.Sent (request : SendRequest) (run : SendRun) : Prop where
  state : run.app.socket.state = .idle
  len : run.result = none → run.app.socket.len = 0
  result : ∀ value, run.result = some value → value = request.len
  len_eq : request.len = request.content.length
  confirmed : run.confirmed = request.wire request.content
  inFlight : run.inFlight = []

/-- The call has been refused, or an error has ended it. -/
structure SendRequest.Failed (request : SendRequest) (run : SendRun) : Prop where
  state : run.app.socket.state = .idle
  failed : run.result = some (-1) ∨ request.len ≠ 0 ∧ run.app.socket.res ≠ errOk

/-- What holds in every state. -/
inductive SendRequest.Stage (request : SendRequest) (run : SendRun) : Prop
  | sending (count : ℕ) (hsending : request.Sending run count)
  | sent (hsent : request.Sent run)
  | failed (hfailed : request.Failed run)

/-- The content is as long as the call says. -/
theorem SendRequest.length_content (request : SendRequest) :
    request.content.length = request.len.toNat := by
  have hle := request.len_le
  rw [content, List.length_take]
  omega

/-- The bytes behind some count. -/
theorem SendRequest.segment_memory (request : SendRequest) (count : ℕ) :
    segment request.memory (count : ℤ).toNat (request.len - count).toNat =
      request.content.drop count := by
  rw [Int.toNat_natCast, Foundation.segment, SendRequest.content, List.drop_take]
  congr 1
  omega

/-- What is left is the content behind what has been counted. -/
theorem SendRequest.Sending.rest_eq {count : ℕ} (hsending : request.Sending run count) :
    run.rest = request.content.drop count := by
  rw [SendRun.rest, hsending.buffer, hsending.ptr, hsending.len, request.segment_memory]

/-- The call begins. -/
theorem SendRequest.stage_start (request : SendRequest) : request.Stage request.start := by
  unfold SendRequest.start eluaNetSend
  by_cases hok : ¬ isSockOk request.config request.services request.sockno ∨ ¬ request.active
  · rw [if_pos hok]
    exact .failed ⟨request.idle, .inl rfl⟩
  · rw [if_neg hok]
    by_cases hlen : request.len = 0
    · have hempty : request.content = [] :=
        List.length_eq_zero_iff.mp (by rw [request.length_content, hlen, Int.toNat_zero])
      rw [if_pos hlen]
      refine .sent ⟨request.idle, fun hnone ↦ (nomatch hnone), fun value hvalue ↦ ?_, ?_, ?_, rfl⟩
      · rw [hlen]
        exact (Option.some.inj hvalue).symm
      · rw [hlen, hempty, List.length_nil, Nat.cast_zero]
      · rw [hempty, wire_nil]
    · rw [if_neg hlen]
      push Not at hok
      have hconfigured : request.services.configured := by
        have hand := hok.1
        rw [isSockOk, Bool.and_eq_true] at hand
        exact hand.1
      exact .sending 0 ⟨hlen, hconfigured, rfl, rfl, rfl, rfl, by simp [prepSocketState], by omega,
        rfl, rfl, by simp, fun _ ↦ rfl⟩

/-- An event on an idle socket counts nothing. -/
theorem SendRequest.deliver_of_idle {mss : ℕ} {event : Event} (hconnected : ¬ event.connected)
    (hidle : run.app.socket.state = .idle) :
    request.deliver run mss event =
      { run with
        app := run.app.withMss mss
        confirmed := if event.acked then run.confirmed ++ run.inFlight else run.confirmed
        inFlight := if event.acked then [] else run.inFlight } := by
  have hcall : eluaUipAppcall request.config request.sockno event (run.app.withMss mss) =
      run.app.withMss mss := eluaUipAppcall_of_idle hconnected hidle
  unfold SendRequest.deliver
  rw [hcall]
  rfl

theorem SendRequest.Sent.deliver {mss : ℕ} {event : Event} (hsent : request.Sent run)
    (hconnected : ¬ event.connected) (hacked : ¬ event.acked) :
    request.Sent (request.deliver run mss event) := by
  rw [deliver_of_idle hconnected hsent.state, if_neg hacked, if_neg hacked]
  exact ⟨hsent.state, hsent.len, hsent.result, hsent.len_eq, hsent.confirmed, hsent.inFlight⟩

theorem SendRequest.Failed.deliver {mss : ℕ} {event : Event} (hfailed : request.Failed run)
    (hconnected : ¬ event.connected) : request.Failed (request.deliver run mss event) := by
  rw [deliver_of_idle hconnected hfailed.state]
  exact ⟨hfailed.state, hfailed.failed⟩

/-- A send leaves the services, the socket and the buffer alone. -/
theorem sendCall_of_not_acked {config : Config} {sockno : ℕ} {event : Event} {app : AppState}
    (hacked : ¬ event.acked) :
    sendCall config sockno event app =
      if 0 < app.socket.len then transmit config sockno app else app := by
  unfold sendCall
  simp only [if_neg hacked]

/-- An acknowledge event counts, and then the call is over or sends what is left. -/
theorem sendCall_of_acked {config : Config} {sockno : ℕ} {event : Event} {app : AppState}
    (hacked : event.acked) :
    sendCall config sockno event app =
      if 0 < (ackedSocket app.conn app.socket).len then
        transmit config sockno { app with socket := ackedSocket app.conn app.socket }
      else { app with socket := ackedSocket app.conn app.socket } := by
  unfold sendCall
  simp only [if_pos hacked]

namespace SendRequest.Sending

variable {count mss : ℕ} {event : Event}

/-- An error ends the call. -/
theorem deliver_of_fails (hsending : request.Sending run count) (hconnected : ¬ event.connected)
    (hfails : event.fails) : request.Failed (request.deliver run mss event) := by
  have happ : (request.deliver run mss event).app =
      errorCall request.config request.sockno event (run.app.withMss mss) :=
    eluaUipAppcall_of_fails hsending.configured hconnected hfails (.inl hsending.state)
  refine ⟨by rw [happ]; rfl, .inr ⟨hsending.len_ne, ?_⟩⟩
  rw [happ]
  simp only [errorCall]
  split_ifs <;> decide

/-- What the application does while the call waits. -/
theorem deliver_app (hsending : request.Sending run count) (mss : ℕ)
    (hconnected : ¬ event.connected) (hfails : ¬ event.fails) :
    (request.deliver run mss event).app =
      if event.acked ∨ event.rexmit ∨ event.poll then
        sendCall request.config request.sockno event (run.app.withMss mss)
      else if event.newdata then
        { run.app.withMss mss with conn := (run.app.withMss mss).conn.stop }
      else run.app.withMss mss :=
  eluaUipAppcall_of_send hsending.configured hconnected hfails hsending.state

/-- Without an acknowledgement nothing is counted. -/
theorem deliver_of_not_acked (hsending : request.Sending run count)
    (hconnected : ¬ event.connected) (hfails : ¬ event.fails) (hacked : ¬ event.acked)
    (hfits : request.telnet → (telnetPrepSend run.rest).length ≤ request.config.appdataSize) :
    request.Sending (request.deliver run mss event) count := by
  have happ := hsending.deliver_app mss hconnected hfails
  rw [sendCall_of_not_acked hacked] at happ
  have hservices : (request.deliver run mss event).app.services = run.app.services := by
    rw [happ]
    split_ifs <;> first | rfl | exact transmit_services
  have hsocket : (request.deliver run mss event).app.socket = run.app.socket := by
    rw [happ]
    split_ifs <;> first | rfl | exact transmit_socket
  have hbuffer : (request.deliver run mss event).app.buffer = run.app.buffer := by
    rw [happ]
    split_ifs
    · exact transmit_buffer fun htelnet ↦ hfits (hsending.telnet ▸ htelnet)
    all_goals rfl
  refine ⟨hsending.len_ne, hservices ▸ hsending.configured, hservices ▸ hsending.telnet,
    hsocket ▸ hsending.state, hsocket ▸ hsending.res, hsocket ▸ hsending.ptr,
    hsocket ▸ hsending.len, hsending.count_le, hbuffer ▸ hsending.buffer, hsending.result,
    ?_, fun hneg ↦ ?_⟩
  · exact (if_neg hacked).trans hsending.confirmed
  · have hlen : ¬ 0 < (run.app.withMss mss).socket.len := by
      show ¬ 0 < run.app.socket.len
      rw [hsending.len]
      omega
    have hsent : (request.deliver run mss event).app.conn.sent = [] := by
      rw [happ, if_neg hlen]
      split_ifs <;> rfl
    show (if (request.deliver run mss event).app.conn.sent ≠ [] then _ else _) = _
    rw [hsent, if_neg (not_not.mpr rfl), if_neg hacked]
    exact hsending.inFlight hneg

/-- What an acknowledge event counts. -/
theorem ackedSocket_eq (hsending : request.Sending run count) {counted : ℕ}
    (hcounted : counted = count + min (request.len.toNat - count) mss) (hlen : 0 ≤ request.len) :
    ackedSocket (run.app.withMss mss).conn (run.app.withMss mss).socket =
      { run.app.socket with
        len := request.len - counted
        ptr := counted
        state := if counted = request.len.toNat then .idle else .send } := by
  have hcount := hsending.count_le
  have hminlen : min run.app.socket.len mss = counted - count := by
    rw [hsending.len]
    omega
  have hacked : ackedSocket (run.app.withMss mss).conn (run.app.withMss mss).socket =
      { run.app.socket with
        len := run.app.socket.len - min run.app.socket.len mss
        ptr := run.app.socket.ptr + min run.app.socket.len mss
        state := if run.app.socket.len - min run.app.socket.len mss = 0 then .idle
          else run.app.socket.state } := rfl
  have hzero : request.len - count - (counted - count) = 0 ↔ counted = request.len.toNat := by
    omega
  rw [hacked, hminlen, hsending.len, hsending.ptr, hsending.state, if_congr hzero rfl rfl,
    sub_sub_sub_cancel_right, add_sub_cancel]

/-- If an acknowledge event counts what it confirms, then the call goes on or is over. -/
theorem deliver_of_acked (hsending : request.Sending run count)
    (hconnected : ¬ event.connected) (hfails : ¬ event.fails) (hacked : event.acked)
    (hflying : run.inFlight ≠ []) (hmatch : run.inFlight = request.wire (run.rest.take mss))
    (hfits : request.telnet → (telnetPrepSend run.rest).length ≤ request.config.appdataSize) :
    request.Stage (request.deliver run mss event) := by
  have hlen : 0 ≤ request.len := by
    by_contra hneg
    exact hflying (hsending.inFlight (by omega))
  have hcount := hsending.count_le
  have hcontent := request.length_content
  obtain ⟨counted, hcounted⟩ : ∃ counted, counted = count + min (request.len.toNat - count) mss :=
    ⟨_, rfl⟩
  have happ := hsending.deliver_app mss hconnected hfails
  rw [if_pos (.inl hacked), sendCall_of_acked hacked, hsending.ackedSocket_eq hcounted hlen] at happ
  have hconfirmed : (request.deliver run mss event).confirmed =
      request.wire (request.content.take counted) := by
    have htake : run.rest.take mss = (request.content.drop count).take
        (min (request.len.toNat - count) mss) := by
      rw [hsending.rest_eq, List.take_eq_take_min, List.length_drop, hcontent, min_comm]
    show (if event.acked then run.confirmed ++ run.inFlight else run.confirmed) = _
    rw [if_pos hacked, hsending.confirmed, hmatch, ← wire_append, htake, ← List.take_add, hcounted]
  by_cases hall : counted = request.len.toNat
  · rw [if_neg (by show ¬ (0 : ℤ) < request.len - counted; omega), if_pos hall] at happ
    refine .sent ⟨by rw [happ], fun _ ↦ ?_, fun value hvalue ↦ ?_, by omega, ?_, ?_⟩
    · rw [happ]
      show request.len - counted = 0
      omega
    · have hnone : (request.deliver run mss event).result = none := hsending.result
      rw [hnone] at hvalue
      cases hvalue
    · rw [hconfirmed, List.take_of_length_le (by omega)]
    · show (if (request.deliver run mss event).app.conn.sent ≠ [] then _ else _) = _
      rw [happ, if_pos hacked]
      exact if_neg (not_not.mpr rfl)
  · have hlt : counted < request.len.toNat := by omega
    rw [if_pos (by show (0 : ℤ) < request.len - counted; omega), if_neg hall] at happ
    have hservices : (request.deliver run mss event).app.services = run.app.services := by
      rw [happ, transmit_services]
      rfl
    have hsocket : (request.deliver run mss event).app.socket =
        { run.app.socket with len := request.len - counted, ptr := counted, state := .send } := by
      rw [happ, transmit_socket]
    have hbuffer : (request.deliver run mss event).app.buffer = run.app.buffer := by
      rw [happ, transmit_buffer]
      · rfl
      · intro htelnet
        have hle := hfits (hsending.telnet ▸ htelnet)
        show (telnetPrepSend (segment run.app.buffer.bytes (counted : ℤ).toNat
          (request.len - counted).toNat)).length ≤ request.config.appdataSize
        rw [hsending.buffer, request.segment_memory]
        rw [hsending.rest_eq] at hle
        have hdrop := length_telnetPrepSend_drop_le (request.content.drop count) (counted - count)
        rw [List.drop_drop, Nat.add_sub_of_le (by omega)] at hdrop
        exact hdrop.trans hle
    refine .sending counted ⟨hsending.len_ne, hservices ▸ hsending.configured,
      hservices ▸ hsending.telnet, by rw [hsocket], by rw [hsocket]; exact hsending.res,
      by rw [hsocket], by rw [hsocket], by omega, hbuffer ▸ hsending.buffer, hsending.result,
      hconfirmed, fun hneg ↦ absurd hneg (by omega)⟩

end SendRequest.Sending

/-- Every permitted step keeps the stage. -/
theorem SendRequest.Stage.step {event : SendEvent} (hstage : request.Stage run)
    (hmatching : request.Matching run event) (hstep : request.step run event = some after) :
    request.Stage after := by
  cases event with
  | uip mss event =>
    simp only [SendRequest.step] at hstep
    split_ifs at hstep with hguard
    obtain rfl := Option.some.inj hstep
    rw [not_or, not_and] at hguard
    obtain ⟨hconnected, hflying⟩ := hguard
    rcases hstage with ⟨count, hsending⟩ | hsent | hfailed
    · by_cases hfails : event.fails
      · exact .failed (hsending.deliver_of_fails hconnected hfails)
      · obtain ⟨hmatch, hfits⟩ := hmatching ⟨hsending.state, hfails⟩
        by_cases hacked : event.acked
        · exact hsending.deliver_of_acked hconnected hfails hacked (hflying hacked)
            (hmatch hacked) hfits
        · exact .sending count (hsending.deliver_of_not_acked hconnected hfails hacked hfits)
    · exact .sent (hsent.deliver hconnected fun hacked ↦ hflying hacked hsent.inFlight)
    · exact .failed (hfailed.deliver hconnected)
  | returns =>
    simp only [SendRequest.step] at hstep
    split_ifs at hstep with hguard
    obtain rfl := Option.some.inj hstep
    obtain ⟨hidle, hnone⟩ := hguard
    rcases hstage with ⟨count, hsending⟩ | hsent | hfailed
    · rw [hsending.state] at hidle
      cases hidle
    · refine .sent { hsent with
        len := fun hsome ↦ (nomatch hsome)
        result := fun value hvalue ↦ ?_ }
      rw [← Option.some.inj hvalue, hsent.len hnone, sub_zero]
    · refine .failed ⟨hfailed.state, .inr (hfailed.failed.resolve_left fun hresult ↦ ?_)⟩
      rw [hnone] at hresult
      cases hresult

/-- In runs whose steps are matching, a call that ends without an error has delivered its content
once and in order. The value it returns is the number of the delivered bytes exactly if there is no
newline on the telnet socket. -/
theorem deliveredExactly_iff (request : SendRequest) {run : SendRun} {value : ℤ}
    (hreach : (sendSystem request).ReachableUnder request.Matching run)
    (hends : request.EndsWell run value) :
    run.confirmed = request.wire request.content ∧
      (request.DeliveredExactly run value ↔ (request.telnet → 10 ∉ request.content)) := by
  have hstage : request.Stage run := by
    refine hreach.invariant request.Stage ?_ ?_
    · rintro start rfl
      exact request.stage_start
    · exact fun state event after hbefore hpermitted hstep ↦ hbefore.step hpermitted hstep
  obtain ⟨hresult, hvalue, hok⟩ := hends
  rcases hstage with ⟨count, hsending⟩ | hsent | hfailed
  · rw [hsending.result] at hresult
    cases hresult
  · refine ⟨hsent.confirmed, ?_⟩
    rw [← request.length_wire_eq_iff, SendRequest.DeliveredExactly, hsent.confirmed,
      hsent.result value hresult, hsent.len_eq, Nat.cast_inj]
    exact ⟨fun hboth ↦ hboth.2.symm, fun hlength ↦ ⟨rfl, hlength.symm⟩⟩
  · rcases hfailed.failed with hrefused | ⟨hlen, herror⟩
    · rw [hresult] at hrefused
      exact absurd (Option.some.inj hrefused) hvalue
    · exact absurd (hok hlen) herror

/-- A request of three bytes on a socket that is not the telnet socket. -/
def threeBytes : SendRequest where
  config := ⟨true, true, 1460, 4, 1460⟩
  services := ⟨true, none, [], none⟩
  active := true
  sockno := 1
  conn := ⟨0, ⟨0, 0⟩, 1460, true, false, []⟩
  socket := ⟨.idle, 0, 0, 0, -1⟩
  memory := [97, 98, 99]
  len := 3
  idle := rfl
  len_range := by decide
  len_le := by decide

/-- Polled, acknowledged and over, with a segment size at the poll and one at the acknowledge
event. -/
def pollThenAck (first second : ℕ) : List SendEvent :=
  [.uip first { poll := true }, .uip second { acked := true }, .returns]

/-- The same segment size at both events. -/
theorem deliveredExactly_iff_threeBytes :
    ∃ run, run.result = some 3 ∧ threeBytes.DeliveredExactly run 3 := by
  have hpermits : PermitsEvents threeBytes.step threeBytes.Matching threeBytes.start
      (pollThenAck 3 3) := by decide
  have hstart : (sendSystem threeBytes).ReachableUnder threeBytes.Matching threeBytes.start :=
    .start rfl
  have hreach := reachableUnder_of_permitsEvents (pollThenAck 3 3) hstart hpermits rfl
  have hiff := @deliveredExactly_iff threeBytes _ 3 hreach ⟨rfl, by decide, fun _ ↦ rfl⟩
  exact ⟨_, rfl, hiff.2.mpr (by decide)⟩

/-- The segment size grows from two to three after the poll. The peer gets two bytes, and the call
returns three. -/
theorem not_deliveredExactly_grown_segment :
    ¬ ∀ (request : SendRequest) (run : SendRun) (value : ℤ), (sendSystem request).Reachable run →
      request.EndsWell run value → request.DeliveredExactly run value := by
  intro hall
  have hstart : (sendSystem threeBytes).Reachable threeBytes.start := .start rfl
  have hreach := reachableUnder_of_runEvents (fun _ _ _ hstep ↦ hstep) (pollThenAck 2 3) hstart
    (fun _ _ _ ↦ trivial) rfl
  have hdelivered := hall threeBytes _ 3 hreach ⟨rfl, by decide, fun _ ↦ rfl⟩
  exact absurd hdelivered.1 (by decide)

end Elua.Uip
