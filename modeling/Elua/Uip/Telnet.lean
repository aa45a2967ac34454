import Elua.Foundation.Transducer
import Elua.Uip.Reading

/-!
# The telnet filter

`telnetText` is the text of a telnet stream: the stream without its control sequences, which carries
its phase from byte to byte. The filter of the code looks at each packet on its own.

`telnet_filtered`: in runs whose packets are `Filterable`, what the requests have given out is the
text of the stream. A packet is not filterable if it comes when no request takes it, ends within a
control sequence, escapes the byte 255, negotiates a suboption, or holds more text than the request
takes. In all runs, a request for raw memory never stores past its length. -/

set_option autoImplicit false
set_option relaxedAutoImplicit false

namespace Elua.Uip

open Foundation TransitionSystem

variable {config : Config} {sockno : ℕ}

/-! ### The text of a stream -/

/-- `TELNET_SB_CHAR`. -/
def telnetSb : UInt8 := 250

/-- `TELNET_SE_CHAR`. -/
def telnetSe : UInt8 := 240

/-- Where in the stream a byte stands: in the data, behind the escape character, in place of the
option of a command, in a suboption, or behind the escape character in a suboption. -/
inductive TelnetPhase
  | data
  | command
  | option
  | suboption
  | suboptionCommand
  deriving DecidableEq, Repr

/-- What a byte of the stream adds to its text. -/
def telnetByte : TelnetPhase → UInt8 → TelnetPhase × List UInt8
  | .data, byte => if byte = telnetIac then (.command, []) else (.data, [byte])
  | .command, byte =>
    if byte = telnetIac then (.data, [telnetIac])
    else if byte = telnetEof then (.data, [ctrlZ])
    else if isThreeBytes byte then (.option, [])
    else if byte = telnetSb then (.suboption, [])
    else (.data, [])
  | .option, _ => (.data, [])
  | .suboption, byte => (if byte = telnetIac then .suboptionCommand else .suboption, [])
  | .suboptionCommand, byte => (if byte = telnetSe then .data else .suboption, [])

/-- The text of a stream. -/
def telnetText (stream : List UInt8) : List UInt8 := (runTransducer telnetByte .data stream).2

/-- The packet consists of data and of complete control sequences, without an escaped 255 and
without suboptions. -/
def isWhole : List UInt8 → Bool
  | [] => true
  | byte :: rest =>
    if byte ≠ telnetIac then isWhole rest
    else
      match rest with
      | [] => false
      | command :: rest =>
        if isThreeBytes command then
          match rest with
          | [] => false
          | _ :: rest => isWhole rest
        else command ≠ telnetIac && command ≠ telnetSb && isWhole rest

/-! ### Filtering a packet -/

/-- No more is stored than there is room for. -/
theorem length_telnetScan_le (behind : UInt8) (room skip : ℕ) (data : List UInt8) :
    (telnetScan behind room skip data).length ≤ room := by
  fun_induction telnetScan behind room skip data with
  | case1 => exact Nat.zero_le _
  | case2 _ _ _ _ ih => exact ih
  | case3 => exact Nat.zero_le _
  | case4 _ _ _ _ ih => exact Nat.succ_le_succ ih
  | case5 _ _ _ _ _ ih => exact ih
  | case6 _ _ _ _ _ _ ih => exact Nat.succ_le_succ ih
  | case7 _ _ _ _ _ _ ih => exact ih

/-- Without room nothing is stored. -/
theorem telnetScan_zero (behind : UInt8) (skip : ℕ) (data : List UInt8) :
    telnetScan behind 0 skip data = [] :=
  List.length_eq_zero_iff.mp (Nat.le_zero.mp (length_telnetScan_le behind 0 skip data))

/-- What the filter makes of a packet, if there is room for its text. -/
def FiltersTo (behind : UInt8) (data : List UInt8) : Prop :=
  ∀ room, (telnetText data).length ≤ room →
    telnetScan behind room 0 data = telnetText data ∧
      (runTransducer telnetByte .data data).1 = .data

/-- A data byte or a complete control sequence in front of what the filter gets right. -/
theorem FiltersTo.append {behind : UInt8} {item rest text : List UInt8}
    (hrest : FiltersTo behind rest) (hitem : runTransducer telnetByte .data item = (.data, text))
    (hscan : ∀ room, telnetScan behind (room + text.length) 0 (item ++ rest) =
      text ++ telnetScan behind room 0 rest) : FiltersTo behind (item ++ rest) := by
  intro room hroom
  have htext : telnetText (item ++ rest) = text ++ telnetText rest := by
    rw [telnetText, runTransducer_append, hitem, telnetText]
  rw [htext, List.length_append] at hroom
  obtain ⟨hstored, hphase⟩ := hrest (room - text.length) (by omega)
  constructor
  · rw [htext, ← hstored, ← hscan, Nat.sub_add_cancel (by omega)]
  · rw [runTransducer_append, hitem]
    exact hphase

/-- The escape character. -/
theorem telnetByte_iac : telnetByte .data telnetIac = (.command, []) := rfl

/-- A control sequence that adds nothing to the text. -/
theorem FiltersTo.append_control {behind command : UInt8} {rest : List UInt8}
    (hrest : FiltersTo behind rest) (options : List UInt8)
    (hitem : runTransducer telnetByte .data (telnetIac :: command :: options) = (.data, []))
    (hscan : ∀ room, telnetScan behind (room + 1) 0 (telnetIac :: command :: (options ++ rest)) =
      telnetScan behind (room + 1) 0 rest) :
    FiltersTo behind (telnetIac :: command :: (options ++ rest)) := by
  refine hrest.append hitem fun room ↦ ?_
  cases room with
  | zero => simp only [List.length_nil, Nat.add_zero, telnetScan_zero, List.append_nil]
  | succ room => exact hscan room

/-- The filter gives the text of a whole packet if there is room for it, and the stream goes on with
data. -/
theorem filtersTo_of_isWhole (behind : UInt8) {data : List UInt8} (hwhole : isWhole data) :
    FiltersTo behind data := by
  fun_induction isWhole data with
  | case1 => exact fun _ _ ↦ ⟨by rw [telnetScan]; rfl, rfl⟩
  | case2 byte rest hbyte ih =>
    have hitem : runTransducer telnetByte .data [byte] = (.data, [byte]) := by
      rw [runTransducer_cons_of (if_neg hbyte)]
      rfl
    exact (ih hwhole).append hitem fun room ↦ by
      rw [List.cons_append, List.nil_append, List.length_singleton, telnetScan, if_pos hbyte]
      rfl
  | case3 => cases hwhole
  | case4 => cases hwhole
  | case5 byte hbyte command hthree option rest ih =>
    obtain rfl := not_not.mp hbyte
    have hiac : command ≠ telnetIac := fun heq ↦ absurd (heq ▸ hthree) (by decide)
    have heof : command ≠ telnetEof := fun heq ↦ absurd (heq ▸ hthree) (by decide)
    have hcommand : telnetByte .command command = (.option, []) := by
      rw [telnetByte, if_neg hiac, if_neg heof, if_pos hthree]
    have hitem : runTransducer telnetByte .data [telnetIac, command, option] = (.data, []) := by
      rw [runTransducer_cons_of telnetByte_iac, runTransducer_cons_of hcommand]
      rfl
    exact (ih hwhole).append_control [option] hitem fun room ↦ by
      rw [telnetScan, if_neg (not_not.mpr rfl), List.headD_cons, if_pos hthree]
      rfl
  | case6 byte hbyte command rest hthree ih =>
    obtain rfl := not_not.mp hbyte
    simp only [Bool.and_eq_true, decide_eq_true_eq] at hwhole
    obtain ⟨⟨hiac, hsb⟩, hrest⟩ := hwhole
    by_cases heof : command = telnetEof
    · subst heof
      have hitem : runTransducer telnetByte .data [telnetIac, telnetEof] = (.data, [ctrlZ]) := rfl
      exact (ih hrest).append hitem fun room ↦ by
        rw [List.cons_append, List.cons_append, List.nil_append, List.length_singleton, telnetScan,
          if_neg (not_not.mpr rfl), List.headD_cons, if_neg hthree, if_pos rfl]
        rfl
    · have hcommand : telnetByte .command command = (.data, []) := by
        rw [telnetByte, if_neg hiac, if_neg heof, if_neg hthree, if_neg hsb]
      have hitem : runTransducer telnetByte .data [telnetIac, command] = (.data, []) := by
        rw [runTransducer_cons_of telnetByte_iac, runTransducer_cons_of hcommand]
        rfl
      exact (ih hrest).append_control [] hitem fun room ↦ by
        rw [List.nil_append, telnetScan, if_neg (not_not.mpr rfl), List.headD_cons, if_neg hthree,
          if_neg heof]
        rfl

/-! ### Requests on the console socket -/

/-- A step on the telnet socket: the data of a stream comes while the socket is that of the
console. -/
def telnetStep (config : Config) (sockno : ℕ) (run : ReadRun) (event : ReadEvent) :
    Option ReadRun :=
  match event with
  | .uip packet =>
    if packet.data ≠ [] ∧ ¬ run.app.services.isTelnet config sockno then none
    else readStep config sockno run (.uip packet)
  | other => readStep config sockno run other

/-- The runs on the telnet socket. -/
def telnetSystem (config : Config) (sockno : ℕ) : TransitionSystem ReadRun ReadEvent :=
  ofFunction (readSystem config sockno).initial (telnetStep config sockno)

/-- What the requests have given out. -/
def ReadRun.given (run : ReadRun) : List UInt8 :=
  (run.finished.map Prod.snd).flatten ++
    match run.current with
    | some call => call.output run.app
    | none => []

/-- A request is for raw memory, and a packet is whole, comes while a request waits for it, without
an error, and has no more text than the request takes. -/
def Filterable (run : ReadRun) : ReadEvent → Prop
  | .call lua .. => ¬ lua
  | .uip packet => packet.data ≠ [] → run.app.socket.state = .recv2 ∧ ¬ packet.fails ∧
      isWhole packet.data ∧ (telnetText packet.data).length ≤ run.app.socket.len
  | _ => True

instance (run : ReadRun) (event : ReadEvent) : Decidable (Filterable run event) :=
  match event with
  | .uip _ => inferInstanceAs (Decidable (_ → _ ∧ _ ∧ _ ∧ _))
  | .call lua .. => inferInstanceAs (Decidable (¬ lua))
  | .timeout => .isTrue trivial
  | .returns => .isTrue trivial

/-- A request waits, and nothing has been stored for it. -/
structure AppState.Requested (app : AppState) (call : ReadCall) : Prop where
  state : app.socket.state = .recv ∨ app.socket.state = .recv2
  configured : app.services.configured
  ptr : app.socket.ptr = 0
  len : app.socket.len = call.maxsize
  lua : app.buffer.lua = call.lua
  misused : app.buffer.misused = false
  memory : ¬ call.lua → call.maxsize ≤ app.buffer.bytes.length
  output : call.output app = []

/-- A request is over. If it was for raw memory, then it has been given some text. -/
structure AppState.Answered (app : AppState) (call : ReadCall) (text : List UInt8) : Prop where
  state : app.socket.state = .idle
  misused : ¬ call.lua → app.buffer.misused = false
  output : ¬ call.lua → call.output app = text

section Requests

variable {app : AppState} {call : ReadCall} {event : Event}

/-- A request that is cut off. -/
theorem AppState.Requested.answered {after : AppState} (hrequested : app.Requested call)
    (hstate : after.socket.state = .idle) (hbuffer : after.buffer = app.buffer)
    (hlen : after.socket.len = app.socket.len) : after.Answered call [] := by
  refine ⟨hstate, fun _ ↦ hbuffer ▸ hrequested.misused, fun _ ↦ ?_⟩
  have houtput : call.output after = call.output app := by
    rw [ReadCall.output, ReadCall.output, hbuffer, hlen]
  rw [houtput, hrequested.output]

/-- What the filter stores of a packet. -/
theorem AppState.Requested.telnetHandleInput (hrequested : app.Requested call) :
    let text := telnetScan event.behind call.maxsize.toNat 0 event.data
    (telnetHandleInput event app).Requested call ∧ text = [] ∨
      (Uip.telnetHandleInput event app).Answered call text := by
  intro text
  have hroom : text.length ≤ call.maxsize.toNat := length_telnetScan_le _ _ _ _
  have hscan : telnetScan event.behind app.socket.len.toNat 0 event.data = text := by
    rw [hrequested.len]
  unfold Uip.telnetHandleInput
  rw [hscan]
  by_cases hempty : text = []
  · simp only [if_pos hempty]
    exact .inl ⟨hrequested, hempty⟩
  · simp only [if_neg hempty]
    have hpositive := List.length_pos_iff.mpr hempty
    refine .inr ⟨rfl, fun hraw ↦ ?_, fun hraw ↦ ?_⟩
    all_goals
      have hmemory := hrequested.memory hraw
      have hfits : ¬ (app.buffer.lua ∨ app.socket.ptr < 0 ∨
          app.buffer.bytes.length < app.socket.ptr + text.length) := by
        rw [hrequested.lua, hrequested.ptr]
        rintro (hyes | hneg | hlong)
        · exact hraw hyes
        · omega
        · omega
      have hstore : app.buffer.store app.socket.ptr text =
          { app.buffer with bytes := overwrite app.buffer.bytes 0 text } := by
        rw [CallBuffer.store, if_neg hempty, if_neg hfits, hrequested.ptr, Int.toNat_zero]
    · rw [hstore]
      exact hrequested.misused
    · rw [ReadCall.output, if_neg hraw, hstore, hrequested.len, sub_sub_cancel, Int.toNat_natCast]
      have hsegment := @segment_overwrite_self _ app.buffer.bytes 0 text (by omega)
      simpa [Foundation.segment] using hsegment

/-- An event on the console socket. -/
theorem AppState.Requested.uip {config : Config} {sockno : ℕ} (hrequested : app.Requested call)
    (hconnected : ¬ event.connected) (hnewdata : event.newdata ↔ event.data ≠ [])
    (htelnet : event.data ≠ [] → app.services.isTelnet config sockno) :
    let text := if app.socket.state = .recv2 ∧ ¬ event.fails then
      telnetScan event.behind call.maxsize.toNat 0 event.data else []
    (eluaUipAppcall config sockno event app).Requested call ∧ text = [] ∨
      (eluaUipAppcall config sockno event app).Answered call text := by
  intro text
  rcases hrequested.state with hrecv | hrecv
  · have htext : text = [] := if_neg fun hboth ↦ by
      rw [hrecv] at hboth
      cases hboth.1
    rw [eluaUipAppcall_of_recv hrequested.configured hconnected hrecv]
    exact .inl ⟨{ hrequested with state := .inr rfl }, htext⟩
  · by_cases hfails : event.fails
    · have htext : text = [] := if_neg fun hboth ↦ hboth.2 hfails
      rw [eluaUipAppcall_of_fails hrequested.configured hconnected hfails (.inr hrecv), htext]
      exact .inr (hrequested.answered rfl rfl rfl)
    · have htext : text = telnetScan event.behind call.maxsize.toNat 0 event.data :=
        if_pos ⟨hrecv, hfails⟩
      rw [eluaUipAppcall_of_recv2 hrequested.configured hconnected hfails hrecv, htext]
      by_cases hne : event.data = []
      · rw [if_neg fun hyes ↦ hnewdata.mp hyes hne, hne, telnetScan]
        exact .inl ⟨hrequested, rfl⟩
      · rw [if_pos (hnewdata.mpr hne), if_pos (htelnet hne)]
        exact hrequested.telnetHandleInput

end Requests

/-! ### Runs -/

section Runs

variable {run after : ReadRun} {event : ReadEvent}

/-- What holds in every state. -/
def ReadRun.Bounded (run : ReadRun) : Prop :=
  match run.current with
  | some call => run.app.Requested call ∨ ∃ text, run.app.Answered call text
  | none => run.app.socket.state = .idle

/-- What holds as long as the packets are filterable. -/
structure ReadRun.Filtered (run : ReadRun) : Prop where
  bounded : run.Bounded
  raw : ∀ call ∈ run.current, ¬ call.lua
  phase : (runTransducer telnetByte .data run.stream).1 = .data
  given : run.given = telnetText run.stream

/-- A request begins. -/
theorem ReadCall.requested {call : ReadCall} {memory : List UInt8} {app : AppState}
    (hconfigured : app.services.configured) (hmemory : ¬ call.lua → call.maxsize ≤ memory.length) :
    (call.requestedApp memory app).Requested call := by
  refine ⟨.inl rfl, hconfigured, rfl, rfl, rfl, rfl, fun hraw ↦ ?_, call.output_requestedApp _ _⟩
  simpa [ReadCall.requestedApp, hraw] using hmemory hraw

/-- Data comes on the telnet socket only. -/
theorem telnetStep_uip {packet : Event}
    (hstep : telnetStep config sockno run (.uip packet) = some after) :
    (packet.data ≠ [] → run.app.services.isTelnet config sockno) ∧
      readStep config sockno run (.uip packet) = some after := by
  simp only [telnetStep] at hstep
  split_ifs at hstep with hguard
  rw [not_and, not_not] at hguard
  exact ⟨hguard, hstep⟩

/-- The end of the time of a request. -/
theorem ReadRun.Bounded.timeout {call : ReadCall} (hbounded : run.Bounded)
    (hcall : run.current = some call) :
    let after : AppState := { run.app with socket := recvTimedout run.app.socket }
    (∃ text, after.Answered call text) ∧ call.output after = call.output run.app := by
  intro after
  unfold ReadRun.Bounded at hbounded
  rw [hcall] at hbounded
  rcases hbounded with hrequested | ⟨text, hanswered⟩
  · have hnot : run.app.socket.state ≠ .idle := by
      rcases hrequested.state with hstate | hstate <;> simp [hstate]
    have hsocket : after.socket = { run.app.socket with res := errTimedout, state := .idle } :=
      if_pos hnot
    refine ⟨⟨[], hrequested.answered ?_ rfl ?_⟩, ?_⟩
    · rw [hsocket]
    · rw [hsocket]
    · rw [ReadCall.output, ReadCall.output, hsocket]
  · have hsame : after = run.app := by
      show { run.app with socket := recvTimedout run.app.socket } = run.app
      rw [recvTimedout, if_neg (not_not.mpr hanswered.state)]
    rw [hsame]
    exact ⟨⟨text, hanswered⟩, rfl⟩

/-- Every step keeps the bounds. -/
theorem ReadRun.Bounded.step (hbounded : run.Bounded)
    (hstep : telnetStep config sockno run event = some after) : after.Bounded := by
  cases event with
  | call lua memory maxsize readto timed active =>
    obtain ⟨hnone, hmemory, rfl | ⟨hconfigured, rfl⟩⟩ := begin_eq_some hstep
    · exact hbounded
    · exact .inl (ReadCall.requested hconfigured hmemory)
  | uip packet =>
    obtain ⟨htelnet, hread⟩ := telnetStep_uip hstep
    obtain ⟨⟨hconnected, hnewdata, -⟩, rfl⟩ := readStep_uip hread
    unfold ReadRun.Bounded at hbounded ⊢
    dsimp only
    cases hcall : run.current with
    | none =>
      rw [hcall] at hbounded
      rw [eluaUipAppcall_of_idle hconnected hbounded]
      exact hbounded
    | some call =>
      rw [hcall] at hbounded
      rcases hbounded with hrequested | ⟨text, hanswered⟩
      · exact (hrequested.uip hconnected hnewdata htelnet).imp And.left
          fun hanswered ↦ ⟨_, hanswered⟩
      · rw [eluaUipAppcall_of_idle hconnected hanswered.state]
        exact .inr ⟨text, hanswered⟩
  | timeout =>
    obtain ⟨hsome, rfl⟩ := @readStep_timeout config sockno _ _ hstep
    obtain ⟨call, hcall⟩ := Option.ne_none_iff_exists'.mp hsome
    obtain ⟨hanswered, -⟩ := hbounded.timeout hcall
    unfold ReadRun.Bounded
    dsimp only
    rw [hcall]
    exact .inr hanswered
  | returns =>
    obtain ⟨call, -, hidle, rfl⟩ := @readStep_returns config sockno _ _ hstep
    exact hidle

/-- Whole packets extend the text, and leave the stream in the data phase. -/
theorem telnetText_append {stream data : List UInt8}
    (hphase : (runTransducer telnetByte .data stream).1 = .data)
    (hwhole : data ≠ [] → isWhole data) :
    (runTransducer telnetByte .data (stream ++ data)).1 = .data ∧
      telnetText (stream ++ data) = telnetText stream ++ telnetText data := by
  have hdata : isWhole data := by
    by_cases hempty : data = []
    · rw [hempty]
      rfl
    · exact hwhole hempty
  unfold telnetText
  rw [runTransducer_append, hphase]
  exact ⟨(filtersTo_of_isWhole 0 hdata _ le_rfl).2, rfl⟩

/-- What an event gives a request that waits. -/
theorem AppState.Requested.output_uip {app : AppState} {call : ReadCall} {packet : Event}
    (hrequested : app.Requested call) (hraw : ¬ call.lua)
    (hconnected : ¬ packet.connected) (hnewdata : packet.newdata ↔ packet.data ≠ [])
    (htelnet : packet.data ≠ [] → app.services.isTelnet config sockno) :
    call.output (eluaUipAppcall config sockno packet app) =
      if app.socket.state = .recv2 ∧ ¬ packet.fails then
        telnetScan packet.behind call.maxsize.toNat 0 packet.data else [] := by
  rcases hrequested.uip hconnected hnewdata htelnet with ⟨hafter, htext⟩ | hanswered
  · rw [hafter.output, htext]
  · exact hanswered.output hraw

/-- A filterable packet gives its text. -/
theorem AppState.Requested.stored_eq {call : ReadCall} {packet : Event}
    (hrequested : run.app.Requested call) (hfilterable : Filterable run (.uip packet)) :
    (if run.app.socket.state = .recv2 ∧ ¬ packet.fails then
        telnetScan packet.behind call.maxsize.toNat 0 packet.data else []) =
      telnetText packet.data := by
  by_cases hempty : packet.data = []
  · rw [hempty, telnetScan, ite_self]
    rfl
  · obtain ⟨hrecv, hfails, hwhole, hroom⟩ := hfilterable hempty
    rw [hrequested.len] at hroom
    rw [if_pos ⟨hrecv, hfails⟩]
    exact (filtersTo_of_isWhole packet.behind hwhole _ (by omega)).1

/-- Every filterable step keeps the text. -/
theorem ReadRun.Filtered.step (hfiltered : run.Filtered) (hfilterable : Filterable run event)
    (hstep : telnetStep config sockno run event = some after) : after.Filtered := by
  have hbounded := hfiltered.bounded.step hstep
  cases event with
  | call lua memory maxsize readto timed active =>
    obtain ⟨hnone, hmemory, rfl | ⟨hconfigured, rfl⟩⟩ := begin_eq_some hstep
    · refine ⟨hbounded, hfiltered.raw, hfiltered.phase, ?_⟩
      rw [← hfiltered.given]
      simp [ReadRun.given, hnone]
    · refine ⟨hbounded, fun call hcall ↦ Option.some.inj hcall ▸ hfilterable, hfiltered.phase, ?_⟩
      rw [← hfiltered.given]
      simp [ReadRun.given, hnone, ReadCall.output_requestedApp]
  | uip packet =>
    obtain ⟨htelnet, hread⟩ := telnetStep_uip hstep
    obtain ⟨⟨hconnected, hnewdata, -⟩, rfl⟩ := readStep_uip hread
    obtain ⟨hphase, htext⟩ := telnetText_append hfiltered.phase
      (fun hne ↦ (hfilterable hne).2.2.1)
    refine ⟨hbounded, hfiltered.raw, hphase, ?_⟩
    rw [htext, ← hfiltered.given]
    show (run.finished.map Prod.snd).flatten ++ _ = (run.finished.map Prod.snd).flatten ++ _ ++ _
    rw [List.append_assoc]
    congr 1
    have hidle : run.app.socket.state = .idle → packet.data = [] ∧
        eluaUipAppcall config sockno packet run.app = run.app := by
      intro hidle
      refine ⟨?_, eluaUipAppcall_of_idle hconnected hidle⟩
      by_contra hne
      exact absurd (hidle.symm.trans (hfilterable hne).1) (by decide)
    have hbefore := hfiltered.bounded
    unfold ReadRun.Bounded at hbefore
    cases hcall : run.current with
    | none =>
      rw [hcall] at hbefore
      rw [(hidle hbefore).1]
      rfl
    | some call =>
      rw [hcall] at hbefore
      have hraw := hfiltered.raw call hcall
      dsimp only
      rcases hbefore with hrequested | ⟨text, hanswered⟩
      · rw [hrequested.output, hrequested.output_uip hraw hconnected hnewdata htelnet,
          List.nil_append]
        exact hrequested.stored_eq hfilterable
      · obtain ⟨hnil, hsame⟩ := hidle hanswered.state
        rw [hnil, hsame]
        exact (List.append_nil _).symm
  | timeout =>
    obtain ⟨hsome, rfl⟩ := @readStep_timeout config sockno _ _ hstep
    obtain ⟨call, hcall⟩ := Option.ne_none_iff_exists'.mp hsome
    obtain ⟨-, houtput⟩ := hfiltered.bounded.timeout hcall
    refine ⟨hbounded, hfiltered.raw, hfiltered.phase, ?_⟩
    rw [← hfiltered.given]
    simp [ReadRun.given, hcall, houtput]
  | returns =>
    obtain ⟨call, hcall, -, rfl⟩ := @readStep_returns config sockno _ _ hstep
    refine ⟨hbounded, fun _ hnone ↦ (nomatch hnone), hfiltered.phase, ?_⟩
    rw [← hfiltered.given]
    simp [ReadRun.given, hcall]

end Runs

/-- What the console is given. In every run, a request for raw memory has no byte stored past its
end. In runs whose packets are filterable, the requests together have been given the text of the
stream. -/
theorem telnet_filtered (config : Config) (sockno : ℕ) :
    (∀ run, (telnetSystem config sockno).Reachable run → ∀ call, run.current = some call →
      ¬ call.lua → run.app.buffer.misused = false) ∧
    ∀ run, (telnetSystem config sockno).ReachableUnder Filterable run →
      run.given = telnetText run.stream := by
  constructor
  · intro run hreach call hcall hraw
    have hbounded : run.Bounded := by
      refine hreach.invariant ReadRun.Bounded ?_ fun state event after hbefore _ hstep ↦
        hbefore.step hstep
      rintro start ⟨hidle, -, hnone, -, -⟩
      unfold ReadRun.Bounded
      rw [hnone]
      exact hidle
    unfold ReadRun.Bounded at hbounded
    rw [hcall] at hbounded
    rcases hbounded with hrequested | ⟨text, hanswered⟩
    · exact hrequested.misused
    · exact hanswered.misused hraw
  · intro run hreach
    refine (hreach.invariant ReadRun.Filtered ?_ fun state event after hbefore hpermitted hstep ↦
      hbefore.step hpermitted hstep).given
    rintro start ⟨hidle, -, hnone, hfinished, hstream⟩
    refine ⟨?_, fun call hcall ↦ ?_, ?_, ?_⟩
    · unfold ReadRun.Bounded
      rw [hnone]
      exact hidle
    · rw [hnone] at hcall
      cases hcall
    · rw [hstream]
      rfl
    · rw [ReadRun.given, hnone, hfinished, hstream]
      rfl

/-- A board with a client on the telnet socket, which is socket one. -/
def consoleConfig : Config := ⟨true, true, 1460, 4, 1460⟩

/-- The socket is idle and the connection stopped. -/
def consoleRun : ReadRun where
  app :=
    { services := ⟨true, some 1, [], none⟩
      conn := ⟨htons telnetPort, ⟨0, 0⟩, 1460, true, false, []⟩
      socket := ⟨.idle, 0, 0, 0, -1⟩
      buffer := ⟨false, [], false⟩ }
  current := none
  finished := []
  stream := []

/-- A request for three bytes that gets a packet. -/
def requestPacket (packet : List UInt8) : List ReadEvent :=
  [.call false [0, 0, 0] 3 (-1) false true, .uip { poll := true },
    .uip { newdata := true, data := packet }, .returns]

/-- A control sequence of two bytes between two letters. -/
theorem telnet_filtered_whole_packet :
    ∃ run : ReadRun, run.stream = [97, 255, 241, 98] ∧ run.given = [97, 98] := by
  have hpermits : PermitsEvents (telnetStep consoleConfig 1) Filterable consoleRun
      (requestPacket [97, 255, 241, 98]) := by decide
  have hstart : (telnetSystem consoleConfig 1).ReachableUnder Filterable consoleRun :=
    .start ⟨rfl, rfl, rfl, rfl, rfl⟩
  have hreach := reachableUnder_of_permitsEvents (requestPacket [97, 255, 241, 98]) hstart
    hpermits rfl
  exact ⟨_, rfl, (telnet_filtered consoleConfig 1).2 _ hreach⟩

/-- The same stream, with a packet boundary within the control sequence. The second byte of the
sequence is given to the console. -/
theorem not_telnet_filtered_split_sequence :
    ¬ ∀ (config : Config) (sockno : ℕ) (run : ReadRun),
      (telnetSystem config sockno).Reachable run → run.given = telnetText run.stream := by
  intro hall
  have hstart : (telnetSystem consoleConfig 1).Reachable consoleRun :=
    .start ⟨rfl, rfl, rfl, rfl, rfl⟩
  have hreach := reachableUnder_of_runEvents (fun _ _ _ hstep ↦ hstep)
    (requestPacket [97, 255] ++ requestPacket [241, 98]) hstart (fun _ _ _ ↦ trivial) rfl
  exact absurd (hall consoleConfig 1 _ hreach) (by decide)

end Elua.Uip
