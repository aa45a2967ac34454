import Elua.Foundation.TransitionSystem
import Elua.Sermux.Peer

/-!
# Resynchronization after a restart

One end of the link restarts and the other keeps its state. A `MuxLink` is the two ends with the
bytes between them, and with what each has sent and has handed to its services since. The restarted
end does not know the current service of the survivor, drops the first data byte that comes without
one, and asks for it; the survivor answers with the service id and the byte that it has sent last.

The survivor remembers one byte. If it sends another one before the request has reached it, the
first is lost, and it is asked again when it has nothing to send (`restarted_board_stops_the_pc`).
If it waits, and no escape was cut off by the restart, both directions deliver everything in order
(`delivers_after_restart`). -/

set_option autoImplicit false
set_option relaxedAutoImplicit false

namespace Elua.Sermux

open Foundation

/-! ### The link -/

/-- What an end sends back. -/
def replies (effects : List PeerEffect) : List UInt8 :=
  effects.filterMap fun
    | .reply byte => some byte
    | _ => none

/-- What an end hands to its services when it gets a byte. -/
def deliveries (byte : UInt8) (effects : List PeerEffect) : List (UInt8 × ℕ × UInt8) :=
  effects.filterMap fun
    | .delivered service data => some (byte, service, data)
    | _ => none

/-- The two ends with the bytes between them. What is handed to a service is kept with the byte of
the wire that it was handed over for. -/
structure MuxLink (Restarted Survivor : Type) where
  restarted : Restarted
  survivor : Survivor
  toRestarted : List UInt8
  toSurvivor : List UInt8
  restartedSent : List (ℕ × UInt8)
  survivorSent : List (ℕ × UInt8)
  restartedGot : List (UInt8 × ℕ × UInt8)
  survivorGot : List (UInt8 × ℕ × UInt8)

/-- An end sends a byte for a service, or gets a byte. -/
inductive MuxEvent (RestartedSource SurvivorSource : Type)
  | restartedSends (source : RestartedSource) (data : UInt8)
  | survivorSends (source : SurvivorSource) (data : UInt8)
  | restartedReceives
  | survivorReceives

section Link

variable {services : ℕ} {X Y SourceX SourceY : Type} (x : Peer services X SourceX)
  (y : Peer services Y SourceY) (link : MuxLink X Y)

def restartedSend (source : SourceX) (data : UInt8) : MuxLink X Y :=
  let (restarted, wire) := x.send link.restarted source data
  { link with
    restarted := restarted
    toSurvivor := link.toSurvivor ++ wire
    restartedSent := link.restartedSent ++ [(x.service source, data)] }

def survivorSend (source : SourceY) (data : UInt8) : MuxLink X Y :=
  let (survivor, wire) := y.send link.survivor source data
  { link with
    survivor := survivor
    toRestarted := link.toRestarted ++ wire
    survivorSent := link.survivorSent ++ [(y.service source, data)] }

def restartedReceive (byte : UInt8) (rest : List UInt8) : MuxLink X Y :=
  let (restarted, effects) := x.receive link.restarted byte
  { link with
    restarted := restarted
    toRestarted := rest
    toSurvivor := link.toSurvivor ++ replies effects
    restartedGot := link.restartedGot ++ deliveries byte effects }

def survivorReceive (byte : UInt8) (rest : List UInt8) : MuxLink X Y :=
  let (survivor, effects) := y.receive link.survivor byte
  { link with
    survivor := survivor
    toSurvivor := rest
    toRestarted := link.toRestarted ++ replies effects
    survivorGot := link.survivorGot ++ deliveries byte effects }

/-- What an event does. An end that has stopped does nothing any more. -/
def MuxStep : MuxEvent SourceX SourceY → MuxLink X Y → Prop
  | .restartedSends source data, after =>
    (x.view link.restarted).running = true ∧ x.admits source ∧
      after = restartedSend x link source data
  | .survivorSends source data, after =>
    (y.view link.survivor).running = true ∧ y.admits source ∧ after = survivorSend y link source data
  | .restartedReceives, after =>
    (x.view link.restarted).running = true ∧
      ∃ byte rest, link.toRestarted = byte :: rest ∧ after = restartedReceive x link byte rest
  | .survivorReceives, after =>
    (y.view link.survivor).running = true ∧
      ∃ byte rest, link.toSurvivor = byte :: rest ∧ after = survivorReceive y link byte rest

/-- One end has just restarted, and the other is in any state in which it runs. -/
structure JustRestarted : Prop where
  restarted : x.view link.restarted = ⟨none, none, none, false, true⟩
  running : (y.view link.survivor).running = true
  toRestarted : link.toRestarted = []
  toSurvivor : link.toSurvivor = []
  restartedSent : link.restartedSent = []
  survivorSent : link.survivorSent = []
  restartedGot : link.restartedGot = []
  survivorGot : link.survivorGot = []

/-- The runs from a link. -/
def muxSystem : TransitionSystem (MuxLink X Y) (MuxEvent SourceX SourceY) where
  initial := fun start ↦ start = link
  step := MuxStep x y

/-! ### What must hold, and when it does -/

/-- Both ends run. What each has sent is handed to its services in order, all of it when nothing is
on its way, and nothing is handed over for a request. -/
structure Delivers : Prop where
  restarted_running : (x.view link.restarted).running = true
  survivor_running : (y.view link.survivor).running = true
  restartedGot : link.restartedGot.map Prod.snd <+: link.survivorSent
  survivorGot : link.survivorGot.map Prod.snd <+: link.restartedSent
  all : link.toRestarted = [] → link.toSurvivor = [] →
    link.restartedGot.map Prod.snd = link.survivorSent ∧
      link.survivorGot.map Prod.snd = link.restartedSent
  control : ∀ entry ∈ link.restartedGot ++ link.survivorGot, entry.1 ≠ sermuxForceSidChar

/-- The restarted end knows no service, and a data byte is on its way to it or the request for the
service id is on its way back. -/
def Unanswered : Prop :=
  (x.view link.restarted).serviceIn = none ∧
    ((∃ byte ∈ link.toRestarted.head?, ¬ isVirtualUart services byte.toNat) ∨
      sermuxForceSidChar ∈ link.toSurvivor)

/-- The survivor sends nothing while a byte of it is unanswered. -/
def WaitsForAnswer : MuxEvent SourceX SourceY → Prop
  | .survivorSends _ _ => ¬ Unanswered x link
  | _ => True

end Link

/-! ### Bytes on their way -/

/-- The bytes that an end with a selected service and perhaps a pending escape gets are those of
pending data, and leave it with a service selected. Requests may be among them. -/
inductive Decodes (services : ℕ) :
    Option ℕ → Bool → List UInt8 → List (ℕ × UInt8) → Option ℕ → Prop
  | done {selected : Option ℕ} : Decodes services selected false [] [] selected
  | service {selected last : Option ℕ} {id : ℕ} {rest : List UInt8} {pending : List (ℕ × UInt8)}
      (hid : isVirtualUart services id) (hrest : Decodes services (some id) false rest pending last) :
      Decodes services selected false (UInt8.ofNat id :: rest) pending last
  | plain {last : Option ℕ} {id : ℕ} {data : UInt8} {rest : List UInt8}
      {pending : List (ℕ × UInt8)} (hid : isVirtualUart services id)
      (hplain : needsEscape data = false)
      (hrest : Decodes services (some id) false rest pending last) :
      Decodes services (some id) false (data :: rest) ((id, data) :: pending) last
  | escape {last : Option ℕ} {id : ℕ} {rest : List UInt8} {pending : List (ℕ × UInt8)}
      (hrest : Decodes services (some id) true rest pending last) :
      Decodes services (some id) false (sermuxEscapeChar :: rest) pending last
  | escaped {last : Option ℕ} {id : ℕ} {data : UInt8} {rest : List UInt8}
      {pending : List (ℕ × UInt8)} (hid : isVirtualUart services id)
      (hneeds : needsEscape data = true)
      (hrest : Decodes services (some id) false rest pending last) :
      Decodes services (some id) true (escapedByte data :: rest) ((id, data) :: pending) last
  | request {selected last : Option ℕ} {escaped : Bool} {rest : List UInt8}
      {pending : List (ℕ × UInt8)} (hrest : Decodes services selected escaped rest pending last) :
      Decodes services selected escaped (sermuxForceSidChar :: rest) pending last

section Decoding

variable {services : ℕ} {selected last final : Option ℕ} {escaped : Bool} {bytes more : List UInt8}
  {pending later : List (ℕ × UInt8)}

theorem Decodes.append (hbytes : Decodes services selected escaped bytes pending last)
    (hmore : Decodes services last false more later final) :
    Decodes services selected escaped (bytes ++ more) (pending ++ later) final := by
  induction hbytes with
  | done => exact hmore
  | service hid _ ih => exact .service hid (ih hmore)
  | plain hid hplain _ ih => exact .plain hid hplain (ih hmore)
  | escape _ ih => exact .escape (ih hmore)
  | escaped hid hneeds _ ih => exact .escaped hid hneeds (ih hmore)
  | request _ ih => exact .request (ih hmore)

theorem decodes_encodedData {id : ℕ} (hid : isVirtualUart services id) (data : UInt8) :
    Decodes services (some id) false (encodedData data) [(id, data)] (some id) := by
  rw [encodedData]
  split_ifs with hneeds
  · exact .escape (.escaped hid hneeds .done)
  · exact .plain hid (Bool.not_eq_true _ ▸ hneeds) .done

/-- What an end sends is decoded if the service that it has announced is selected. -/
theorem decodes_wire {id : ℕ} {serviceOut : Option ℕ} (hid : isVirtualUart services id)
    (hselected : ∀ other, serviceOut = some other → selected = some other) (data : UInt8) :
    Decodes services selected false (serviceBytes serviceOut id ++ encodedData data) [(id, data)]
      (some id) := by
  rw [serviceBytes]
  split_ifs with hchange
  · exact .service hid (decodes_encodedData hid data)
  · rw [hselected id (not_not.mp hchange).symm]
    exact decodes_encodedData hid data

theorem Decodes.nil_inv (hbytes : Decodes services selected escaped [] pending last) :
    pending = [] := by
  cases hbytes
  rfl

/-- A service id is not the request for one. -/
theorem force_ne_service (hservices : services ≤ sermuxServiceMax) {id : ℕ}
    (hid : isVirtualUart services id) : sermuxForceSidChar ≠ UInt8.ofNat id := by
  intro hsame
  have hbyte := toNat_service (service_byte_facts (Nat.le_succ_of_le hservices) hid).1
  have hvalue : sermuxForceSidChar.toNat = 255 := rfl
  rw [← hsame, hvalue] at hbyte
  obtain ⟨-, hlt⟩ := hid
  simp only [sermuxServiceMax, sermuxServiceIdFirst, sermuxServiceIdLast] at hservices hlt
  omega

theorem force_notMem_encodedData (data : UInt8) : sermuxForceSidChar ∉ encodedData data := by
  rw [encodedData]
  split_ifs with hneeds
  · have hescape : sermuxForceSidChar ≠ sermuxEscapeChar := by decide
    rw [List.mem_pair, not_or]
    exact ⟨hescape, (escaped_byte_ne_force hneeds).symm⟩
  · rw [List.mem_singleton]
    exact (ne_force_of_plain (Bool.not_eq_true _ ▸ hneeds)).symm

/-- What an end sends for a service is no request. -/
theorem force_notMem_wire (hservices : services ≤ sermuxServiceMax) {id : ℕ}
    (hid : isVirtualUart services id) (serviceOut : Option ℕ) (data : UInt8) :
    sermuxForceSidChar ∉ serviceBytes serviceOut id ++ encodedData data := by
  rw [List.mem_append, not_or, serviceBytes]
  refine ⟨?_, force_notMem_encodedData data⟩
  split_ifs
  · rw [List.mem_singleton]
    exact force_ne_service hservices hid
  · exact List.not_mem_nil

/-- A request among the bytes makes no difference. -/
theorem Decodes.of_request (hservices : services ≤ sermuxServiceMax)
    (hbytes : Decodes services selected escaped (sermuxForceSidChar :: bytes) pending last) :
    Decodes services selected escaped bytes pending last := by
  generalize hwhole : sermuxForceSidChar :: bytes = whole at hbytes
  cases hbytes with
  | done => cases hwhole
  | service hid _ => exact absurd (List.cons.inj hwhole).1 (force_ne_service hservices hid)
  | plain _ hplain _ =>
    exact absurd (List.cons.inj hwhole).1.symm (ne_force_of_plain hplain)
  | escape _ => exact absurd (List.cons.inj hwhole).1 (by decide)
  | escaped _ hneeds _ =>
    exact absurd (List.cons.inj hwhole).1.symm (escaped_byte_ne_force hneeds)
  | request hrest =>
    obtain ⟨-, rfl⟩ := List.cons.inj hwhole
    exact hrest

end Decoding

/-! ### Getting a byte -/

section Receiving

variable {services : ℕ} {State Source : Type} (peer : Peer services State Source) (state : State)

/-- What an end does with a byte that belongs to the other end's data. -/
structure Received (byte : UInt8) (rest : List UInt8) (pending : List (ℕ × UInt8))
    (last : Option ℕ) (now : List (ℕ × UInt8)) (later : List (ℕ × UInt8)) : Prop where
  pending_eq : pending = now ++ later
  effects : (peer.receive state byte).2 = now.map fun item ↦ .delivered item.1 item.2
  rest : Decodes services (peer.view (peer.receive state byte).1).serviceIn
    (peer.view (peer.receive state byte).1).gotEsc rest later last
  serviceOut : (peer.view (peer.receive state byte).1).serviceOut = (peer.view state).serviceOut
  lastSent : (peer.view (peer.receive state byte).1).lastSent = (peer.view state).lastSent
  running : (peer.view (peer.receive state byte).1).running = true

theorem exists_received {byte : UInt8} {rest : List UInt8} {pending : List (ℕ × UInt8)}
    {last : Option ℕ} (hrunning : (peer.view state).running = true)
    (hbytes : Decodes services (peer.view state).serviceIn (peer.view state).gotEsc (byte :: rest)
      pending last) (hforce : byte ≠ sermuxForceSidChar) :
    ∃ now later, Received peer state byte rest pending last now later := by
  generalize hselected : (peer.view state).serviceIn = selected at hbytes
  generalize hescape : (peer.view state).gotEsc = escaped at hbytes
  have hvalid : ∀ id, selected = some id → isVirtualUart services id →
      ∀ other, (peer.view state).serviceIn = some other → isVirtualUart services other := by
    rintro id rfl hid other hother
    rw [hselected] at hother
    rwa [← Option.some.inj hother]
  cases hbytes with
  | service hid hrest =>
    obtain ⟨heffects, hview⟩ := peer.receive_service state _ hrunning hid
    refine ⟨[], pending, rfl, heffects, ?_, ?_, ?_, ?_⟩
    all_goals rw [hview]
    · simpa only [hescape] using hrest
    · exact hrunning
  | plain hid hplain hrest =>
    obtain ⟨heffects, hview⟩ := peer.receive_plain state byte hrunning hescape hplain
      (hvalid _ rfl hid)
    refine ⟨[_], _, rfl, ?_, ?_, ?_, ?_, ?_⟩
    · rw [heffects, hselected]
      rfl
    all_goals rw [hview]
    · rwa [hselected, hescape]
    · exact hrunning
  | escape hrest =>
    obtain ⟨heffects, hview⟩ := peer.receive_escape state hrunning
    refine ⟨[], pending, rfl, heffects, ?_, ?_, ?_, ?_⟩
    all_goals rw [hview]
    · simpa only [hselected] using hrest
    · exact hrunning
  | escaped hid hneeds hrest =>
    obtain ⟨heffects, hview⟩ := peer.receive_escaped state _ hrunning hescape hneeds
      (hvalid _ rfl hid)
    refine ⟨[_], _, rfl, ?_, ?_, ?_, ?_, ?_⟩
    · rw [heffects, hselected]
      rfl
    all_goals rw [hview]
    · simpa only [hselected] using hrest
    · exact hrunning
  | request _ => exact absurd rfl hforce

end Receiving

/-! ### The invariant -/

section Invariant

variable {services : ℕ} {X Y SourceX SourceY : Type} (x : Peer services X SourceX)
  (y : Peer services Y SourceY) (link : MuxLink X Y)

/-- The bytes to the survivor are those that it has not handed over yet, and leave it with the
service that the restarted end has announced. -/
def ToSurvivor : Prop :=
  ∃ pending last,
    Decodes services (y.view link.survivor).serviceIn (y.view link.survivor).gotEsc link.toSurvivor
        pending last ∧
      (∀ id, (x.view link.restarted).serviceOut = some id → last = some id) ∧
      link.survivorGot.map Prod.snd ++ pending = link.restartedSent

/-- A byte that the restarted end cannot place, and that the survivor remembers. -/
structure Lost (id : ℕ) (data : UInt8) : Prop where
  serviceIn : (x.view link.restarted).serviceIn = none
  valid : isVirtualUart services id
  serviceOut : (y.view link.survivor).serviceOut = some id
  lastSent : (y.view link.survivor).lastSent = some (encodedData data)
  got : link.restartedGot.map Prod.snd ++ [(id, data)] = link.survivorSent

/-- How far the ends have got with the direction to the restarted end: nothing has been sent; a data
byte without its service is on its way; it has been dropped, and the request is on its way; or the
service has been announced. -/
inductive Phase : Prop
  | silent (hselected : (x.view link.restarted).serviceIn = none)
      (hescape : (x.view link.restarted).gotEsc = false) (hline : link.toRestarted = [])
      (hrequest : sermuxForceSidChar ∉ link.toSurvivor)
      (hgot : link.restartedGot.map Prod.snd = link.survivorSent)
  | unannounced {id : ℕ} {data : UInt8} (hlost : Lost x y link id data)
      (hline : ((x.view link.restarted).gotEsc = false ∧ link.toRestarted = encodedData data) ∨
        (needsEscape data = true ∧ (x.view link.restarted).gotEsc = true ∧
          link.toRestarted = [escapedByte data]))
      (hrequest : sermuxForceSidChar ∉ link.toSurvivor)
  | requested {id : ℕ} {data : UInt8} (hlost : Lost x y link id data)
      (hescape : (x.view link.restarted).gotEsc = false) (hline : link.toRestarted = [])
      (hrequest : link.toSurvivor.count sermuxForceSidChar = 1)
  | announced {pending : List (ℕ × UInt8)}
      (hbytes : Decodes services (x.view link.restarted).serviceIn (x.view link.restarted).gotEsc
        link.toRestarted pending (y.view link.survivor).serviceOut)
      (hline : sermuxForceSidChar ∉ link.toRestarted)
      (hrequest : sermuxForceSidChar ∉ link.toSurvivor)
      (hgot : link.restartedGot.map Prod.snd ++ pending = link.survivorSent)

/-- The invariant of the runs in which the survivor waits. -/
structure Resyncs : Prop where
  restarted_running : (x.view link.restarted).running = true
  survivor_running : (y.view link.survivor).running = true
  toSurvivor : ToSurvivor x y link
  phase : Phase x y link
  control : ∀ entry ∈ link.restartedGot ++ link.survivorGot, entry.1 ≠ sermuxForceSidChar

end Invariant

section Steps

variable {services : ℕ} {X Y SourceX SourceY : Type} {x : Peer services X SourceX}
  {y : Peer services Y SourceY} {link : MuxLink X Y}

theorem encodedData_ne_nil (data : UInt8) : encodedData data ≠ [] := by
  rw [encodedData]
  split_ifs
  · exact List.cons_ne_nil _ _
  · exact List.cons_ne_nil _ _

theorem Resyncs.delivers (hlink : Resyncs x y link) : Delivers x y link := by
  obtain ⟨pending, last, hbytes, -, hsurvivor⟩ := hlink.toSurvivor
  refine ⟨hlink.restarted_running, hlink.survivor_running, ?_, ⟨pending, hsurvivor⟩, ?_,
    hlink.control⟩
  · cases hlink.phase with
    | silent _ _ _ _ hgot => exact ⟨[], by rw [List.append_nil, hgot]⟩
    | unannounced hlost _ _ => exact ⟨_, hlost.got⟩
    | requested hlost _ _ _ => exact ⟨_, hlost.got⟩
    | announced _ _ _ hgot => exact ⟨_, hgot⟩
  · intro hline hback
    rw [hback] at hbytes
    rw [hbytes.nil_inv, List.append_nil] at hsurvivor
    refine ⟨?_, hsurvivor⟩
    cases hlink.phase with
    | silent _ _ _ _ hgot => exact hgot
    | unannounced _ hsent _ =>
      rcases hsent with ⟨-, hsent⟩ | ⟨-, -, hsent⟩
      · rw [hline] at hsent
        exact absurd hsent.symm (encodedData_ne_nil _)
      · rw [hline] at hsent
        cases hsent
    | requested _ _ _ hrequest =>
      rw [hback] at hrequest
      cases hrequest
    | announced hpending _ _ hgot =>
      rw [hline] at hpending
      rwa [hpending.nil_inv, List.append_nil] at hgot

theorem JustRestarted.resyncs (hstart : JustRestarted x y link)
    (hescape : (y.view link.survivor).gotEsc = false) : Resyncs x y link := by
  refine ⟨?_, hstart.running, ?_, .silent ?_ ?_ hstart.toRestarted ?_ ?_, ?_⟩
  · rw [hstart.restarted]
  · refine ⟨[], (y.view link.survivor).serviceIn, ?_, ?_, ?_⟩
    · rw [hescape, hstart.toSurvivor]
      exact .done
    · intro id hout
      rw [hstart.restarted] at hout
      cases hout
    · rw [hstart.survivorGot, hstart.restartedSent]
      rfl
  · rw [hstart.restarted]
  · rw [hstart.restarted]
  · rw [hstart.toSurvivor]
    exact List.not_mem_nil
  · rw [hstart.restartedGot, hstart.survivorSent]
    rfl
  · rw [hstart.restartedGot, hstart.survivorGot]
    exact List.forall_mem_nil _

/-- The restarted end may send at any time. -/
theorem Resyncs.restartedSend (hservices : services ≤ sermuxServiceMax) (hlink : Resyncs x y link)
    {source : SourceX} (hadmits : x.admits source) (data : UInt8) :
    Resyncs x y (restartedSend x link source data) := by
  have hview := x.view_send link.restarted source data hadmits
  have hwire := x.wire_send link.restarted source data hadmits
  have hvalid := x.valid source hadmits
  have hforce : sermuxForceSidChar ∉ (x.send link.restarted source data).2 := by
    rw [hwire]
    exact force_notMem_wire hservices hvalid _ data
  have hrequest : (link.toSurvivor ++ (x.send link.restarted source data).2).count
      sermuxForceSidChar = link.toSurvivor.count sermuxForceSidChar := by
    rw [List.count_append, List.count_eq_zero_of_not_mem hforce, Nat.add_zero]
  have hnone (hnone : sermuxForceSidChar ∉ link.toSurvivor) :
      sermuxForceSidChar ∉ link.toSurvivor ++ (x.send link.restarted source data).2 := by
    rw [List.mem_append, not_or]
    exact ⟨hnone, hforce⟩
  have hlost {id : ℕ} {other : UInt8} (hlost : Lost x y link id other) :
      Lost x y (Sermux.restartedSend x link source data) id other := by
    refine ⟨?_, hlost.valid, hlost.serviceOut, hlost.lastSent, hlost.got⟩
    exact (congrArg PeerView.serviceIn hview).trans hlost.serviceIn
  have hin := congrArg PeerView.serviceIn hview
  have hesc := congrArg PeerView.gotEsc hview
  refine ⟨(congrArg PeerView.running hview).trans hlink.restarted_running, hlink.survivor_running,
    ?_, ?_, hlink.control⟩
  · obtain ⟨pending, last, hbytes, hlast, hgot⟩ := hlink.toSurvivor
    have hmore := decodes_wire hvalid hlast data
    rw [← hwire] at hmore
    refine ⟨pending ++ [(x.service source, data)], some (x.service source), hbytes.append hmore,
      fun id hout ↦ ?_, ?_⟩
    · exact ((congrArg PeerView.serviceOut hview).symm.trans hout)
    · change _ = link.restartedSent ++ _
      rw [← hgot, List.append_assoc]
      rfl
  · cases hlink.phase with
    | silent hselected hescape hline hrequest hgot =>
      exact .silent (hin.trans hselected) (hesc.trans hescape) hline (hnone hrequest) hgot
    | unannounced hbyte hline hrequest =>
      refine .unannounced (hlost hbyte) ?_ (hnone hrequest)
      rcases hline with ⟨hescape, hline⟩ | ⟨hneeds, hescape, hline⟩
      · exact .inl ⟨hesc.trans hescape, hline⟩
      · exact .inr ⟨hneeds, hesc.trans hescape, hline⟩
    | requested hbyte hescape hline hcount =>
      exact .requested (hlost hbyte) (hesc.trans hescape) hline (hrequest.trans hcount)
    | announced hbytes hline hrequest hgot =>
      refine .announced ?_ hline (hnone hrequest) hgot
      rw [← hin, ← hesc] at hbytes
      exact hbytes

/-- A data byte does not begin with a service id. -/
theorem head_encodedData (hservices : services ≤ sermuxServiceMax) (data : UInt8) :
    ∃ byte ∈ (encodedData data).head?, ¬ isVirtualUart services byte.toNat := by
  rw [encodedData]
  split_ifs with hneeds
  · refine ⟨sermuxEscapeChar, rfl, fun hservice ↦ absurd hservice.1 ?_⟩
    decide
  · exact ⟨data, rfl, not_isVirtualUart_of_plain hservices (Bool.not_eq_true _ ▸ hneeds)⟩

/-- The survivor may send if nothing of it is unanswered. -/
theorem Resyncs.survivorSend (hservices : services ≤ sermuxServiceMax) (hlink : Resyncs x y link)
    {source : SourceY} (hadmits : y.admits source) (data : UInt8)
    (hanswered : ¬ Unanswered x link) : Resyncs x y (survivorSend y link source data) := by
  have hview := y.view_send link.survivor source data hadmits
  have hwire := y.wire_send link.survivor source data hadmits
  have hvalid := y.valid source hadmits
  have hforce : sermuxForceSidChar ∉ (y.send link.survivor source data).2 := by
    rw [hwire]
    exact force_notMem_wire hservices hvalid _ data
  have hout : (y.view (Sermux.survivorSend y link source data).survivor).serviceOut =
      some (y.service source) := congrArg PeerView.serviceOut hview
  refine ⟨hlink.restarted_running,
    (congrArg PeerView.running hview).trans hlink.survivor_running, ?_, ?_, hlink.control⟩
  · obtain ⟨pending, last, hbytes, hlast, hgot⟩ := hlink.toSurvivor
    rw [← congrArg PeerView.serviceIn hview, ← congrArg PeerView.gotEsc hview] at hbytes
    exact ⟨pending, last, hbytes, hlast, hgot⟩
  · cases hlink.phase with
    | silent hselected hescape hline hrequest hgot =>
      have hsent : (Sermux.survivorSend y link source data).toRestarted =
          serviceBytes (y.view link.survivor).serviceOut (y.service source) ++ encodedData data := by
        rw [← hwire, ← List.nil_append (y.send link.survivor source data).2, ← hline]
        rfl
      by_cases hchange : some (y.service source) ≠ (y.view link.survivor).serviceOut
      · refine .announced ?_ ?_ hrequest (congrArg (· ++ [(y.service source, data)]) hgot)
        · rw [hsent, serviceBytes, if_pos hchange, hout]
          change Decodes services (x.view link.restarted).serviceIn (x.view link.restarted).gotEsc
            _ _ _
          rw [hselected, hescape]
          exact .service hvalid (decodes_encodedData hvalid data)
        · rw [hsent]
          exact force_notMem_wire hservices hvalid _ data
      · rw [serviceBytes, if_neg hchange] at hsent
        refine .unannounced ⟨hselected, hvalid, hout, congrArg PeerView.lastSent hview, congrArg (· ++ [(y.service source, data)]) hgot⟩
          (.inl ⟨hescape, hsent⟩) hrequest
    | unannounced hlost hline hrequest =>
      refine absurd ⟨hlost.serviceIn, .inl ?_⟩ hanswered
      rcases hline with ⟨-, hline⟩ | ⟨hneeds, -, hline⟩
      · rw [hline]
        exact head_encodedData hservices _
      · rw [hline]
        exact ⟨_, rfl, escaped_not_service (Nat.le_succ_of_le hservices) hneeds⟩
    | requested hlost hescape hline hcount =>
      refine absurd ⟨hlost.serviceIn, .inr ?_⟩ hanswered
      exact List.one_le_count_iff.mp (Nat.le_of_eq hcount.symm)
    | announced hbytes hline hrequest hgot =>
      have hmore : Decodes services (y.view link.survivor).serviceOut false
          (y.send link.survivor source data).2 [(y.service source, data)]
            (some (y.service source)) := by
        rw [hwire]
        exact decodes_wire hvalid (fun _ hother ↦ hother) data
      have hall := hbytes.append hmore
      rw [← hout] at hall
      refine .announced hall ?_ hrequest ?_
      · change sermuxForceSidChar ∉ link.toRestarted ++ _
        rw [List.mem_append, not_or]
        exact ⟨hline, hforce⟩
      · change _ = link.survivorSent ++ _
        rw [← hgot, List.append_assoc]
        rfl

/-- What is handed over, and nothing else, is recorded. -/
theorem deliveries_delivered (byte : UInt8) (now : List (ℕ × UInt8)) :
    deliveries byte (now.map fun item ↦ .delivered item.1 item.2) =
      now.map fun item ↦ (byte, item.1, item.2) := by
  rw [deliveries, List.filterMap_map]
  exact congrFun List.filterMap_eq_map' now

theorem replies_delivered (now : List (ℕ × UInt8)) :
    replies (now.map fun item ↦ .delivered item.1 item.2) = [] := by
  rw [replies, List.filterMap_map]
  exact List.filterMap_eq_nil_iff.mpr fun _ _ ↦ rfl

theorem replies_reply (bytes : List UInt8) : replies (bytes.map .reply) = bytes := by
  rw [replies, List.filterMap_map]
  exact List.filterMap_some

theorem deliveries_reply (byte : UInt8) (bytes : List UInt8) :
    deliveries byte (bytes.map .reply) = [] := by
  rw [deliveries, List.filterMap_map]
  exact List.filterMap_eq_nil_iff.mpr fun _ _ ↦ rfl

theorem toSurvivor_restartedReceive (byte : UInt8) (rest : List UInt8) :
    (restartedReceive x link byte rest).toSurvivor =
      link.toSurvivor ++ replies (x.receive link.restarted byte).2 := rfl

theorem restartedGot_restartedReceive (byte : UInt8) (rest : List UInt8) :
    (restartedReceive x link byte rest).restartedGot =
      link.restartedGot ++ deliveries byte (x.receive link.restarted byte).2 := rfl

theorem toRestarted_survivorReceive (byte : UInt8) (rest : List UInt8) :
    (survivorReceive y link byte rest).toRestarted =
      link.toRestarted ++ replies (y.receive link.survivor byte).2 := rfl

theorem survivorGot_survivorReceive (byte : UInt8) (rest : List UInt8) :
    (survivorReceive y link byte rest).survivorGot =
      link.survivorGot ++ deliveries byte (y.receive link.survivor byte).2 := rfl

theorem map_snd_handed (got : List (UInt8 × ℕ × UInt8)) (byte : UInt8) (now : List (ℕ × UInt8)) :
    (got ++ now.map fun item ↦ (byte, item.1, item.2)).map Prod.snd = got.map Prod.snd ++ now := by
  rw [List.map_append, List.map_map]
  exact congrArg _ (List.map_id now)

/-- What is handed over for a byte that is no request keeps the requests out. -/
theorem control_handed {got : List (UInt8 × ℕ × UInt8)} {byte : UInt8} {now : List (ℕ × UInt8)}
    (hgot : ∀ entry ∈ got, entry.1 ≠ sermuxForceSidChar) (hforce : byte ≠ sermuxForceSidChar) :
    ∀ entry ∈ got ++ now.map fun item ↦ (byte, item.1, item.2),
      entry.1 ≠ sermuxForceSidChar := by
  rw [List.forall_mem_append, List.forall_mem_map]
  exact ⟨hgot, fun _ _ ↦ hforce⟩

/-- The restarted end takes a byte that it hands nothing over for, and sends nothing or the request.
-/
theorem ToSurvivor.reply (hsurvivor : ToSurvivor x y link) {after : MuxLink X Y} {sent : List UInt8}
    (hsent : sent = [] ∨ sent = [sermuxForceSidChar])
    (hout : (x.view after.restarted).serviceOut = (x.view link.restarted).serviceOut)
    (hsame : after.survivor = link.survivor) (hline : after.toSurvivor = link.toSurvivor ++ sent)
    (hgot : after.survivorGot = link.survivorGot)
    (hrestarted : after.restartedSent = link.restartedSent) : ToSurvivor x y after := by
  obtain ⟨pending, last, hbytes, hlast, hall⟩ := hsurvivor
  have hmore : Decodes services last false sent [] last := by
    rcases hsent with rfl | rfl
    · exact .done
    · exact .request .done
  refine ⟨pending, last, ?_, ?_, ?_⟩
  · rw [hsame, hline, ← List.append_nil pending]
    exact hbytes.append hmore
  · rw [hout]
    exact hlast
  · rw [hgot, hrestarted, hall]

/-- The restarted end drops a data byte that it cannot place, and requests the service id. -/
theorem Resyncs.asked (hlink : Resyncs x y link) {id : ℕ} {data byte : UInt8}
    (hlost : Lost x y link id data) (hrequest : sermuxForceSidChar ∉ link.toSurvivor)
    (heffects : (x.receive link.restarted byte).2 = [.reply sermuxForceSidChar])
    (hview : x.view (x.receive link.restarted byte).1 =
      { x.view link.restarted with gotEsc := false }) :
    Resyncs x y (restartedReceive x link byte []) := by
  have hline : (restartedReceive x link byte []).toSurvivor =
      link.toSurvivor ++ [sermuxForceSidChar] := by
    rw [toSurvivor_restartedReceive, heffects]
    rfl
  have hgot : (restartedReceive x link byte []).restartedGot = link.restartedGot := by
    rw [restartedGot_restartedReceive, heffects]
    exact List.append_nil _
  have hout := congrArg PeerView.serviceOut hview
  refine ⟨(congrArg PeerView.running hview).trans hlink.restarted_running, hlink.survivor_running,
    hlink.toSurvivor.reply (.inr rfl) hout rfl hline rfl rfl,
    .requested ⟨(congrArg PeerView.serviceIn hview).trans hlost.serviceIn, hlost.valid,
      hlost.serviceOut, hlost.lastSent, ?_⟩ (congrArg PeerView.gotEsc hview) rfl ?_, ?_⟩
  · rw [hgot]
    exact hlost.got
  · rw [hline, List.count_append, List.count_eq_zero_of_not_mem hrequest]
    rfl
  · rw [hgot]
    exact hlink.control

/-- The restarted end gets a byte. -/
theorem Resyncs.restartedReceive (hlink : Resyncs x y link) {byte : UInt8} {rest : List UInt8}
    (hbyte : link.toRestarted = byte :: rest) : Resyncs x y (restartedReceive x link byte rest) := by
  have hrunning := hlink.restarted_running
  cases hlink.phase with
  | silent _ _ hline _ _ =>
    rw [hline] at hbyte
    cases hbyte
  | requested _ _ hline _ =>
    rw [hline] at hbyte
    cases hbyte
  | @unannounced id data hlost hline hrequest =>
    have hvalid : ∀ other, (x.view link.restarted).serviceIn = some other →
        isVirtualUart services other := by
      intro other hother
      rw [hlost.serviceIn] at hother
      cases hother
    have hnone : handedOn (x.view link.restarted).serviceIn data =
        [.reply sermuxForceSidChar] := by
      rw [hlost.serviceIn]
      rfl
    rcases hline with ⟨hescape, hline⟩ | ⟨hneeds, hescape, hline⟩
    · rw [hbyte, encodedData] at hline
      split_ifs at hline with hneeds
      · obtain ⟨rfl, rfl⟩ := List.cons.inj hline
        obtain ⟨heffects, hview⟩ := x.receive_escape link.restarted hrunning
        have hback : (Sermux.restartedReceive x link sermuxEscapeChar [escapedByte data]).toSurvivor =
            link.toSurvivor := by
          rw [toSurvivor_restartedReceive, heffects]
          exact List.append_nil _
        have hgot : (Sermux.restartedReceive x link sermuxEscapeChar
            [escapedByte data]).restartedGot = link.restartedGot := by
          rw [restartedGot_restartedReceive, heffects]
          exact List.append_nil _
        have hout := congrArg PeerView.serviceOut hview
        refine ⟨(congrArg PeerView.running hview).trans hrunning, hlink.survivor_running,
          hlink.toSurvivor.reply (.inl rfl) hout rfl (hback.trans (List.append_nil _).symm) rfl rfl,
          .unannounced ⟨(congrArg PeerView.serviceIn hview).trans hlost.serviceIn, hlost.valid,
            hlost.serviceOut, hlost.lastSent, ?_⟩
            (.inr ⟨hneeds, congrArg PeerView.gotEsc hview, rfl⟩) ?_, ?_⟩
        · rw [hgot]
          exact hlost.got
        · rwa [hback]
        · rw [hgot]
          exact hlink.control
      · obtain ⟨rfl, rfl⟩ := List.cons.inj hline
        obtain ⟨heffects, hview⟩ := x.receive_plain link.restarted byte hrunning hescape
          (Bool.not_eq_true _ ▸ hneeds) hvalid
        refine hlink.asked hlost hrequest (heffects.trans hnone) (hview.trans ?_)
        rw [← hescape]
    · rw [hbyte] at hline
      obtain ⟨rfl, rfl⟩ := List.cons.inj hline
      obtain ⟨heffects, hview⟩ := x.receive_escaped link.restarted data hrunning hescape hneeds hvalid
      exact hlink.asked hlost hrequest (heffects.trans hnone) hview
  | announced hbytes hline hrequest hgot =>
    have hforce : byte ≠ sermuxForceSidChar := by
      rintro rfl
      rw [hbyte] at hline
      exact hline List.mem_cons_self
    rw [hbyte] at hbytes hline
    obtain ⟨now, later, hreceived⟩ := exists_received x link.restarted hrunning hbytes hforce
    have hback : (Sermux.restartedReceive x link byte rest).toSurvivor = link.toSurvivor := by
      rw [toSurvivor_restartedReceive, hreceived.effects, replies_delivered, List.append_nil]
    have hhanded : (Sermux.restartedReceive x link byte rest).restartedGot =
        link.restartedGot ++ now.map fun item ↦ (byte, item.1, item.2) := by
      rw [restartedGot_restartedReceive, hreceived.effects, deliveries_delivered]
    refine ⟨hreceived.running, hlink.survivor_running,
      hlink.toSurvivor.reply (.inl rfl) hreceived.serviceOut rfl
        (hback.trans (List.append_nil _).symm) rfl rfl,
      .announced hreceived.rest (fun hmem ↦ hline (List.mem_cons_of_mem _ hmem)) ?_ ?_, ?_⟩
    · rwa [hback]
    · rw [hhanded, map_snd_handed, List.append_assoc, ← hreceived.pending_eq]
      exact hgot
    · rw [hhanded]
      obtain ⟨hrestarted, hsurvivor⟩ := List.forall_mem_append.mp hlink.control
      exact List.forall_mem_append.mpr ⟨control_handed hrestarted hforce, hsurvivor⟩

/-- The survivor answers the request with the service id and the byte that it remembers. -/
theorem Resyncs.answered (hservices : services ≤ sermuxServiceMax) (hlink : Resyncs x y link)
    {rest : List UInt8} (hbyte : link.toSurvivor = sermuxForceSidChar :: rest) {id : ℕ} {data : UInt8}
    (hlost : Lost x y link id data) (hescape : (x.view link.restarted).gotEsc = false)
    (hline : link.toRestarted = [])
    (hrequest : link.toSurvivor.count sermuxForceSidChar = 1) :
    Resyncs x y (survivorReceive y link sermuxForceSidChar rest) := by
  obtain ⟨heffects, hview⟩ := y.receive_force link.survivor id (encodedData data)
    hlink.survivor_running hlost.serviceOut hlost.lastSent
  have hsent : (survivorReceive y link sermuxForceSidChar rest).toRestarted =
      UInt8.ofNat id :: encodedData data := by
    rw [toRestarted_survivorReceive, heffects, replies_reply, hline, List.nil_append]
  have hgot : (survivorReceive y link sermuxForceSidChar rest).survivorGot = link.survivorGot := by
    rw [survivorGot_survivorReceive, heffects, deliveries_reply, List.append_nil]
  have hin := congrArg PeerView.serviceIn hview
  have hesc := congrArg PeerView.gotEsc hview
  have hout := (congrArg PeerView.serviceOut hview).trans hlost.serviceOut
  have hnext : Decodes services (x.view link.restarted).serviceIn (x.view link.restarted).gotEsc
      (UInt8.ofNat id :: encodedData data) [(id, data)] (some id) := by
    rw [hescape]
    exact .service hlost.valid (decodes_encodedData hlost.valid data)
  rw [← hout, ← hsent] at hnext
  refine ⟨hlink.restarted_running, (congrArg PeerView.running hview).trans hlink.survivor_running,
    ?_, .announced hnext ?_ ?_ hlost.got, ?_⟩
  · obtain ⟨pending, last, hbytes, hlast, hall⟩ := hlink.toSurvivor
    rw [hbyte] at hbytes
    have hrest := hbytes.of_request hservices
    rw [← hin, ← hesc] at hrest
    exact ⟨pending, last, hrest, hlast, hgot ▸ hall⟩
  · rw [hsent, List.mem_cons, not_or]
    exact ⟨force_ne_service hservices hlost.valid, force_notMem_encodedData data⟩
  · rw [hbyte, List.count_cons_self] at hrequest
    exact List.count_eq_zero.mp (Nat.succ.inj hrequest)
  · rw [hgot]
    exact hlink.control

/-- The survivor gets a byte. -/
theorem Resyncs.survivorReceive (hservices : services ≤ sermuxServiceMax) (hlink : Resyncs x y link)
    {byte : UInt8} {rest : List UInt8} (hbyte : link.toSurvivor = byte :: rest) :
    Resyncs x y (survivorReceive y link byte rest) := by
  by_cases hforce : byte = sermuxForceSidChar
  · subst hforce
    have hmem : sermuxForceSidChar ∈ link.toSurvivor := by
      rw [hbyte]
      exact List.mem_cons_self
    cases hlink.phase with
    | silent _ _ _ hrequest _ => exact absurd hmem hrequest
    | unannounced _ _ hrequest => exact absurd hmem hrequest
    | requested hlost hescape hline hrequest =>
      exact hlink.answered hservices hbyte hlost hescape hline hrequest
    | announced _ _ hrequest _ => exact absurd hmem hrequest
  · obtain ⟨pending, last, hbytes, hlast, hall⟩ := hlink.toSurvivor
    rw [hbyte] at hbytes
    obtain ⟨now, later, hreceived⟩ := exists_received y link.survivor hlink.survivor_running hbytes
      hforce
    have hsent : (Sermux.survivorReceive y link byte rest).toRestarted = link.toRestarted := by
      rw [toRestarted_survivorReceive, hreceived.effects, replies_delivered, List.append_nil]
    have hhanded : (Sermux.survivorReceive y link byte rest).survivorGot =
        link.survivorGot ++ now.map fun item ↦ (byte, item.1, item.2) := by
      rw [survivorGot_survivorReceive, hreceived.effects, deliveries_delivered]
    have hout := hreceived.serviceOut
    have hsame := hreceived.lastSent
    have hcount : link.toSurvivor.count sermuxForceSidChar = rest.count sermuxForceSidChar := by
      rw [hbyte, List.count_cons_of_ne hforce]
    have hnone (hrequest : sermuxForceSidChar ∉ link.toSurvivor) : sermuxForceSidChar ∉ rest := by
      rw [hbyte] at hrequest
      exact fun hmem ↦ hrequest (List.mem_cons_of_mem _ hmem)
    have hkept {id : ℕ} {data : UInt8} (hlost : Lost x y link id data) :
        Lost x y (Sermux.survivorReceive y link byte rest) id data :=
      ⟨hlost.serviceIn, hlost.valid, hout.trans hlost.serviceOut, hsame.trans hlost.lastSent,
        hlost.got⟩
    refine ⟨hlink.restarted_running, hreceived.running, ⟨later, last, hreceived.rest, hlast, ?_⟩,
      ?_, ?_⟩
    · rw [hhanded, map_snd_handed, List.append_assoc, ← hreceived.pending_eq]
      exact hall
    · cases hlink.phase with
      | silent hselected hescape hline hrequest hgot =>
        exact .silent hselected hescape (hsent.trans hline) (hnone hrequest) hgot
      | unannounced hlost hline hrequest =>
        rw [← hsent] at hline
        exact .unannounced (hkept hlost) hline (hnone hrequest)
      | requested hlost hescape hline hrequest =>
        exact .requested (hkept hlost) hescape (hsent.trans hline) (hcount.symm.trans hrequest)
      | announced hdecodes hline hrequest hgot =>
        rw [← hsent] at hdecodes hline
        rw [← hout] at hdecodes
        exact .announced hdecodes hline (hnone hrequest) hgot
    · rw [hhanded]
      obtain ⟨hrestarted, hsurvivor⟩ := List.forall_mem_append.mp hlink.control
      exact List.forall_mem_append.mpr ⟨hrestarted, control_handed hsurvivor hforce⟩

theorem Resyncs.step (hservices : services ≤ sermuxServiceMax) (hlink : Resyncs x y link)
    {event : MuxEvent SourceX SourceY} {after : MuxLink X Y} (hwaits : WaitsForAnswer x link event)
    (hstep : MuxStep x y link event after) : Resyncs x y after := by
  cases event with
  | restartedSends source data =>
    obtain ⟨-, hadmits, rfl⟩ := hstep
    exact hlink.restartedSend hservices hadmits data
  | survivorSends source data =>
    obtain ⟨-, hadmits, rfl⟩ := hstep
    exact hlink.survivorSend hservices hadmits data hwaits
  | restartedReceives =>
    obtain ⟨-, byte, rest, hbyte, rfl⟩ := hstep
    exact hlink.restartedReceive hbyte
  | survivorReceives =>
    obtain ⟨-, byte, rest, hbyte, rfl⟩ := hstep
    exact hlink.survivorReceive hservices hbyte

/-- If the survivor has no escape pending and waits, everything is delivered. -/
theorem delivers_of_waits (hservices : services ≤ sermuxServiceMax) {start : MuxLink X Y}
    (hstart : JustRestarted x y start) (hescape : (y.view start.survivor).gotEsc = false)
    (hreach : (muxSystem x y start).ReachableUnder (WaitsForAnswer x) link) : Delivers x y link := by
  refine Resyncs.delivers (hreach.invariant (Resyncs x y) ?_
    fun _ _ _ hlink hwaits hstep ↦ hlink.step hservices hwaits hstep)
  rintro link rfl
  exact hstart.resyncs hescape

end Steps

/-! ### The board and the PC -/

/-- Whichever end restarts, everything is delivered if the other end has no escape pending and waits
for the answer to a byte that it has sent without the service id. -/
theorem delivers_after_restart (config : MuxConfig)
    (hservices : config.services ≤ sermuxServiceMax) :
    (∀ start link, JustRestarted (boardPeer hservices) (pcPeer config hservices) start →
      start.survivor.gotEsc = false →
      (muxSystem (boardPeer hservices) (pcPeer config hservices) start).ReachableUnder
        (WaitsForAnswer (boardPeer hservices)) link →
      Delivers (boardPeer hservices) (pcPeer config hservices) link) ∧
    (∀ start link, JustRestarted (pcPeer config hservices) (boardPeer hservices) start →
      start.survivor.uartGotEsc = false →
      (muxSystem (pcPeer config hservices) (boardPeer hservices) start).ReachableUnder
        (WaitsForAnswer (pcPeer config hservices)) link →
      Delivers (pcPeer config hservices) (boardPeer hservices) link) :=
  ⟨fun _ _ hstart hescape hreach ↦ delivers_of_waits hservices hstart hescape hreach,
    fun _ _ hstart hescape hreach ↦ delivers_of_waits hservices hstart hescape hreach⟩

/-- One port. -/
def onePort : MuxConfig := ⟨.mux, 1⟩

theorem onePort_services : onePort.services ≤ sermuxServiceMax := by decide

/-- The board has restarted, and the PC has announced the service of its port before. -/
def boardRestarted : MuxLink SermuxBoard MuxServer :=
  ⟨.initial, ⟨none, some 0xD0, none, false, true⟩, [], [], [], [], [], []⟩

theorem justRestarted_boardRestarted :
    JustRestarted (boardPeer onePort_services) (pcPeer onePort onePort_services) boardRestarted :=
  ⟨rfl, rfl, rfl, rfl, rfl, rfl, rfl, rfl⟩

/-- The PC sends one byte, and waits. -/
theorem delivers_one_byte :
    ∃ link : MuxLink SermuxBoard MuxServer, link.restartedGot = [(0x41, 0xD0, 0x41)] ∧
      Delivers (boardPeer onePort_services) (pcPeer onePort onePort_services) link := by
  have hstart : (muxSystem (boardPeer onePort_services) (pcPeer onePort onePort_services)
      boardRestarted).ReachableUnder (WaitsForAnswer (boardPeer onePort_services)) boardRestarted :=
    .start rfl
  have hanswered : ¬ Unanswered (boardPeer onePort_services) boardRestarted := by
    rintro ⟨-, ⟨byte, hbyte, -⟩ | hmem⟩
    · cases hbyte
    · cases hmem
  have hsent := hstart.andThen (.survivorSends (.port 1) 0x41) hanswered
    ⟨rfl, ⟨Nat.le_refl 1, Nat.le_refl 1⟩, rfl⟩
  have hdropped := hsent.andThen .restartedReceives trivial ⟨rfl, 0x41, [], rfl, rfl⟩
  have hagain := hdropped.andThen .survivorReceives trivial ⟨rfl, 0xFF, [], rfl, rfl⟩
  have hselected := hagain.andThen .restartedReceives trivial ⟨rfl, 0xD0, [0x41], rfl, rfl⟩
  have hgot := hselected.andThen .restartedReceives trivial ⟨rfl, 0x41, [], rfl, rfl⟩
  exact ⟨_, rfl, (delivers_after_restart onePort onePort_services).1 boardRestarted _
    justRestarted_boardRestarted rfl hgot⟩

/-- The PC sends two bytes before it is asked, and stops with a protocol error when it is asked
for the second time. -/
theorem restarted_board_stops_the_pc :
    ∃ link : MuxLink SermuxBoard MuxServer,
      (muxSystem (boardPeer onePort_services) (pcPeer onePort onePort_services)
        boardRestarted).Reachable link ∧
      ¬ Delivers (boardPeer onePort_services) (pcPeer onePort onePort_services) link := by
  have hstart : (muxSystem (boardPeer onePort_services) (pcPeer onePort onePort_services)
      boardRestarted).Reachable boardRestarted := .start rfl
  have hfirst := hstart.andThen (.survivorSends (.port 1) 0x41) trivial
    ⟨rfl, ⟨Nat.le_refl 1, Nat.le_refl 1⟩, rfl⟩
  have hsecond := hfirst.andThen (.survivorSends (.port 1) 0x42) trivial
    ⟨rfl, ⟨Nat.le_refl 1, Nat.le_refl 1⟩, rfl⟩
  have hdropped := hsecond.andThen .restartedReceives trivial ⟨rfl, 0x41, [0x42], rfl, rfl⟩
  have hboth := hdropped.andThen .restartedReceives trivial ⟨rfl, 0x42, [], rfl, rfl⟩
  have hagain := hboth.andThen .survivorReceives trivial ⟨rfl, 0xFF, [0xFF], rfl, rfl⟩
  have hstopped := hagain.andThen .survivorReceives trivial ⟨rfl, 0xFF, [], rfl, rfl⟩
  refine ⟨_, hstopped, fun hdelivers ↦ ?_⟩
  have hrunning := hdelivers.survivor_running
  cases hrunning

end Elua.Sermux
