import Elua.Foundation.TransitionSystem
import Elua.Uip.AppCall
import Mathlib.Data.List.GetD
import Mathlib.Data.List.Perm.Basic

/-!
# Accepting connections

`elua_accept` by its separate steps, with the connections that are established between them. A
connection that is recorded stands in a slot of the table until a call has found it, copied its
address, freed the slot and read the number of its socket, in this order. Between the last two of
these steps the slot may be used again.

`accepted_once_each`: in runs in which it is not, each connection is handed out once. If moreover no
connection is recorded below one that is pending for the same port, then each is handed out by one
of the next calls for its port. -/

set_option autoImplicit false
set_option relaxedAutoImplicit false

namespace Elua.Uip

open Foundation TransitionSystem

/-! ### The system -/

/-- What a call hands out: the socket, the address of the peer and the port. -/
structure Accepted where
  sock : ℕ
  remote : NetIp
  port : ℕ
  deriving DecidableEq, Repr

/-- Where a call of `elua_accept` stands: it looks at a slot, compares the port of a slot that is
pending, copies the address, frees the slot, reads the socket, or has found no slot. -/
inductive AcceptPoint
  | idle
  | looking (index : ℕ)
  | comparing (index : ℕ)
  | copying (index : ℕ)
  | freeing (index : ℕ) (remote : NetIp)
  | reading (index : ℕ) (remote : NetIp)
  | missed
  deriving DecidableEq, Repr

/-- The static variables, the port of the call and whether it waits, where it stands, the calls that
have returned with what they handed out, and the connections that have been recorded. -/
structure AcceptState where
  services : Services
  port : ℕ
  timed : Bool
  point : AcceptPoint
  returned : List (ℕ × Option Accepted)
  recorded : List Accepted
  deriving DecidableEq

/-- A connection is established, a call begins, or the call takes a step. No connection that waits
to be accepted is closed. -/
inductive AcceptEvent
  | connect (sockno : ℕ) (conn : Connection) (socket : SocketState)
  | call (port : ℕ) (timed : Bool)
  | step (timeUp : Bool)
  deriving DecidableEq

/-- The slots of the table. -/
def AcceptState.slots (state : AcceptState) : List Pending := state.services.acceptPending

/-- A slot, or an unused one behind the end of the table. -/
def AcceptState.slot (state : AcceptState) (index : ℕ) : Pending :=
  state.slots.getD index ⟨0, 0, ⟨0, 0⟩, 0⟩

/-- What a connection hands out when it is accepted. -/
def Pending.accepted (slot : Pending) : Accepted := ⟨slot.sock, slot.remote, slot.port⟩

/-- A connection is established. It has been recorded if the table has changed. -/
def AcceptState.connect (config : Config) (state : AcceptState) (sockno : ℕ) (conn : Connection)
    (socket : SocketState) : AcceptState :=
  let app := eluaUipAppcall config sockno { connected := true }
    ⟨state.services, conn, socket, ⟨false, [], false⟩⟩
  { state with
    services := app.services
    recorded := if app.services.acceptPending = state.slots then state.recorded
      else state.recorded ++ [⟨sockno, conn.ripaddr, htons conn.lport⟩] }

/-- A call begins. -/
def AcceptState.begin (state : AcceptState) (port : ℕ) (timed : Bool) : AcceptState :=
  if state.services.configured then
    { state with port := port, timed := timed, point := .looking 0 }
  else { state with returned := state.returned ++ [(port, none)] }

/-- The slots with one that is freed. -/
def AcceptState.free (state : AcceptState) (index : ℕ) : AcceptState :=
  { state with
    services := { state.services with
      acceptPending := state.slots.set index { state.slot index with acceptRequest := 0 } } }

/-- A step of `elua_accept`, with `elua_net_find_pending`. -/
def AcceptState.advance (state : AcceptState) (timeUp : Bool) : AcceptState :=
  match state.point with
  | .idle => state
  | .looking index =>
    if state.slots.length ≤ index then { state with point := .missed }
    else if (state.slot index).acceptRequest = 1 then { state with point := .comparing index }
    else { state with point := .looking (index + 1) }
  | .comparing index =>
    if (state.slot index).port = state.port then { state with point := .copying index }
    else { state with point := .looking (index + 1) }
  | .copying index => { state with point := .freeing index (state.slot index).remote }
  | .freeing index remote => { state.free index with point := .reading index remote }
  | .reading index remote =>
    { state with
      point := .idle
      returned := state.returned ++
        [(state.port, some ⟨(state.slot index).sock, remote, state.port⟩)] }
  | .missed =>
    if ¬ state.timed ∨ timeUp then
      { state with point := .idle, returned := state.returned ++ [(state.port, none)] }
    else { state with point := .looking 0 }

/-- One step. -/
def acceptStep (config : Config) (state : AcceptState) : AcceptEvent → Option AcceptState
  | .connect sockno conn socket => some (state.connect config sockno conn socket)
  | .call port timed => if state.point = .idle then some (state.begin port timed) else none
  | .step timeUp => if state.point = .idle then none else some (state.advance timeUp)

/-- The runs that begin in a state. -/
def acceptSystem (config : Config) (start : AcceptState) :
    TransitionSystem AcceptState AcceptEvent :=
  ofFunction (fun state ↦ state = start) (acceptStep config)

/-- The state after `elua_uip_init`: all slots are free. -/
def AcceptState.Initial (state : AcceptState) : Prop :=
  (∀ slot ∈ state.slots, slot.acceptRequest = 0) ∧ state.point = .idle ∧ state.returned = [] ∧
    state.recorded = []

/-! ### Conditions -/

/-- The first free slot, which is the one that is used next. -/
def firstFree (slots : List Pending) : ℕ := slots.findIdx (·.acceptRequest ≠ 1)

/-- The connection is one to be accepted: not one that this board opens, and not one to the telnet
console. -/
def Inbound (config : Config) (state : AcceptState) (sockno : ℕ) (conn : Connection)
    (socket : SocketState) : Prop :=
  ¬ (socket.state = .connect ∧ state.services.connecting = some sockno) ∧
    ¬ (config.conTcp ∧ conn.lport = htons telnetPort)

instance (config : Config) (state : AcceptState) (sockno : ℕ) (conn : Connection)
    (socket : SocketState) : Decidable (Inbound config state sockno conn socket) :=
  inferInstanceAs (Decidable (_ ∧ _))

/-- The slot whose socket the call is about to read. -/
def AcceptPoint.reads : AcceptPoint → Option ℕ
  | .reading index _ => some index
  | _ => none

/-- No connection is recorded in the slot whose socket a call is about to read. -/
def Undisturbed (config : Config) (state : AcceptState) : AcceptEvent → Prop
  | .connect sockno conn socket => Inbound config state sockno conn socket →
    state.point.reads ≠ some (firstFree state.slots)
  | _ => True

instance (config : Config) (state : AcceptState) (event : AcceptEvent) :
    Decidable (Undisturbed config state event) :=
  match event with
  | .connect .. => inferInstanceAs (Decidable (_ → _ ≠ _))
  | .call .. => .isTrue trivial
  | .step _ => .isTrue trivial

/-- No connection is recorded in a slot below one that is pending for the same port. -/
def InTurn (config : Config) (state : AcceptState) : AcceptEvent → Prop
  | .connect sockno conn socket => Inbound config state sockno conn socket →
    ∀ slot ∈ state.slots.drop (firstFree state.slots + 1), slot.acceptRequest = 1 →
      slot.port ≠ htons conn.lport
  | _ => True

/-! ### The table -/

/-- The connections that are pending. -/
def pendingOf (slots : List Pending) : List Accepted :=
  (slots.filter (·.acceptRequest = 1)).map Pending.accepted

theorem pendingOf_append (first second : List Pending) :
    pendingOf (first ++ second) = pendingOf first ++ pendingOf second := by
  rw [pendingOf, List.filter_append, List.map_append, pendingOf, pendingOf]

theorem pendingOf_cons (slot : Pending) (slots : List Pending) :
    pendingOf (slot :: slots) = pendingOf [slot] ++ pendingOf slots :=
  pendingOf_append [slot] slots

theorem pendingOf_singleton {slot : Pending} (hpending : slot.acceptRequest = 1) :
    pendingOf [slot] = [slot.accepted] := by
  simp [pendingOf, hpending]

theorem pendingOf_singleton_free {slot : Pending} (hfree : slot.acceptRequest ≠ 1) :
    pendingOf [slot] = [] := by
  simp [pendingOf, hfree]

theorem firstFree_cons (slot : Pending) (slots : List Pending) :
    firstFree (slot :: slots) = if slot.acceptRequest ≠ 1 then 0 else firstFree slots + 1 := by
  by_cases hfree : slot.acceptRequest = 1 <;> simp [firstFree, List.findIdx_cons, hfree]

/-- Recording uses the first free slot. -/
theorem recordPending_eq (entry : Pending) (slots : List Pending) :
    recordPending entry slots =
      if firstFree slots < slots.length then some (slots.set (firstFree slots) entry)
      else none := by
  induction slots with
  | nil => rfl
  | cons slot slots ih =>
    rw [recordPending, firstFree_cons, ih, List.length_cons]
    by_cases hfree : slot.acceptRequest ≠ 1
    · rw [if_pos hfree, if_pos hfree, if_pos (Nat.zero_lt_succ _), List.set_cons_zero]
    · rw [if_neg hfree, if_neg hfree, List.set_cons_succ]
      by_cases hlt : firstFree slots < slots.length
      · rw [if_pos hlt, if_pos (Nat.succ_lt_succ hlt), Option.map_some]
      · rw [if_neg hlt, if_neg (fun hsucc ↦ hlt (Nat.lt_of_succ_lt_succ hsucc)), Option.map_none]

/-- The slot that is used next is free. -/
theorem acceptRequest_firstFree {slots : List Pending} (hlt : firstFree slots < slots.length) :
    slots[firstFree slots].acceptRequest ≠ 1 := by
  induction slots with
  | nil => exact absurd hlt (Nat.not_lt_zero _)
  | cons slot slots ih =>
    by_cases hfree : slot.acceptRequest ≠ 1
    · have hfirst : firstFree (slot :: slots) = 0 :=
        (firstFree_cons slot slots).trans (if_pos hfree)
      simpa [hfirst] using hfree
    · have hfirst : firstFree (slot :: slots) = firstFree slots + 1 :=
        (firstFree_cons slot slots).trans (if_neg hfree)
      rw [hfirst, List.length_cons] at hlt
      simpa [hfirst] using ih (Nat.lt_of_succ_lt_succ hlt)

/-- One slot is written. -/
theorem pendingOf_set {slots : List Pending} {index : ℕ} (hlt : index < slots.length)
    (entry : Pending) :
    (pendingOf (slots.set index entry) ++ pendingOf [slots[index]]).Perm
      (pendingOf slots ++ pendingOf [entry]) := by
  have hslots : slots = slots.take index ++ slots[index] :: slots.drop (index + 1) := by
    rw [List.getElem_cons_drop, List.take_append_drop]
  have hset : slots.set index entry = slots.take index ++ entry :: slots.drop (index + 1) :=
    List.set_eq_take_append_cons_drop.trans (if_pos hlt)
  have hold : pendingOf slots = pendingOf (slots.take index) ++
      (pendingOf [slots[index]] ++ pendingOf (slots.drop (index + 1))) := by
    conv => lhs; rw [hslots, pendingOf_append, pendingOf_cons]
  rw [hset, pendingOf_append, pendingOf_cons, hold, List.perm_iff_count]
  intro accepted
  simp only [List.count_append]
  omega

/-! ### Steps -/

section Steps

variable {config : Config} {state : AcceptState} {index : ℕ}

theorem AcceptState.slot_of_lt (hlt : index < state.slots.length) :
    state.slot index = state.slots[index] := by
  rw [AcceptState.slot, List.getD_eq_getElem _ _ hlt]

/-- A pending slot is in the table. -/
theorem AcceptState.lt_of_pending (hpending : (state.slot index).acceptRequest = 1) :
    index < state.slots.length := by
  by_contra hge
  rw [AcceptState.slot, List.getD_eq_default _ _ (Nat.le_of_not_lt hge)] at hpending
  cases hpending

/-- A connection is recorded in the first free slot, or the table stays as it is. -/
theorem AcceptState.connect_cases (config : Config) (state : AcceptState) (sockno : ℕ)
    (conn : Connection) (socket : SocketState) :
    (state.connect config sockno conn socket).slots = state.slots ∧
        (state.connect config sockno conn socket).recorded = state.recorded ∨
      state.services.configured ∧ Inbound config state sockno conn socket ∧
        firstFree state.slots < state.slots.length ∧
        (state.connect config sockno conn socket).slots = state.slots.set (firstFree state.slots)
          ⟨1, sockno, conn.ripaddr, htons conn.lport⟩ ∧
        (state.connect config sockno conn socket).recorded =
          state.recorded ++ [⟨sockno, conn.ripaddr, htons conn.lport⟩] := by
  obtain ⟨app, happ⟩ : ∃ app, app = eluaUipAppcall config sockno { connected := true }
      ⟨state.services, conn, socket, ⟨false, [], false⟩⟩ := ⟨_, rfl⟩
  have hslots : (state.connect config sockno conn socket).slots = app.services.acceptPending := by
    rw [happ]
    rfl
  have hrecorded : (state.connect config sockno conn socket).recorded =
      if app.services.acceptPending = state.slots then state.recorded
      else state.recorded ++ [⟨sockno, conn.ripaddr, htons conn.lport⟩] := by
    rw [happ]
    rfl
  rw [hslots, hrecorded]
  have hsame : app.services.acceptPending = state.slots →
      app.services.acceptPending = state.slots ∧
        (if app.services.acceptPending = state.slots then state.recorded
          else state.recorded ++ [⟨sockno, conn.ripaddr, htons conn.lport⟩]) = state.recorded :=
    fun heq ↦ ⟨heq, if_pos heq⟩
  by_cases hconfigured : state.services.configured
  · have hpending : app.services.acceptPending = _ :=
      happ ▸ acceptPending_of_connected hconfigured rfl
    dsimp only at hpending
    by_cases hother : socket.state = .connect ∧ state.services.connecting = some sockno ∨
        config.conTcp ∧ conn.lport = htons telnetPort
    · exact .inl (hsame (hpending.trans (if_pos hother)))
    rw [if_neg hother, recordPending_eq] at hpending
    by_cases hlt : firstFree state.slots < state.slots.length
    · rw [show state.services.acceptPending = state.slots from rfl, if_pos hlt,
        Option.getD_some] at hpending
      refine .inr ⟨hconfigured, not_or.mp hother, hlt, hpending, if_neg fun heq ↦ ?_⟩
      have hfree := acceptRequest_firstFree hlt
      have hget : (state.slots.set (firstFree state.slots)
          ⟨1, sockno, conn.ripaddr, htons conn.lport⟩)[firstFree state.slots]? =
          state.slots[firstFree state.slots]? := by
        rw [← hpending, heq]
      rw [List.getElem?_set_self hlt, List.getElem?_eq_getElem hlt] at hget
      exact hfree (congrArg Pending.acceptRequest (Option.some.inj hget)).symm
    · rw [show state.services.acceptPending = state.slots from rfl, if_neg hlt,
        Option.getD_none] at hpending
      exact .inl (hsame hpending)
  · have hunchanged : app = ⟨state.services, conn, socket, ⟨false, [], false⟩⟩ := by
      rw [happ]
      exact if_pos hconfigured
    exact .inl (hsame (by rw [hunchanged]; rfl))

/-- The board stays configured. -/
theorem AcceptState.configured_connect {sockno : ℕ} {conn : Connection} {socket : SocketState}
    (hconfigured : state.services.configured) :
    (state.connect config sockno conn socket).services.configured := by
  unfold AcceptState.connect eluaUipAppcall connectedCall
  dsimp only
  rw [if_neg (not_not.mpr hconfigured), if_pos rfl]
  split_ifs
  · exact hconfigured
  · exact hconfigured
  · exact hconfigured
  · split <;> exact hconfigured

theorem AcceptState.configured_advance (state : AcceptState) (timeUp : Bool) :
    (state.advance timeUp).services.configured = state.services.configured := by
  unfold AcceptState.advance
  split <;> first | rfl | (split_ifs <;> rfl)

/-- What has been returned stays so. -/
theorem AcceptState.returned_advance (state : AcceptState) (timeUp : Bool) :
    ∃ last, (state.advance timeUp).returned = state.returned ++ last := by
  have hnone : ∃ last, state.returned = state.returned ++ last := ⟨[], (List.append_nil _).symm⟩
  unfold AcceptState.advance
  split
  · exact hnone
  · split_ifs <;> exact hnone
  · split_ifs <;> exact hnone
  · exact hnone
  · exact hnone
  · exact ⟨_, rfl⟩
  · split_ifs
    · exact ⟨_, rfl⟩
    · exact hnone

/-- Only the slot that is used next changes. -/
theorem AcceptState.slot_connect {sockno : ℕ} {conn : Connection} {socket : SocketState}
    (hother : Inbound config state sockno conn socket → index ≠ firstFree state.slots) :
    (state.connect config sockno conn socket).slot index = state.slot index := by
  rcases state.connect_cases config sockno conn socket with
    ⟨hsame, -⟩ | ⟨-, hinbound, hlt, hset, -⟩
  · rw [AcceptState.slot, hsame, AcceptState.slot]
  · rw [AcceptState.slot, hset, AcceptState.slot, List.getD_eq_getElem?_getD,
      List.getElem?_set_ne (Ne.symm (hother hinbound)), ← List.getD_eq_getElem?_getD]

/-- A pending slot is not the one that is used next. -/
theorem AcceptState.ne_firstFree (hpending : (state.slot index).acceptRequest = 1) :
    index ≠ firstFree state.slots := by
  rintro rfl
  have hlt := lt_of_pending hpending
  rw [slot_of_lt hlt] at hpending
  exact acceptRequest_firstFree hlt hpending

/-- The slot that is freed. -/
theorem AcceptState.slot_free_self (hlt : index < state.slots.length) :
    (state.free index).slot index = { state.slot index with acceptRequest := 0 } := by
  show (state.slots.set index { state.slot index with acceptRequest := 0 }).getD index _ = _
  rw [List.getD_eq_getElem?_getD, List.getElem?_set_self hlt, Option.getD_some]

/-- The other slots stay as they are. -/
theorem AcceptState.slot_free_of_ne {other : ℕ} (hne : other ≠ index) :
    (state.free index).slot other = state.slot other := by
  show (state.slots.set index { state.slot index with acceptRequest := 0 }).getD other _ = _
  rw [List.getD_eq_getElem?_getD, List.getElem?_set_ne (Ne.symm hne), ← List.getD_eq_getElem?_getD]
  rfl

/-- What is pending when a slot is freed. -/
theorem AcceptState.pendingOf_free (hpending : (state.slot index).acceptRequest = 1) :
    (pendingOf (state.free index).slots ++ [(state.slot index).accepted]).Perm
      (pendingOf state.slots) := by
  have hlt := lt_of_pending hpending
  have hset := pendingOf_set hlt { state.slot index with acceptRequest := 0 }
  rw [← slot_of_lt hlt, pendingOf_singleton hpending, pendingOf_singleton_free (by simp),
    List.append_nil] at hset
  exact hset

end Steps

/-! ### Each connection once -/

/-- What the calls have handed out. -/
def AcceptState.handedOut (state : AcceptState) : List Accepted :=
  state.returned.filterMap Prod.snd

/-- What the call has taken from the table and has not returned yet. -/
def AcceptState.inHand (state : AcceptState) : List Accepted :=
  match state.point with
  | .reading index remote => [⟨(state.slot index).sock, remote, state.port⟩]
  | _ => []

/-- Each connection that has been recorded has been handed out, or is in the hands of the call, or
is pending, and it is so once. What a call hands out is for its port. -/
def AcceptState.OnceEach (state : AcceptState) : Prop :=
  (state.handedOut ++ state.inHand ++ pendingOf state.slots).Perm state.recorded ∧
    ∀ entry ∈ state.returned, ∀ accepted ∈ entry.2, accepted.port = entry.1

/-- What the call knows of the slot it works on. -/
def AcceptState.Knows (state : AcceptState) : Prop :=
  match state.point with
  | .comparing index => (state.slot index).acceptRequest = 1
  | .copying index =>
    (state.slot index).acceptRequest = 1 ∧ (state.slot index).port = state.port
  | .freeing index remote =>
    (state.slot index).acceptRequest = 1 ∧ (state.slot index).port = state.port ∧
      (state.slot index).remote = remote
  | _ => True

section Once

variable {config : Config} {state after : AcceptState} {event : AcceptEvent}

/-- A connection that is established changes nothing the call knows. -/
theorem AcceptState.Knows.connect (hknows : state.Knows) (sockno : ℕ) (conn : Connection)
    (socket : SocketState) : (state.connect config sockno conn socket).Knows := by
  have hslot : ∀ index, (state.slot index).acceptRequest = 1 →
      (state.connect config sockno conn socket).slot index = state.slot index :=
    fun index hpending ↦ slot_connect fun _ ↦ ne_firstFree hpending
  unfold AcceptState.Knows at hknows ⊢
  have hpoint : (state.connect config sockno conn socket).point = state.point := rfl
  have hport : (state.connect config sockno conn socket).port = state.port := rfl
  rw [hpoint, hport]
  cases hcase : state.point with
  | comparing index =>
    rw [hcase] at hknows
    dsimp only at hknows ⊢
    rw [hslot index hknows]
    exact hknows
  | copying index =>
    rw [hcase] at hknows
    dsimp only at hknows ⊢
    rw [hslot index hknows.1]
    exact hknows
  | freeing index remote =>
    rw [hcase] at hknows
    dsimp only at hknows ⊢
    rw [hslot index hknows.1]
    exact hknows
  | idle => trivial
  | looking index => trivial
  | reading index remote => trivial
  | missed => trivial

/-- A step of the call. -/
theorem AcceptState.Knows.advance (hknows : state.Knows) (timeUp : Bool) :
    (state.advance timeUp).Knows := by
  unfold AcceptState.advance
  cases hcase : state.point with
  | idle =>
    show state.Knows
    exact hknows
  | looking index =>
    dsimp only
    split_ifs with hend hpending
    · trivial
    · exact hpending
    · trivial
  | comparing index =>
    unfold AcceptState.Knows at hknows
    rw [hcase] at hknows
    dsimp only
    split_ifs with hport
    · exact ⟨hknows, hport⟩
    · trivial
  | copying index =>
    unfold AcceptState.Knows at hknows
    rw [hcase] at hknows
    exact ⟨hknows.1, hknows.2, rfl⟩
  | freeing index remote => trivial
  | reading index remote => trivial
  | missed =>
    dsimp only
    split_ifs <;> trivial

/-- One more call has returned. -/
theorem ports_append {returned : List (ℕ × Option Accepted)} {port : ℕ} {result : Option Accepted}
    (hports : ∀ entry ∈ returned, ∀ accepted ∈ entry.2, accepted.port = entry.1)
    (hresult : ∀ accepted ∈ result, accepted.port = port) :
    ∀ entry ∈ returned ++ [(port, result)], ∀ accepted ∈ entry.2, accepted.port = entry.1 := by
  intro entry hentry
  rw [List.mem_append, List.mem_singleton] at hentry
  rcases hentry with hold | rfl
  · exact hports entry hold
  · exact hresult

/-- A connection is recorded, and not in the slot whose socket is about to be read. -/
theorem AcceptState.OnceEach.connect (honce : state.OnceEach) {sockno : ℕ} {conn : Connection}
    {socket : SocketState} (hundisturbed : Undisturbed config state (.connect sockno conn socket)) :
    (state.connect config sockno conn socket).OnceEach := by
  refine ⟨?_, honce.2⟩
  have hhand : (state.connect config sockno conn socket).inHand = state.inHand := by
    unfold AcceptState.inHand
    have hpoint : (state.connect config sockno conn socket).point = state.point := rfl
    rw [hpoint]
    cases hcase : state.point with
    | reading index remote =>
      have hslot : (state.connect config sockno conn socket).slot index = state.slot index := by
        refine slot_connect fun hinbound heq ↦ hundisturbed hinbound ?_
        rw [hcase, ← heq]
        rfl
      dsimp only
      rw [hslot]
      rfl
    | _ => rfl
  rw [show (state.connect config sockno conn socket).handedOut = state.handedOut from rfl, hhand]
  rcases state.connect_cases config sockno conn socket with
    ⟨hsame, hrecorded⟩ | ⟨-, -, hlt, hset, hrecorded⟩
  · rw [hsame, hrecorded]
    exact honce.1
  · have hpending := pendingOf_set hlt ⟨1, sockno, conn.ripaddr, htons conn.lport⟩
    rw [pendingOf_singleton_free (acceptRequest_firstFree hlt), List.append_nil, ← hset,
      pendingOf_singleton rfl] at hpending
    rw [hrecorded]
    refine (hpending.append_left _).trans ?_
    rw [← List.append_assoc]
    exact honce.1.append_right _

/-- A step of the call. -/
theorem AcceptState.OnceEach.advance (honce : state.OnceEach) (hknows : state.Knows)
    (timeUp : Bool) : (state.advance timeUp).OnceEach := by
  obtain ⟨hperm, hports⟩ := honce
  unfold AcceptState.inHand at hperm
  unfold AcceptState.Knows at hknows
  unfold AcceptState.advance
  cases hcase : state.point with
  | idle =>
    rw [hcase] at hperm
    refine ⟨?_, hports⟩
    unfold AcceptState.inHand
    rw [hcase]
    exact hperm
  | looking index =>
    rw [hcase] at hperm
    dsimp only
    split_ifs <;> exact ⟨hperm, hports⟩
  | comparing index =>
    rw [hcase] at hperm
    dsimp only
    split_ifs <;> exact ⟨hperm, hports⟩
  | copying index =>
    rw [hcase] at hperm
    exact ⟨hperm, hports⟩
  | freeing index remote =>
    rw [hcase] at hperm hknows
    obtain ⟨hpending, hport, hremote⟩ := hknows
    refine ⟨?_, hports⟩
    have hfree := state.pendingOf_free hpending
    have hslot := state.slot_free_self (lt_of_pending hpending)
    have hhand : AcceptState.inHand { state.free index with point := .reading index remote } =
        [(state.slot index).accepted] := by
      show [(⟨((state.free index).slot index).sock, remote, state.port⟩ : Accepted)] = _
      rw [hslot, ← hport, ← hremote]
      rfl
    show (state.handedOut ++ AcceptState.inHand
      { state.free index with point := .reading index remote } ++
        pendingOf (state.free index).slots).Perm state.recorded
    rw [hhand, List.append_assoc]
    dsimp only at hperm
    rw [List.append_nil] at hperm
    exact ((List.perm_append_comm.trans hfree).append_left _).trans hperm
  | reading index remote =>
    rw [hcase] at hperm
    refine ⟨?_, ?_⟩
    · show ((state.returned ++ [_]).filterMap Prod.snd ++ [] ++ pendingOf state.slots).Perm _
      rw [List.filterMap_append, List.append_nil]
      exact hperm
    · refine ports_append hports fun accepted haccepted ↦ ?_
      rw [← Option.some.inj haccepted]
  | missed =>
    rw [hcase] at hperm
    dsimp only
    split_ifs
    · refine ⟨?_, ?_⟩
      · show ((state.returned ++ [_]).filterMap Prod.snd ++ [] ++ pendingOf state.slots).Perm _
        rw [List.filterMap_append]
        simpa [AcceptState.handedOut] using hperm
      · exact ports_append hports fun _ hnone ↦ (nomatch hnone)
    · exact ⟨hperm, hports⟩

/-- A call begins. -/
theorem AcceptState.OnceEach.begin (honce : state.OnceEach) (hidle : state.point = .idle)
    (port : ℕ) (timed : Bool) : (state.begin port timed).OnceEach := by
  obtain ⟨hperm, hports⟩ := honce
  unfold AcceptState.inHand at hperm
  rw [hidle] at hperm
  unfold AcceptState.begin
  split_ifs
  · exact ⟨hperm, hports⟩
  · refine ⟨?_, ?_⟩
    · unfold AcceptState.inHand
      dsimp only
      rw [hidle]
      show ((state.returned ++ [_]).filterMap Prod.snd ++ [] ++ pendingOf state.slots).Perm _
      rw [List.filterMap_append]
      simpa [AcceptState.handedOut] using hperm
    · exact ports_append hports fun _ hnone ↦ (nomatch hnone)

end Once

/-! ### Each connection in the end -/

/-- The slots below one that are pending for a port. -/
def waitingBelow (slots : List Pending) (index port : ℕ) : ℕ :=
  (slots.take index).countP fun slot ↦ slot.acceptRequest = 1 ∧ slot.port = port

theorem waitingBelow_le (slots : List Pending) (index port : ℕ) :
    waitingBelow slots index port ≤ index :=
  le_trans List.countP_le_length (List.length_take_le _ _)

/-- A slot is written that is not below the one that is looked at. -/
theorem waitingBelow_set_of_le {slots : List Pending} {index other port : ℕ} {slot : Pending}
    (hle : index ≤ other) :
    waitingBelow (slots.set other slot) index port = waitingBelow slots index port := by
  rw [waitingBelow, waitingBelow, List.take_set_of_le hle]

/-- A slot is written that is not pending for the port, before and after. -/
theorem waitingBelow_set_of_not {slots : List Pending} {index other port : ℕ} {slot : Pending}
    (hlt : other < slots.length)
    (hbefore : ¬ (slots[other].acceptRequest = 1 ∧ slots[other].port = port))
    (hafter : ¬ (slot.acceptRequest = 1 ∧ slot.port = port)) :
    waitingBelow (slots.set other slot) index port = waitingBelow slots index port := by
  rcases Nat.lt_or_ge other index with hother | hother
  · have hlength : other < (slots.take index).length := by
      rw [List.length_take]
      omega
    rw [waitingBelow, List.take_set, List.countP_set hlength, List.getElem_take]
    simp only [hbefore, hafter, decide_false, Bool.false_eq_true, if_false, Nat.sub_zero,
      Nat.add_zero]
    rfl
  · exact waitingBelow_set_of_le hother

/-- A slot below is freed. -/
theorem waitingBelow_set_free {slots : List Pending} {index other port : ℕ} {slot : Pending}
    (hother : other < index) (hlt : other < slots.length)
    (hbefore : slots[other].acceptRequest = 1 ∧ slots[other].port = port)
    (hafter : slot.acceptRequest ≠ 1) :
    waitingBelow (slots.set other slot) index port + 1 = waitingBelow slots index port := by
  have hlength : other < (slots.take index).length := by
    rw [List.length_take]
    omega
  have hpositive : 0 < waitingBelow slots index port := by
    rw [waitingBelow, List.countP_pos_iff]
    refine ⟨slots[other], ?_, by simpa using hbefore⟩
    have hget : (slots.take index)[other] = slots[other] := List.getElem_take
    exact hget ▸ List.getElem_mem hlength
  rw [waitingBelow, List.take_set, List.countP_set hlength, List.getElem_take]
  simp only [hbefore, hafter, decide_true, if_true, false_and, decide_false, Bool.false_eq_true,
    if_false, Nat.add_zero, and_self]
  exact Nat.sub_add_cancel hpositive

/-- The calls for a port that have returned since a state. -/
def AcceptState.polls (state start : AcceptState) (port : ℕ) : ℕ :=
  (state.returned.drop start.returned.length).countP fun entry ↦ entry.1 = port

/-- A call for the port has not passed the slot. -/
def AcceptState.NotPassed (state : AcceptState) (index port : ℕ) : Prop :=
  state.port = port →
    match state.point with
    | .looking other => other ≤ index
    | .comparing other => other ≤ index
    | .copying other => other ≤ index
    | .freeing other _ => other ≤ index
    | .missed => False
    | _ => True

/-- A call for the port has taken a slot and has not returned yet. -/
def AcceptState.taken (state : AcceptState) (port : ℕ) : ℕ :=
  match state.point with
  | .reading _ _ => if state.port = port then 1 else 0
  | _ => 0

/-- The connection in the slot still waits: each call for its port that has returned since has taken
a slot below. -/
structure AcceptState.StillWaits (start : AcceptState) (index : ℕ) (state : AcceptState)
    (more : List (ℕ × Option Accepted)) : Prop where
  slot : state.slot index = start.slot index
  notPassed : state.NotPassed index (start.slot index).port
  count : more.countP (fun entry ↦ entry.1 = (start.slot index).port) +
    waitingBelow state.slots index (start.slot index).port +
      state.taken (start.slot index).port ≤
        waitingBelow start.slots index (start.slot index).port

/-- The connection is in the hands of a call. -/
structure AcceptState.IsTaken (start : AcceptState) (index : ℕ) (state : AcceptState)
    (more : List (ℕ × Option Accepted)) : Prop where
  point : state.point = .reading index (start.slot index).remote
  port : state.port = (start.slot index).port
  sock : (state.slot index).sock = (start.slot index).sock
  count : more.countP (fun entry ↦ entry.1 = (start.slot index).port) ≤
    waitingBelow start.slots index (start.slot index).port

/-- What holds after a state in which the slot is pending. -/
structure AcceptState.Follows (start : AcceptState) (index : ℕ) (state : AcceptState) : Prop where
  configured : state.services.configured
  knows : state.Knows
  more : ∃ more, state.returned = start.returned ++ more ∧
    (start.StillWaits index state more ∨ start.IsTaken index state more ∨
      ((start.slot index).port, some (start.slot index).accepted) ∈ more)

section Waiting

variable {config : Config} {start state after : AcceptState} {index : ℕ}
  {more : List (ℕ × Option Accepted)}

/-- A connection that is established does not overtake. -/
theorem AcceptState.StillWaits.connect (hwaits : start.StillWaits index state more)
    (hpending : (start.slot index).acceptRequest = 1) {sockno : ℕ} {conn : Connection}
    {socket : SocketState} (hturn : InTurn config state (.connect sockno conn socket)) :
    start.StillWaits index (state.connect config sockno conn socket) more := by
  have hslot : (state.slot index).acceptRequest = 1 := hwaits.slot ▸ hpending
  have hlt := lt_of_pending hslot
  refine ⟨(slot_connect fun _ ↦ ne_firstFree hslot).trans hwaits.slot, hwaits.notPassed, ?_⟩
  have hbelow : waitingBelow (state.connect config sockno conn socket).slots index
      (start.slot index).port = waitingBelow state.slots index (start.slot index).port := by
    rcases state.connect_cases config sockno conn socket with
      ⟨hsame, -⟩ | ⟨-, hinbound, hfirst, hset, -⟩
    · rw [hsame]
    · rw [hset]
      rcases Nat.lt_or_ge (firstFree state.slots) index with hbefore | hbehind
      · refine waitingBelow_set_of_not hfirst (fun hboth ↦ ?_) fun hboth ↦ ?_
        · exact acceptRequest_firstFree hfirst hboth.1
        · refine hturn hinbound (state.slot index) ?_ hslot ?_
          · rw [slot_of_lt hlt]
            rw [List.mem_iff_getElem]
            refine ⟨index - (firstFree state.slots + 1), ?_, ?_⟩
            · rw [List.length_drop]
              omega
            · rw [List.getElem_drop]
              congr 1
              omega
          · rw [hwaits.slot]
            exact hboth.2.symm
      · exact waitingBelow_set_of_le hbehind
  rw [hbelow]
  exact hwaits.count

/-- The call goes to another point and takes nothing. -/
theorem AcceptState.StillWaits.move (hwaits : start.StillWaits index state more)
    {point : AcceptPoint} (hreads : point.reads = none)
    (hpassed : AcceptState.NotPassed { state with point := point } index (start.slot index).port) :
    start.StillWaits index { state with point := point } more := by
  refine ⟨hwaits.slot, hpassed, ?_⟩
  have hcount := hwaits.count
  have htaken : AcceptState.taken { state with point := point } (start.slot index).port = 0 := by
    unfold AcceptState.taken
    cases point with
    | reading other remote => cases hreads
    | _ => rfl
  rw [htaken]
  show _ + waitingBelow state.slots index (start.slot index).port + 0 ≤ _
  omega

/-- A call returns that has taken a slot below, or is for another port. -/
theorem AcceptState.StillWaits.return (hwaits : start.StillWaits index state more)
    (result : Option Accepted)
    (htaken : state.port = (start.slot index).port → state.taken (start.slot index).port = 1) :
    start.StillWaits index
      { state with point := .idle, returned := state.returned ++ [(state.port, result)] }
      (more ++ [(state.port, result)]) := by
  refine ⟨hwaits.slot, fun _ ↦ trivial, ?_⟩
  have hcount := hwaits.count
  rw [List.countP_append, List.countP_singleton]
  show _ + waitingBelow state.slots index (start.slot index).port + 0 ≤ _
  split_ifs with hport
  · have hone := htaken (by simpa using hport)
    omega
  · omega

/-- A call frees a slot. It is the slot of the connection, or one below, or one for another port. -/
theorem AcceptState.StillWaits.free (hwaits : start.StillWaits index state more)
    (hpending : (start.slot index).acceptRequest = 1) {other : ℕ} {remote : NetIp}
    (hpoint : state.point = .freeing other remote)
    (hknows : (state.slot other).acceptRequest = 1 ∧ (state.slot other).port = state.port ∧
      (state.slot other).remote = remote) :
    start.StillWaits index { state.free other with point := .reading other remote } more ∨
      start.IsTaken index { state.free other with point := .reading other remote } more := by
  obtain ⟨hother, hport, hremote⟩ := hknows
  have hlt := lt_of_pending hother
  have hcount := hwaits.count
  have hpassed := hwaits.notPassed
  unfold AcceptState.NotPassed at hpassed
  rw [hpoint] at hpassed
  dsimp only at hpassed
  by_cases heq : other = index
  · subst heq
    refine .inr ⟨?_, ?_, ?_, ?_⟩
    · rw [← hwaits.slot, hremote]
    · rw [← hwaits.slot, hport]
      rfl
    · show ((state.free other).slot other).sock = _
      rw [slot_free_self hlt, ← hwaits.slot]
    · omega
  · refine .inl ⟨(slot_free_of_ne (Ne.symm heq)).trans hwaits.slot, fun _ ↦ trivial, ?_⟩
    show _ + waitingBelow (state.slots.set other { state.slot other with acceptRequest := 0 }) index
      (start.slot index).port + (if state.port = (start.slot index).port then 1 else 0) ≤ _
    by_cases hsame : state.port = (start.slot index).port
    · have hle := hpassed hsame
      rw [slot_of_lt hlt] at hother hport
      have hbelow := @waitingBelow_set_free state.slots index other (start.slot index).port
        { state.slot other with acceptRequest := 0 } (by omega) hlt ⟨hother, hport.trans hsame⟩
        (by simp)
      rw [if_pos hsame]
      omega
    · rw [slot_of_lt hlt] at hport
      rw [if_neg hsame, waitingBelow_set_of_not hlt (fun hboth ↦ hsame (hport.symm.trans hboth.2))
        fun hboth ↦ absurd hboth.1 (by simp)]
      omega

/-- A step of a call. -/
theorem AcceptState.StillWaits.advance (hwaits : start.StillWaits index state more)
    (hpending : (start.slot index).acceptRequest = 1) (hknows : state.Knows) (timeUp : Bool) :
    ∃ last, (state.advance timeUp).returned = state.returned ++ last ∧
      (start.StillWaits index (state.advance timeUp) (more ++ last) ∨
        start.IsTaken index (state.advance timeUp) (more ++ last)) := by
  have hslot : (state.slot index).acceptRequest = 1 := hwaits.slot ▸ hpending
  have hlt := lt_of_pending hslot
  have hpassed := hwaits.notPassed
  unfold AcceptState.NotPassed at hpassed
  unfold AcceptState.Knows at hknows
  unfold AcceptState.advance
  cases hcase : state.point with
  | idle => exact ⟨[], (List.append_nil _).symm, .inl ((List.append_nil more).symm ▸ hwaits)⟩
  | looking other =>
    rw [hcase] at hpassed
    refine ⟨[], ?_, .inl ?_⟩
    · dsimp only
      split_ifs <;> exact (List.append_nil _).symm
    · rw [List.append_nil]
      dsimp only at hpassed ⊢
      split_ifs with hend hother
      · refine hwaits.move rfl fun hport ↦ ?_
        have hle := hpassed hport
        omega
      · exact hwaits.move rfl hpassed
      · refine hwaits.move rfl fun hport ↦ ?_
        have hle := hpassed hport
        have hne : other ≠ index := fun heq ↦ hother (heq ▸ hslot)
        show other + 1 ≤ index
        omega
  | comparing other =>
    rw [hcase] at hpassed
    refine ⟨[], ?_, .inl ?_⟩
    · dsimp only
      split_ifs <;> exact (List.append_nil _).symm
    · rw [List.append_nil]
      dsimp only at hpassed ⊢
      split_ifs with hother
      · exact hwaits.move rfl hpassed
      · refine hwaits.move rfl fun hport ↦ ?_
        have hle := hpassed hport
        have hne : other ≠ index := by
          rintro rfl
          rw [hwaits.slot] at hother
          exact hother hport.symm
        show other + 1 ≤ index
        omega
  | copying other =>
    rw [hcase] at hpassed
    exact ⟨[], (List.append_nil _).symm,
      .inl ((List.append_nil more).symm ▸ hwaits.move rfl hpassed)⟩
  | freeing other remote =>
    rw [hcase] at hknows
    rw [← List.append_nil more] at hwaits
    exact ⟨[], (List.append_nil _).symm, hwaits.free hpending hcase hknows⟩
  | reading other remote =>
    refine ⟨_, rfl, .inl (hwaits.return _ fun hport ↦ ?_)⟩
    rw [AcceptState.taken, hcase]
    exact if_pos hport
  | missed =>
    rw [hcase] at hpassed
    have hport : state.port ≠ (start.slot index).port := fun hport ↦ hpassed hport
    dsimp only
    split_ifs
    · exact ⟨_, rfl, .inl (hwaits.return none fun hyes ↦ absurd hyes hport)⟩
    · refine ⟨[], (List.append_nil _).symm, .inl ((List.append_nil more).symm ▸ ?_)⟩
      exact hwaits.move rfl fun hyes ↦ absurd hyes hport

/-- A call begins. -/
theorem AcceptState.StillWaits.begin (hwaits : start.StillWaits index state more)
    (hconfigured : state.services.configured) (port : ℕ) (timed : Bool) :
    start.StillWaits index (state.begin port timed) more := by
  have hcount := hwaits.count
  unfold AcceptState.begin
  rw [if_pos hconfigured]
  refine ⟨hwaits.slot, fun _ ↦ Nat.zero_le _, ?_⟩
  show _ + waitingBelow state.slots index (start.slot index).port + 0 ≤ _
  omega

/-- Nothing is recorded in the slot whose socket is about to be read. -/
theorem AcceptState.IsTaken.connect (htaken : start.IsTaken index state more) {sockno : ℕ}
    {conn : Connection} {socket : SocketState}
    (hundisturbed : Undisturbed config state (.connect sockno conn socket)) :
    start.IsTaken index (state.connect config sockno conn socket) more := by
  refine ⟨htaken.point, htaken.port, ?_, htaken.count⟩
  rw [slot_connect fun hinbound heq ↦ hundisturbed hinbound ?_, htaken.sock]
  rw [htaken.point, ← heq]
  rfl

/-- The call returns the connection. -/
theorem AcceptState.IsTaken.advance (htaken : start.IsTaken index state more) (timeUp : Bool) :
    (state.advance timeUp).returned = state.returned ++
      [((start.slot index).port, some (start.slot index).accepted)] := by
  unfold AcceptState.advance
  rw [htaken.point]
  dsimp only
  rw [htaken.port, htaken.sock]
  rfl

/-- Every step goes on. -/
theorem AcceptState.Follows.step {event : AcceptEvent} (hfollows : start.Follows index state)
    (hpending : (start.slot index).acceptRequest = 1)
    (hundisturbed : Undisturbed config state event)
    (hturn : InTurn config state event) (hstep : acceptStep config state event = some after) :
    start.Follows index after := by
  obtain ⟨hconfigured, hknows, more, hreturned, hcases⟩ := hfollows
  cases event with
  | connect sockno conn socket =>
    obtain rfl := Option.some.inj hstep
    refine ⟨configured_connect hconfigured, hknows.connect _ _ _, more, hreturned, ?_⟩
    rcases hcases with hwaits | htaken | hdone
    · exact .inl (hwaits.connect hpending hturn)
    · exact .inr (.inl (htaken.connect hundisturbed))
    · exact .inr (.inr hdone)
  | call port timed =>
    simp only [acceptStep] at hstep
    split_ifs at hstep with hidle
    obtain rfl := Option.some.inj hstep
    have hbegin : state.begin port timed =
        { state with port := port, timed := timed, point := .looking 0 } := if_pos hconfigured
    refine ⟨hbegin ▸ hconfigured, hbegin ▸ trivial, more, hbegin ▸ hreturned, ?_⟩
    rcases hcases with hwaits | htaken | hdone
    · exact .inl (hwaits.begin hconfigured port timed)
    · rw [htaken.point] at hidle
      cases hidle
    · exact .inr (.inr hdone)
  | step timeUp =>
    simp only [acceptStep] at hstep
    split_ifs at hstep with hidle
    obtain rfl := Option.some.inj hstep
    refine ⟨(state.configured_advance timeUp).trans hconfigured, hknows.advance timeUp, ?_⟩
    rcases hcases with hwaits | htaken | hdone
    · obtain ⟨last, hlast, hafter⟩ := hwaits.advance hpending hknows timeUp
      refine ⟨more ++ last, ?_, hafter.imp_right .inl⟩
      rw [hlast, hreturned, List.append_assoc]
    · refine ⟨more ++ [((start.slot index).port, some (start.slot index).accepted)], ?_,
        .inr (.inr (List.mem_append_right _ List.mem_cons_self))⟩
      rw [htaken.advance, hreturned, List.append_assoc]
    · obtain ⟨last, hlast⟩ := state.returned_advance timeUp
      refine ⟨more ++ last, ?_, .inr (.inr (List.mem_append_left _ hdone))⟩
      rw [hlast, hreturned, List.append_assoc]

end Waiting

/-! ### Runs -/

/-- What holds after the start as long as no slot is disturbed. -/
structure AcceptState.Sound (state : AcceptState) : Prop where
  once : state.OnceEach
  knows : state.Knows
  configured : ∀ slot ∈ state.slots, slot.acceptRequest = 1 → state.services.configured

/-- How many steps a call takes at most until it returns or begins a new search. -/
def AcceptPoint.stepsLeft (length : ℕ) : AcceptPoint → ℕ
  | .idle => 0
  | .looking index => 2 * (length - index) + 5
  | .comparing index => 2 * (length - index) + 4
  | .copying _ => 3
  | .freeing _ _ => 2
  | .reading _ _ => 1
  | .missed => 1

section Runs

variable {config : Config} {initial state after : AcceptState} {event : AcceptEvent}

theorem AcceptState.Initial.sound (hinitial : initial.Initial) : initial.Sound := by
  obtain ⟨hfree, hidle, hreturned, hrecorded⟩ := hinitial
  have hslots : ∀ slot ∈ initial.slots, slot.acceptRequest ≠ 1 := by
    intro slot hslot hpending
    rw [hfree slot hslot] at hpending
    cases hpending
  refine ⟨⟨?_, ?_⟩, ?_, fun slot hslot hpending ↦ absurd hpending (hslots slot hslot)⟩
  · have hnone : pendingOf initial.slots = [] := by
      rw [pendingOf, List.filter_eq_nil_iff.mpr fun slot hslot ↦ by simpa using hslots slot hslot]
      rfl
    unfold AcceptState.handedOut AcceptState.inHand
    rw [hreturned, hidle, hrecorded, hnone]
    rfl
  · rw [hreturned]
    exact fun _ hmem ↦ absurd hmem List.not_mem_nil
  · unfold AcceptState.Knows
    rw [hidle]
    trivial

/-- Every step that disturbs no slot. -/
theorem AcceptState.Sound.step (hsound : state.Sound)
    (hundisturbed : Undisturbed config state event)
    (hstep : acceptStep config state event = some after) : after.Sound := by
  cases event with
  | connect sockno conn socket =>
    obtain rfl := Option.some.inj hstep
    refine ⟨hsound.once.connect hundisturbed, hsound.knows.connect _ _ _, ?_⟩
    rcases state.connect_cases config sockno conn socket with
      ⟨hsame, -⟩ | ⟨hconfigured, -⟩
    · rw [hsame]
      exact fun slot hslot hpending ↦ configured_connect (hsound.configured slot hslot hpending)
    · exact fun _ _ _ ↦ configured_connect hconfigured
  | call port timed =>
    simp only [acceptStep] at hstep
    split_ifs at hstep with hidle
    obtain rfl := Option.some.inj hstep
    refine ⟨hsound.once.begin hidle port timed, ?_, ?_⟩
    · unfold AcceptState.begin
      split_ifs
      · trivial
      · exact hsound.knows
    · unfold AcceptState.begin
      split_ifs <;> exact hsound.configured
  | step timeUp =>
    simp only [acceptStep] at hstep
    split_ifs at hstep with hidle
    obtain rfl := Option.some.inj hstep
    refine ⟨hsound.once.advance hsound.knows timeUp, hsound.knows.advance timeUp, ?_⟩
    rw [state.configured_advance timeUp]
    unfold AcceptState.advance
    split
    · exact hsound.configured
    · split_ifs <;> exact hsound.configured
    · split_ifs <;> exact hsound.configured
    · exact hsound.configured
    · intro slot hslot hpending
      rcases List.mem_or_eq_of_mem_set hslot with hold | rfl
      · exact hsound.configured slot hold hpending
      · cases hpending
    · exact hsound.configured
    · split_ifs <;> exact hsound.configured

theorem AcceptState.sound_of_reachable (hinitial : initial.Initial)
    (hreach : (acceptSystem config initial).ReachableUnder (Undisturbed config) state) :
    state.Sound := by
  refine hreach.invariant AcceptState.Sound ?_ fun before event after hbefore hpermitted hstep ↦
    hbefore.step hpermitted hstep
  rintro start rfl
  exact hinitial.sound

/-- A call goes on towards its return, or begins a new search because it has found nothing and has
time left. -/
theorem AcceptState.stepsLeft_advance (hcall : state.point ≠ .idle) (hknows : state.Knows)
    (timeUp : Bool) :
    (state.advance timeUp).point.stepsLeft state.slots.length <
        state.point.stepsLeft state.slots.length ∨
      state.point = .missed ∧ state.timed ∧ ¬ timeUp := by
  unfold AcceptState.Knows at hknows
  unfold AcceptState.advance
  cases hcase : state.point with
  | idle => exact absurd hcase hcall
  | looking index =>
    left
    dsimp only
    split_ifs <;> simp only [AcceptPoint.stepsLeft] <;> omega
  | comparing index =>
    left
    rw [hcase] at hknows
    have hlt := lt_of_pending hknows
    dsimp only
    split_ifs <;> simp only [AcceptPoint.stepsLeft] <;> omega
  | copying index => exact .inl (Nat.lt_succ_self 2)
  | freeing index remote => exact .inl (Nat.lt_succ_self 1)
  | reading index remote => exact .inl (Nat.lt_succ_self 0)
  | missed =>
    dsimp only
    split_ifs with hend
    · exact .inl (Nat.lt_succ_self 0)
    · rw [not_or, not_not] at hend
      exact .inr ⟨rfl, hend⟩

/-- As long as no connection is recorded in the slot whose socket a call is about to read, each
connection is handed out once. If moreover none is recorded below one that is pending for the same
port, then a connection that is pending in a slot is handed out by one of the next calls for its
port, of which there are at most one more than slots below; and each step of a call brings it nearer
to its return, or begins a new search. -/
theorem accepted_once_each {initial : AcceptState} (hinitial : initial.Initial) :
    (∀ state, (acceptSystem config initial).ReachableUnder (Undisturbed config) state →
      state.OnceEach ∧ ∀ timeUp, state.point ≠ .idle →
        (state.advance timeUp).point.stepsLeft state.slots.length <
            state.point.stepsLeft state.slots.length ∨
          state.point = .missed ∧ state.timed ∧ ¬ timeUp) ∧
    ∀ start index state,
      (acceptSystem config initial).ReachableUnder (Undisturbed config) start →
      start.point = .idle → (start.slot index).acceptRequest = 1 →
      (acceptSystem config start).ReachableUnder
        (fun before event ↦ Undisturbed config before event ∧ InTurn config before event) state →
      index < state.polls start (start.slot index).port →
        ((start.slot index).port, some (start.slot index).accepted) ∈
          state.returned.drop start.returned.length := by
  constructor
  · intro state hreach
    have hsound := AcceptState.sound_of_reachable hinitial hreach
    exact ⟨hsound.once, fun timeUp hcall ↦ AcceptState.stepsLeft_advance hcall hsound.knows timeUp⟩
  intro start index state hstart hidle hpending hreach hpolls
  have hsound := AcceptState.sound_of_reachable hinitial hstart
  have hlt := AcceptState.lt_of_pending hpending
  have hconfigured : start.services.configured := by
    refine hsound.configured (start.slot index) ?_ hpending
    rw [AcceptState.slot_of_lt hlt]
    exact List.getElem_mem hlt
  have hwaits : start.StillWaits index start [] := by
    refine ⟨rfl, fun _ ↦ ?_, ?_⟩
    · rw [hidle]
      trivial
    · have htaken : start.taken (start.slot index).port = 0 := by
        rw [AcceptState.taken, hidle]
      rw [htaken, List.countP_nil]
      omega
  have hfollows : start.Follows index state := by
    refine hreach.invariant (start.Follows index) ?_ fun before event after hbefore hpermitted
      hstep ↦ hbefore.step hpending hpermitted.1 hpermitted.2 hstep
    rintro first rfl
    exact ⟨hconfigured, hsound.knows, [], (List.append_nil _).symm, .inl hwaits⟩
  obtain ⟨-, -, more, hreturned, hcases⟩ := hfollows
  have hle := waitingBelow_le start.slots index (start.slot index).port
  unfold AcceptState.polls at hpolls
  rw [hreturned, List.drop_left] at hpolls ⊢
  rcases hcases with hstill | htaken | hdone
  · have hcount := hstill.count
    omega
  · have hcount := htaken.count
    omega
  · exact hdone

end Runs

/-- A board with two slots, both free. -/
def twoSlots : AcceptState where
  services := ⟨true, none, [⟨0, 0, ⟨0, 0⟩, 0⟩, ⟨0, 0, ⟨0, 0⟩, 0⟩], none⟩
  port := 0
  timed := false
  point := .idle
  returned := []
  recorded := []

/-- What the build of this board fixes. -/
def twoSlotsConfig : Config := ⟨true, true, 1460, 2, 1460⟩

/-- A connection to port 80 on a socket, from an address. -/
def connectTo80 (sockno address : ℕ) : AcceptEvent :=
  .connect sockno ⟨htons 80, ⟨address, 0⟩, 1460, false, false, []⟩ ⟨.idle, 0, 0, 0, -1⟩

/-- A connection is recorded, and a call takes the given number of steps. -/
def connectAndCall (steps : ℕ) : List AcceptEvent :=
  [connectTo80 0 1, .call 80 false] ++ List.replicate steps (.step false)

theorem accepted_once_each_twoSlots :
    ∃ state : AcceptState, state.returned = [(80, some ⟨0, ⟨1, 0⟩, 80⟩)] ∧ state.OnceEach := by
  have hinitial : twoSlots.Initial := by
    refine ⟨?_, rfl, rfl, rfl⟩
    decide
  have hpermits : PermitsEvents (acceptStep twoSlotsConfig) (Undisturbed twoSlotsConfig) twoSlots
      (connectAndCall 5) := by decide
  have hstart : (acceptSystem twoSlotsConfig twoSlots).ReachableUnder (Undisturbed twoSlotsConfig)
      twoSlots := .start rfl
  have hreach := reachableUnder_of_permitsEvents (connectAndCall 5) hstart hpermits rfl
  exact ⟨_, rfl, ((accepted_once_each hinitial).1 _ hreach).1⟩

/-- A second connection is recorded between the fourth and the fifth step of the call, in the slot
that has just been freed. The call returns its socket with the address of the first, and the first
connection is lost. -/
theorem not_accepted_once_each_refilled_slot :
    ¬ ∀ (config : Config) (initial state : AcceptState), initial.Initial →
      (acceptSystem config initial).Reachable state → state.OnceEach := by
  intro hall
  have hinitial : twoSlots.Initial := by
    refine ⟨?_, rfl, rfl, rfl⟩
    decide
  have hstart : (acceptSystem twoSlotsConfig twoSlots).Reachable twoSlots := .start rfl
  have hreach := reachableUnder_of_runEvents (fun _ _ _ hstep ↦ hstep)
    (connectAndCall 4 ++ [connectTo80 1 2, .step false]) hstart (fun _ _ _ ↦ trivial) rfl
  exact absurd (hall twoSlotsConfig twoSlots _ hinitial hreach).1 (by decide)

end Elua.Uip
