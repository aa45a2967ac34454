import Elua.Rfs.PacketBounds

/-!
# The server in the multiplexer

The multiplexer holds a server of the remote file system, whose transport is memory. Its main loop
hands the server a byte at a time, has the request executed when all of it is there, and sends the
response before it reads another byte. A run of `muxSystem` is any sequence of these.

A header that is not one of a packet leads to the state in which a request is complete, with no
response to take. Only taking a response leads back, so the server drops all that arrives from then
on. So it does with a packet that has nothing behind its size, whose end it looks
for in vain. In a run in which every header is one of a packet that fits, the server returns to
accepting packets and answers each request once (`neverStuck_of_fits`). -/

set_option autoImplicit false
set_option relaxedAutoImplicit false

namespace Elua.Rfs

open Foundation TransitionSystem Rpc

/-! ### The code -/

/-- The server, and the variables of the main loop that belong to it, with the requests that have
been executed and the bytes that have been sent. -/
structure RfsMux (Host : Type) where
  server : Server Host
  mem : MemReader
  rfsSize : UInt16
  rfsPtr : Addr
  executed : List (List UInt8)
  sent : List UInt8

/-- A byte comes for the server, the response is taken, or a byte of it is sent. -/
inductive MuxEvent
  | feed (c : UInt8)
  | take (fuel : ℕ)
  | send

/-- There is neither a byte to send nor a response to take, so that the main loop reads a byte. -/
def RfsMux.Reads {Host : Type} (mux : RfsMux Host) : Prop :=
  mux.rfsSize = 0 ∧ mux.mem.responseFlag = false

instance {Host : Type} (mux : RfsMux Host) : Decidable mux.Reads :=
  inferInstanceAs (Decidable (_ ∧ _))

/-- A byte is handed to the server. -/
def RfsMux.feedByte {Host : Type} (config : ServerConfig) (mux : RfsMux Host) (c : UInt8) :
    RfsMux Host :=
  let (_, mem, ram, _) := rfsMemReadRequestPacket config mux.server.ram mux.mem (some c)
  { mux with server.ram := ram, mem := mem }

/-- A byte of the response is sent. -/
def RfsMux.sendByte {Host : Type} (mux : RfsMux Host) : RfsMux Host :=
  { mux with
    rfsSize := mux.rfsSize - 1
    rfsPtr := mux.rfsPtr + 1
    sent := mux.sent ++ [mux.server.ram mux.rfsPtr] }

section Code

variable {Host : Type} (posix : Posix Host) (config : ServerConfig)

/-- `rfs_mem_write_response`: what it stores to `plen` and `pdata`, and the server. -/
def rfsMemWriteResponse (server : Server Host) (pdata : Addr) (fuel : ℕ) :
    Option (UInt16 × Addr × Server Host) := do
  let (_, after) ← serverExecuteRequest posix config server fuel
  match eluarpcGetPacketSize after.ram config.rfsBuffer with
  | (.ok, plen) => pure (plen, config.rfsBuffer, after)
  | (.err, _) => pure (0, pdata, after)

/-- What an event does. -/
def muxStep (mux : RfsMux Host) : MuxEvent → Option (RfsMux Host)
  | .feed c => if mux.Reads then some (mux.feedByte config c) else none
  | .take fuel =>
    if mux.mem.responseFlag then do
      let request := loadBytes mux.server.ram config.rfsBuffer
        (eluarpcStartOffset + mux.mem.readLen).toNat
      let (rfsSize, rfsPtr, server) ← rfsMemWriteResponse posix config mux.server mux.rfsPtr fuel
      pure
        { mux with
          server := server
          mem := rfsMemStartRequest
          rfsSize := rfsSize
          rfsPtr := rfsPtr
          executed := mux.executed ++ [request] }
    else none
  | .send => if mux.rfsSize ≠ 0 then some mux.sendByte else none

/-- The runs of the main loop. -/
def muxSystem : TransitionSystem (RfsMux Host) MuxEvent :=
  .ofFunction (fun mux ↦ mux.mem = rfsMemStartRequest ∧ mux.rfsSize = 0) (muxStep posix config)

end Code

/-! ### What is asked for -/

/-- The bytes that come in a run. -/
def fedBytes : List MuxEvent → List UInt8
  | [] => []
  | .feed c :: events => c :: fedBytes events
  | .take _ :: events => fedBytes events
  | .send :: events => fedBytes events

theorem fedBytes_append (first second : List MuxEvent) :
    fedBytes (first ++ second) = fedBytes first ++ fedBytes second := by
  induction first with
  | nil => rfl
  | cons event first ih =>
    cases event with
    | feed c => exact congrArg (c :: ·) ih
    | _ => exact ih

/-- The next byte is the first one of a packet. -/
def RfsMux.Expecting {Host : Type} (mux : RfsMux Host) : Prop :=
  mux.mem = rfsMemStartRequest ∧ mux.rfsSize = 0

/-- The bytes of a request that fits, by its size. -/
structure Complete (request : List UInt8) : Prop where
  size : sizeField request = some request.length
  lower : eluarpcStartOffset < request.length
  upper : request.length ≤ rfsBufferSize

section Property

variable {Host : Type} (posix : Posix Host) (config : ServerConfig)

/-- The server with a request in its buffer. -/
def Server.received (server : Server Host) (request : List UInt8) : Server Host :=
  { server with ram := (Cursor.putAll ⟨server.ram, config.rfsBuffer⟩ request).ram }

/-- The full name of a file or a directory that is to be opened fits, and so does that of the next
file of a directory, which has an end. -/
structure NamesFit (server : Server Host) : Prop where
  «open» : ∀ filename flags mode,
    remotefsOpenReadRequest server.ram config.rfsBuffer = (.ok, filename, flags, mode) →
      (serverFullname config (filename.map (stringAt server.ram))).isSome
  «opendir» : ∀ name, remotefsOpendirReadRequest server.ram config.rfsBuffer = (.ok, name) →
    (serverFullname config (name.map (stringAt server.ram))).isSome
  «readdir» : ∀ d, remotefsReaddirReadRequest server.ram config.rfsBuffer = (.ok, d) →
    ∃ fuel found, osReaddir posix config d fuel server.host = some found ∧
      ∀ name ∈ found.1, (serverFullname config (some name.bytes)).isSome

/-- A request is executed once and answered once: a run in which it comes, up to where the next byte
is read, has the effect and the response of a turn of the server, and there is such a run if the
names of the request fit. -/
structure AnsweredOnce (mux : RfsMux Host) (request : List UInt8) : Prop where
  once : ∀ events final, runEvents (muxStep posix config) mux events = some final →
    fedBytes events = request → final.Reads →
      ∃ fuel response, serverTurn posix config fuel mux.server request =
          some (response, final.server) ∧
        final.executed = mux.executed ++ [request] ∧ final.sent = mux.sent ++ response
  answered : NamesFit posix config (mux.server.received config request) →
    ∃ events final, runEvents (muxStep posix config) mux events = some final ∧
      fedBytes events = request ∧ final.Expecting ∧ ∃ fuel response,
        serverTurn posix config fuel mux.server request = some (response, final.server)

/-- After some of the events the next byte is the first one of a packet. -/
def PassesExpecting (mux : RfsMux Host) (events : List MuxEvent) : Prop :=
  ∃ front middle, front <+: events ∧
    runEvents (muxStep posix config) mux front = some middle ∧ middle.Expecting

/-- In the runs whose steps are permitted, a request is complete just if a response is waiting, the
server returns to accepting packets before too many bytes have come, and a request that comes then
is answered once. -/
structure NeverStuck (permitted : RfsMux Host → MuxEvent → Prop) : Prop where
  done_iff : ∀ mux, (muxSystem posix config).ReachableUnder permitted mux →
    (mux.mem.readState = .requestDone ↔ mux.mem.responseFlag = true)
  returns : ∃ bound, ∀ mux, (muxSystem posix config).ReachableUnder permitted mux →
    ∀ events final, PermitsEvents (muxStep posix config) permitted mux events →
      runEvents (muxStep posix config) mux events = some final →
        bound < (fedBytes events).length → PassesExpecting posix config mux events
  answers : ∀ mux, (muxSystem posix config).ReachableUnder permitted mux → mux.Expecting →
    ∀ request, Complete request → AnsweredOnce posix config mux request

/-- The header that a byte completes is that of a packet that fits and has something behind its
size. -/
def MemReader.HeaderFits (mem : MemReader) (ram : Ram) (c : UInt8) : Prop :=
  mem.readState = .readLength → mem.readLen = 3 →
    ∃ size, sizeField (loadBytes ram config.rfsBuffer 3 ++ [c]) = some size ∧
      eluarpcStartOffset < size ∧ size ≤ rfsBufferSize

/-- Headers are those of packets that fit, and a read asks for no more than there is room for. A
larger packet or read is stored behind the end of the buffer. -/
def RfsMux.Fits (mux : RfsMux Host) : MuxEvent → Prop
  | .feed c => mux.mem.HeaderFits config mux.server.ram c
  | .take _ => ∀ fd count,
      remotefsReadReadRequest mux.server.ram config.rfsBuffer = (.ok, fd, count) →
        eluarpcReadBufOffset + count.toNat ≤ rfsBufferSize
  | .send => True

end Property

/-! ### What a step can do -/

section Steps

variable {Host : Type} {posix : Posix Host} {config : ServerConfig} {mux after : RfsMux Host}

theorem muxStep_feed {c : UInt8} :
    muxStep posix config mux (.feed c) = some after ↔
      mux.Reads ∧ mux.feedByte config c = after := by
  rw [muxStep, Option.ite_none_right_eq_some, Option.some_inj]

theorem muxStep_send :
    muxStep posix config mux .send = some after ↔ mux.rfsSize ≠ 0 ∧ mux.sendByte = after := by
  rw [muxStep, Option.ite_none_right_eq_some, Option.some_inj]

/-- The response is taken: the request is executed, and what is to be sent then is what the
transport over a line sends. -/
structure Taken (posix : Posix Host) (config : ServerConfig) (fuel : ℕ)
    (mux after : RfsMux Host) : Prop where
  flag : mux.mem.responseFlag = true
  execute : ∃ status, serverExecuteRequest posix config mux.server fuel =
    some (status, after.server)
  mem : after.mem = rfsMemStartRequest
  response : loadBytes after.server.ram after.rfsPtr after.rfsSize.toNat =
    serSendResponsePacket after.server.ram config.rfsBuffer
  executed : after.executed = mux.executed ++
    [loadBytes mux.server.ram config.rfsBuffer (eluarpcStartOffset + mux.mem.readLen).toNat]
  sent : after.sent = mux.sent

theorem taken_of_muxStep {fuel : ℕ} (hstep : muxStep posix config mux (.take fuel) = some after) :
    Taken posix config fuel mux after := by
  simp only [muxStep] at hstep
  split_ifs at hstep with hflag
  obtain ⟨⟨rfsSize, rfsPtr, server⟩, hresponse, hafter⟩ := Option.bind_eq_some_iff.mp hstep
  obtain ⟨⟨status, last⟩, hexecute, hsent⟩ := Option.bind_eq_some_iff.mp hresponse
  obtain rfl := Option.some.inj hafter
  dsimp only at hsent
  split at hsent
  · rename_i plen hsize
    obtain ⟨rfl, rfl, rfl⟩ := Option.some.inj hsent
    refine ⟨hflag, ⟨status, hexecute⟩, rfl, ?_, rfl, rfl⟩
    rw [serSendResponsePacket, hsize]
  · rename_i plen hsize
    obtain ⟨rfl, rfl, rfl⟩ := Option.some.inj hsent
    refine ⟨hflag, ⟨status, hexecute⟩, rfl, ?_, rfl, rfl⟩
    rw [serSendResponsePacket, hsize]
    rfl

/-- The response can be taken if the request is executed. -/
theorem exists_muxStep_take {fuel : ℕ} {status : ServerStatus} {server : Server Host}
    (hflag : mux.mem.responseFlag = true)
    (hexecute : serverExecuteRequest posix config mux.server fuel = some (status, server)) :
    ∃ after, muxStep posix config mux (.take fuel) = some after := by
  have hresponse : ∃ result,
      rfsMemWriteResponse posix config mux.server mux.rfsPtr fuel = some result := by
    rw [rfsMemWriteResponse, hexecute]
    dsimp only [Option.bind_eq_bind, Option.bind_some]
    split
    · exact ⟨_, rfl⟩
    · exact ⟨_, rfl⟩
  obtain ⟨result, hresult⟩ := hresponse
  rw [muxStep, if_pos hflag, hresult]
  exact ⟨_, rfl⟩

end Steps

/-! ### Sending a response -/

section Sending

variable {Host : Type} {posix : Posix Host} {config : ServerConfig} {mux final : RfsMux Host}

theorem toNat_sub_one {size : UInt16} (hsize : size ≠ 0) : (size - 1).toNat + 1 = size.toNat := by
  have hpos : 0 < size.toNat := Nat.pos_of_ne_zero fun hzero ↦ hsize (UInt16.toNat_inj.mp hzero)
  have hone : (1 : UInt16) ≤ size := UInt16.le_iff_toNat_le.mpr hpos
  rw [UInt16.toNat_sub_of_le _ _ hone]
  exact Nat.sub_add_cancel hpos

/-- When no byte comes and no response is taken, what is sent is what was to be sent. -/
theorem run_sends (events : List MuxEvent) (hflag : mux.mem.responseFlag = false)
    (hrun : runEvents (muxStep posix config) mux events = some final)
    (hfed : fedBytes events = []) (hsize : final.rfsSize = 0) :
    final.mem = mux.mem ∧ final.server = mux.server ∧ final.executed = mux.executed ∧
      final.sent = mux.sent ++ loadBytes mux.server.ram mux.rfsPtr mux.rfsSize.toNat := by
  induction events generalizing mux with
  | nil =>
    obtain rfl := Option.some.inj hrun
    rw [hsize]
    exact ⟨rfl, rfl, rfl, (List.append_nil _).symm⟩
  | cons event events ih =>
    obtain ⟨middle, hstep, hrest⟩ := Option.bind_eq_some_iff.mp hrun
    cases event with
    | feed c => cases hfed
    | take fuel => exact absurd (taken_of_muxStep hstep).flag (ne_true_of_eq_false hflag)
    | send =>
      obtain ⟨hmore, rfl⟩ := muxStep_send.mp hstep
      obtain ⟨hmem, hserver, hexecuted, hsent⟩ := @ih mux.sendByte hflag hrest hfed
      refine ⟨hmem, hserver, hexecuted, hsent.trans ?_⟩
      rw [← toNat_sub_one hmore]
      exact List.append_assoc ..

/-- The response is sent to its end. -/
theorem exists_sends (mux : RfsMux Host) :
    ∃ events final, runEvents (muxStep posix config) mux events = some final ∧
      fedBytes events = [] ∧ final.rfsSize = 0 := by
  induction hcount : mux.rfsSize.toNat generalizing mux with
  | zero => exact ⟨[], mux, rfl, rfl, UInt16.toNat_inj.mp hcount⟩
  | succ count ih =>
    have hmore : mux.rfsSize ≠ 0 := by
      intro hzero
      rw [hzero] at hcount
      cases hcount
    obtain ⟨events, final, hrun, hfed, hsize⟩ :=
      ih mux.sendByte (Nat.succ.inj ((toNat_sub_one hmore).trans hcount))
    refine ⟨.send :: events, final, ?_, hfed, hsize⟩
    rw [runEvents, muxStep_send.mpr ⟨hmore, rfl⟩]
    exact hrun

end Sending

/-! ### Returning to accepting packets -/

section Returning

variable {Host : Type} {posix : Posix Host} {config : ServerConfig} {mux after : RfsMux Host}

/-- The variables are in order, and a request is complete just if a response is waiting. -/
structure MemReader.Right (mem : MemReader) : Prop where
  sound : mem.Sound
  done_iff : mem.readState = .requestDone ↔ mem.responseFlag = true

theorem right_start : rfsMemStartRequest.Right where
  sound := sound_start
  done_iff := by decide

/-- A bound on the bytes that come before a response is waiting. -/
def MemReader.bytesLeft (mem : MemReader) : ℤ :=
  match mem.readState with
  | .readLength => rfsBufferSize - mem.readLen
  | .readRequest => mem.expectedLen - mem.readLen
  | .requestDone => 0

theorem MemReader.Right.bytesLeft_nonneg {mem : MemReader} (hright : mem.Right) :
    0 ≤ mem.bytesLeft := by
  unfold MemReader.bytesLeft
  split
  · rename_i hstate
    obtain ⟨-, hlt⟩ := hright.sound.header hstate
    exact Int.sub_nonneg_of_le (Int.le_trans (Int.le_of_lt hlt) (by decide))
  · rename_i hstate
    obtain ⟨-, hlt, -⟩ := hright.sound.request hstate
    exact Int.sub_nonneg_of_le (Int.le_of_lt hlt)
  · exact Int.le_refl 0

theorem MemReader.Right.bytesLeft_le {mem : MemReader} (hright : mem.Right) :
    mem.bytesLeft ≤ rfsBufferSize := by
  unfold MemReader.bytesLeft
  split
  · rename_i hstate
    obtain ⟨hnonneg, -⟩ := hright.sound.header hstate
    omega
  · rename_i hstate
    obtain ⟨hnonneg, -, hend⟩ := hright.sound.request hstate
    omega
  · exact Int.natCast_nonneg _

/-- A byte leaves the variables in order, and fewer bytes to come. -/
theorem MemReader.Right.read {mem : MemReader} (hright : mem.Right)
    (hflag : mem.responseFlag = false) {ram : Ram} {c : UInt8}
    (hfits : mem.HeaderFits config ram c) :
    (rfsMemReadRequestPacket config ram mem (some c)).2.1.Right ∧
      (rfsMemReadRequestPacket config ram mem (some c)).2.1.bytesLeft < mem.bytesLeft := by
  have hsound := (hright.sound.read (c := some c) fun byte hbyte hstate hlen size hsize ↦ by
    obtain rfl := Option.some.inj hbyte
    obtain ⟨_, hfield, hlower, hupper⟩ := hfits hstate hlen
    obtain rfl := Option.some.inj (hfield.symm.trans hsize)
    exact ⟨hlower, hupper⟩).1
  suffices hrest : _ ∧ _ from ⟨⟨hsound, hrest.1⟩, hrest.2⟩
  have hfour : (eluarpcStartOffset : ℤ) = 4 := rfl
  unfold rfsMemReadRequestPacket
  rcases hstate : mem.readState with _ | _ | _
  · obtain ⟨hnonneg, hlt⟩ := hright.sound.header hstate
    have hbefore : mem.bytesLeft = rfsBufferSize - mem.readLen := by
      rw [MemReader.bytesLeft, hstate]
    dsimp only
    split_ifs with hlast
    · have hthree : mem.readLen = 3 := by omega
      obtain ⟨size, hfield, hlower, hupper⟩ := hfits hstate hthree
      rw [← loadBytes_update, ← hthree] at hfield
      obtain ⟨temp16, hsize, rfl⟩ := getPacketSize_of_sizeField hfield
      rw [hsize]
      refine ⟨iff_of_false (fun hdone ↦ nomatch hdone) (ne_true_of_eq_false hflag), ?_⟩
      rw [hbefore]
      show (temp16.toNat : ℤ) - eluarpcStartOffset - 0 < rfsBufferSize - mem.readLen
      omega
    · refine ⟨iff_of_false (fun hdone ↦ nomatch hdone) (ne_true_of_eq_false hflag), ?_⟩
      rw [hbefore]
      show (rfsBufferSize : ℤ) - (mem.readLen + 1) < rfsBufferSize - mem.readLen
      omega
  · obtain ⟨hnonneg, hlt, hend⟩ := hright.sound.request hstate
    have hbefore : mem.bytesLeft = mem.expectedLen - mem.readLen := by
      rw [MemReader.bytesLeft, hstate]
    dsimp only
    rw [hbefore]
    split_ifs with hdone
    · exact ⟨iff_of_true rfl rfl, Int.sub_pos_of_lt hlt⟩
    · refine ⟨iff_of_false (fun hdone ↦ nomatch hdone) (ne_true_of_eq_false hflag), ?_⟩
      show mem.expectedLen - (mem.readLen + 1) < mem.expectedLen - mem.readLen
      omega
  · exact absurd (hright.done_iff.mp hstate) (ne_true_of_eq_false hflag)

/-- The variables stay in order. -/
theorem MemReader.Right.step (hright : mux.mem.Right) {event : MuxEvent}
    (hfits : mux.Fits config event) (hstep : muxStep posix config mux event = some after) :
    after.mem.Right := by
  cases event with
  | feed c =>
    obtain ⟨hreads, rfl⟩ := muxStep_feed.mp hstep
    exact (hright.read hreads.2 hfits).1
  | take fuel =>
    rw [(taken_of_muxStep hstep).mem]
    exact right_start
  | send =>
    obtain ⟨-, rfl⟩ := muxStep_send.mp hstep
    exact hright

theorem PassesExpecting.cons {event : MuxEvent} {events : List MuxEvent}
    (hpasses : PassesExpecting posix config after events)
    (hstep : muxStep posix config mux event = some after) :
    PassesExpecting posix config mux (event :: events) := by
  obtain ⟨front, middle, hfront, hrun, hexpecting⟩ := hpasses
  refine ⟨event :: front, middle, List.cons_prefix_cons.mpr ⟨rfl, hfront⟩, ?_, hexpecting⟩
  rw [runEvents, hstep]
  exact hrun

/-- When a response has been taken, it is sent before the next byte comes. -/
theorem passesExpecting_of_start (events : List MuxEvent) {final : RfsMux Host}
    (hmem : mux.mem = rfsMemStartRequest)
    (hrun : runEvents (muxStep posix config) mux events = some final)
    (hfed : fedBytes events ≠ []) : PassesExpecting posix config mux events := by
  induction events generalizing mux with
  | nil => exact absurd rfl hfed
  | cons event events ih =>
    obtain ⟨middle, hstep, hrest⟩ := Option.bind_eq_some_iff.mp hrun
    cases event with
    | feed c =>
      obtain ⟨hreads, -⟩ := muxStep_feed.mp hstep
      exact ⟨[], mux, List.nil_prefix, rfl, hmem, hreads.1⟩
    | take fuel =>
      have hflag := (taken_of_muxStep hstep).flag
      rw [hmem] at hflag
      cases hflag
    | send =>
      obtain ⟨-, rfl⟩ := muxStep_send.mp hstep
      exact (@ih mux.sendByte hmem hrest hfed).cons hstep

/-- The server returns to accepting packets before more bytes come than are left. -/
theorem passesExpecting_of_bytesLeft (events : List MuxEvent) {final : RfsMux Host}
    (hright : mux.mem.Right)
    (hpermits : PermitsEvents (muxStep posix config) (RfsMux.Fits config) mux events)
    (hrun : runEvents (muxStep posix config) mux events = some final)
    (hfed : mux.mem.bytesLeft < (fedBytes events).length) :
    PassesExpecting posix config mux events := by
  induction events generalizing mux with
  | nil => exact absurd hfed (Int.not_lt.mpr hright.bytesLeft_nonneg)
  | cons event events ih =>
    obtain ⟨middle, hstep, hrest⟩ := Option.bind_eq_some_iff.mp hrun
    have hmiddle := hright.step hpermits.1 hstep
    have hbehind := hpermits.2 middle hstep
    cases event with
    | feed c =>
      obtain ⟨hreads, rfl⟩ := muxStep_feed.mp hstep
      have hless : (mux.feedByte config c).mem.bytesLeft < mux.mem.bytesLeft :=
        (hright.read hreads.2 hpermits.1).2
      have hcount : mux.mem.bytesLeft < (fedBytes events).length + 1 := by exact_mod_cast hfed
      exact (ih hmiddle hbehind hrest (by omega)).cons hstep
    | take fuel =>
      have hmore : fedBytes events ≠ [] := by
        have hnonneg := hright.bytesLeft_nonneg
        intro hnone
        rw [fedBytes, hnone] at hfed
        exact absurd hfed (Int.not_lt.mpr hnonneg)
      exact (passesExpecting_of_start events (taken_of_muxStep hstep).mem hrest hmore).cons hstep
    | send =>
      obtain ⟨-, rfl⟩ := muxStep_send.mp hstep
      exact (ih hmiddle hbehind hrest hfed).cons hstep

end Returning

/-! ### Requests -/

section Requests

variable {Host : Type} {posix : Posix Host} {config : ServerConfig} {mux final : RfsMux Host}
  {request : List UInt8}

/-- The size that is read when the first four bytes of a request have come. -/
theorem Complete.getPacketSize (hcomplete : Complete request) (ram : Ram) (buffer : Addr) :
    ∃ temp16, eluarpcGetPacketSize (Cursor.putAll ⟨ram, buffer⟩
        (request.take eluarpcStartOffset)).ram buffer = (.ok, temp16) ∧
      temp16.toNat = request.length :=
  getPacketSize_of_sizeField ((sizeField_stored ram buffer
    (List.length_take_of_le (Nat.le_of_lt hcomplete.lower))).trans hcomplete.size)

/-- What a reader over a line gets of a request that comes whole. -/
theorem rfschReceive_complete (hcomplete : Complete request) (ram : Ram) (buffer : Addr) :
    rfschReceive ram buffer request = (.ok, (Cursor.putAll ⟨ram, buffer⟩ request).ram, []) := by
  obtain ⟨temp16, hsize, hlength⟩ := hcomplete.getPacketSize ram buffer
  have hreceived := rfschReceive_whole (Nat.le_of_lt hcomplete.lower) hlength.symm hsize []
  rw [List.append_nil] at hreceived
  exact hreceived

/-- The variables when some bytes of a request have come. -/
def readerAfter (count size : ℕ) : MemReader :=
  if count < eluarpcStartOffset then ⟨count, 0, .readLength, false⟩
  else
    let readLen : ℤ := count - eluarpcStartOffset
    let expectedLen : ℤ := size - eluarpcStartOffset
    if count < size then ⟨readLen, expectedLen, .readRequest, false⟩
    else ⟨readLen, expectedLen, .requestDone, true⟩

/-- The server when some bytes of a request have come. -/
def RfsMux.reading (config : ServerConfig) (mux : RfsMux Host) (request : List UInt8) (count : ℕ) :
    RfsMux Host :=
  { mux with
    server.ram := (Cursor.putAll ⟨mux.server.ram, config.rfsBuffer⟩ (request.take count)).ram
    mem := readerAfter count request.length }

theorem RfsMux.reading_zero (hmem : mux.mem = rfsMemStartRequest) :
    mux.reading config request 0 = mux := by
  have hstart : readerAfter 0 request.length = mux.mem := hmem ▸ rfl
  rw [RfsMux.reading, hstart]
  rfl

theorem responseFlag_readerAfter {count size : ℕ} (hsize : eluarpcStartOffset < size) :
    (readerAfter count size).responseFlag = true ↔ size ≤ count := by
  unfold readerAfter
  split_ifs with hheader hmore
  · exact iff_of_false (fun hflag ↦ nomatch hflag) (by omega)
  · exact iff_of_false (fun hflag ↦ nomatch hflag) (by omega)
  · exact iff_of_true rfl (by omega)

/-- The next byte is stored behind the ones before. -/
theorem putAll_take_succ (ram : Ram) (buffer : Addr) {count : ℕ}
    (hcount : count < request.length) :
    Function.update (Cursor.putAll ⟨ram, buffer⟩ (request.take count)).ram
        (buffer + BitVec.ofInt 32 (count : ℤ)) request[count] =
      (Cursor.putAll ⟨ram, buffer⟩ (request.take (count + 1))).ram := by
  have haddr : (Cursor.putAll ⟨ram, buffer⟩ (request.take count)).addr =
      buffer + BitVec.ofInt 32 (count : ℤ) := by
    rw [addr_putAll, List.length_take_of_le (Nat.le_of_lt hcount), BitVec.ofInt_natCast]
    rfl
  rw [← List.take_append_getElem hcount, putAll_append, ← haddr]
  rfl

/-- A byte of the request is read. -/
theorem feedByte_reading (hcomplete : Complete request) {count : ℕ}
    (hcount : count < request.length) :
    (mux.reading config request count).feedByte config request[count] =
      mux.reading config request (count + 1) := by
  have hfour : (eluarpcStartOffset : ℤ) = 4 := rfl
  have hlower := hcomplete.lower
  have hram := putAll_take_succ mux.server.ram config.rfsBuffer hcount
  by_cases hheader : count < eluarpcStartOffset
  · have hbefore : readerAfter count request.length = ⟨count, 0, .readLength, false⟩ :=
      if_pos hheader
    by_cases hlast : count + 1 = eluarpcStartOffset
    · have hafter : readerAfter eluarpcStartOffset request.length =
          ⟨0, request.length - eluarpcStartOffset, .readRequest, false⟩ :=
        (if_neg (Nat.lt_irrefl _)).trans (if_pos hlower)
      have hdone : (count : ℤ) + 1 = eluarpcStartOffset := by exact_mod_cast hlast
      obtain ⟨temp16, hsize, hlength⟩ :=
        hcomplete.getPacketSize mux.server.ram config.rfsBuffer
      simp only [RfsMux.feedByte, RfsMux.reading, hbefore, hafter, rfsMemReadRequestPacket,
        if_pos hdone, hram, hlast, hsize, hlength]
    · have hafter : readerAfter (count + 1) request.length = ⟨count + 1, 0, .readLength, false⟩ :=
        if_pos (Nat.lt_of_le_of_ne hheader hlast)
      have hmore : ¬ (count : ℤ) + 1 = eluarpcStartOffset := by exact_mod_cast hlast
      simp only [RfsMux.feedByte, RfsMux.reading, hbefore, hafter, rfsMemReadRequestPacket,
        if_neg hmore, hram]
  · have hbefore : readerAfter count request.length = ⟨count - eluarpcStartOffset,
        request.length - eluarpcStartOffset, .readRequest, false⟩ :=
      (if_neg hheader).trans (if_pos hcount)
    have hindex : (eluarpcStartOffset : ℤ) + (count - eluarpcStartOffset) = count := by omega
    have hstill : ¬ count + 1 < eluarpcStartOffset := fun hlt ↦ hheader (Nat.lt_of_succ_lt hlt)
    have hlen : (count : ℤ) - eluarpcStartOffset + 1 = (count + 1 : ℕ) - eluarpcStartOffset := by
      omega
    by_cases hlast : count + 1 = request.length
    · have hafter : readerAfter (count + 1) request.length = ⟨(count + 1 : ℕ) - eluarpcStartOffset,
          request.length - eluarpcStartOffset, .requestDone, true⟩ :=
        (if_neg hstill).trans (if_neg (Nat.not_lt.mpr (Nat.le_of_eq hlast.symm)))
      have hdone : ((count + 1 : ℕ) : ℤ) - eluarpcStartOffset =
          request.length - eluarpcStartOffset := by rw [hlast]
      simp only [RfsMux.feedByte, RfsMux.reading, hbefore, hafter, rfsMemReadRequestPacket, hindex,
        hlen, if_pos hdone, hram]
    · have hafter : readerAfter (count + 1) request.length = ⟨(count + 1 : ℕ) - eluarpcStartOffset,
          request.length - eluarpcStartOffset, .readRequest, false⟩ :=
        (if_neg hstill).trans (if_pos (Nat.lt_of_le_of_ne hcount hlast))
      have hmore : ¬ ((count + 1 : ℕ) : ℤ) - eluarpcStartOffset =
          request.length - eluarpcStartOffset := by omega
      simp only [RfsMux.feedByte, RfsMux.reading, hbefore, hafter, rfsMemReadRequestPacket, hindex,
        hlen, if_neg hmore, hram]

theorem server_reading_length (config : ServerConfig) (mux : RfsMux Host)
    (request : List UInt8) :
    (mux.reading config request request.length).server =
      { mux.server with
        ram := (Cursor.putAll ⟨mux.server.ram, config.rfsBuffer⟩ request).ram } := by
  rw [RfsMux.reading, List.take_length]

/-- A response is taken when the whole request has come: it has been executed as by a turn of the
server. -/
theorem taken_reading (hcomplete : Complete request) {fuel : ℕ} {after : RfsMux Host}
    (htaken : Taken posix config fuel (mux.reading config request request.length) after) :
    serverTurn posix config fuel mux.server request =
        some (loadBytes after.server.ram after.rfsPtr after.rfsSize.toNat, after.server) ∧
      after.executed = mux.executed ++ [request] ∧ after.sent = mux.sent := by
  obtain ⟨status, hexecute⟩ := htaken.execute
  have hall := server_reading_length config mux request
  have hread : serReadRequestPacket mux.server.ram config.rfsBuffer request =
      some (Cursor.putAll ⟨mux.server.ram, config.rfsBuffer⟩ request).ram := by
    rw [serReadRequestPacket, rfschReceive_complete hcomplete]
  refine ⟨?_, ?_, htaken.sent⟩
  · rw [hall] at hexecute
    rw [htaken.response]
    simp only [serverTurn, hread, hexecute, Option.bind_eq_bind, Option.bind_some, Option.pure_def]
  · have hcount : (eluarpcStartOffset +
        (mux.reading config request request.length).mem.readLen).toNat = request.length := by
      have hlast : (mux.reading config request request.length).mem.readLen =
          request.length - eluarpcStartOffset := by
        have hlower := hcomplete.lower
        rw [RfsMux.reading, readerAfter, if_neg (Nat.not_lt.mpr (Nat.le_of_lt hlower)),
          if_neg (Nat.lt_irrefl _)]
      rw [hlast]
      omega
    rw [htaken.executed, hcount, hall, loadBytes_putAll mux.server.ram config.rfsBuffer rfl
      (hcomplete.upper.trans (by decide))]
    rfl

/-- In a run in which the rest of a request comes, the request is executed and the response sent. -/
theorem run_reading (hcomplete : Complete request) (hsize : mux.rfsSize = 0)
    (events : List MuxEvent) {count : ℕ} (hcount : count ≤ request.length)
    (hrun : runEvents (muxStep posix config) (mux.reading config request count) events = some final)
    (hfed : fedBytes events = request.drop count) (hfinal : final.Reads) :
    ∃ fuel response, serverTurn posix config fuel mux.server request =
        some (response, final.server) ∧
      final.executed = mux.executed ++ [request] ∧ final.sent = mux.sent ++ response := by
  induction events generalizing count with
  | nil =>
    obtain rfl := Option.some.inj hrun
    have hall : request.length ≤ count := List.drop_eq_nil_iff.mp hfed.symm
    exact absurd ((responseFlag_readerAfter hcomplete.lower).mpr hall)
      (ne_true_of_eq_false hfinal.2)
  | cons event events ih =>
    obtain ⟨middle, hstep, hrest⟩ := Option.bind_eq_some_iff.mp hrun
    cases event with
    | feed c =>
      obtain ⟨hreads, rfl⟩ := muxStep_feed.mp hstep
      have hmore : count < request.length := by
        by_contra hall
        exact absurd ((responseFlag_readerAfter hcomplete.lower).mpr (Nat.not_lt.mp hall))
          (ne_true_of_eq_false hreads.2)
      rw [List.drop_eq_getElem_cons hmore] at hfed
      obtain ⟨rfl, hbehind⟩ := List.cons.inj hfed
      rw [feedByte_reading hcomplete hmore] at hrest
      exact ih hmore hrest hbehind
    | take fuel =>
      have htaken := taken_of_muxStep hstep
      obtain rfl : count = request.length :=
        Nat.le_antisymm hcount ((responseFlag_readerAfter hcomplete.lower).mp htaken.flag)
      obtain ⟨hturn, hexecuted, hsent⟩ := taken_reading hcomplete htaken
      obtain ⟨-, hserver, hlater, hresponse⟩ := run_sends events
        (by rw [htaken.mem]; rfl) hrest (hfed.trans List.drop_length) hfinal.1
      rw [hsent] at hresponse
      exact ⟨fuel, _, hserver ▸ hturn, hlater.trans hexecuted, hresponse⟩
    | send => exact absurd hsize (muxStep_send.mp hstep).1

/-- The rest of a request can come. -/
theorem exists_reading (hcomplete : Complete request) (hsize : mux.rfsSize = 0) {count : ℕ}
    (hcount : count ≤ request.length) :
    ∃ events, runEvents (muxStep posix config) (mux.reading config request count) events =
        some (mux.reading config request request.length) ∧
      fedBytes events = request.drop count := by
  induction hleft : request.length - count generalizing count with
  | zero =>
    obtain rfl : count = request.length := Nat.le_antisymm hcount (Nat.sub_eq_zero_iff_le.mp hleft)
    exact ⟨[], rfl, List.drop_length.symm⟩
  | succ left ih =>
    have hmore : count < request.length := by omega
    obtain ⟨events, hrun, hfed⟩ := ih hmore (by omega)
    have hreads : (mux.reading config request count).Reads := by
      refine ⟨hsize, Bool.eq_false_of_not_eq_true fun hflag ↦ ?_⟩
      exact absurd ((responseFlag_readerAfter hcomplete.lower).mp hflag) (Nat.not_le.mpr hmore)
    refine ⟨.feed request[count] :: events, ?_, ?_⟩
    · rw [runEvents, muxStep_feed.mpr ⟨hreads, feedByte_reading hcomplete hmore⟩]
      exact hrun
    · rw [fedBytes, hfed, List.drop_eq_getElem_cons hmore]

/-- A request for the next file of a directory is executed. -/
theorem NamesFit.exists_readdir {server : Server Host} (hfits : NamesFit posix config server) :
    ∃ fuel result, serverReaddir posix config server fuel = some result := by
  unfold serverReaddir
  rcases hread : remotefsReaddirReadRequest server.ram config.rfsBuffer with ⟨status, d⟩
  cases status with
  | err => exact ⟨0, _, rfl⟩
  | ok =>
    obtain ⟨fuel, ⟨found, host⟩, hfound, hname⟩ := hfits.readdir d hread
    refine ⟨fuel, ?_⟩
    dsimp only
    rw [hfound]
    cases found with
    | none => exact ⟨_, rfl⟩
    | some name =>
      obtain ⟨fullname, hfullname⟩ := Option.isSome_iff_exists.mp (hname name rfl)
      simp only [serverFileSize, hfullname, Option.bind_eq_bind, Option.bind_some]
      split_ifs <;> exact ⟨_, rfl⟩

/-- A request whose names fit is executed. -/
theorem NamesFit.exists_execute {server : Server Host} (hfits : NamesFit posix config server) :
    ∃ fuel result, serverExecuteRequest posix config server fuel = some result := by
  obtain ⟨fuel, result, hreaddir⟩ := hfits.exists_readdir
  refine ⟨fuel, ?_⟩
  have hopen : ∃ result, serverOpen posix config server = some result := by
    unfold serverOpen
    split
    · exact ⟨_, rfl⟩
    · next filename flags mode hread =>
      obtain ⟨fullname, hfullname⟩ := Option.isSome_iff_exists.mp (hfits.open _ _ _ hread)
      rw [hfullname]
      exact ⟨_, rfl⟩
  have hopendir : ∃ result, serverOpendir posix config server = some result := by
    unfold serverOpendir
    split
    · exact ⟨_, rfl⟩
    · next name hread =>
      obtain ⟨fullname, hfullname⟩ := Option.isSome_iff_exists.mp (hfits.opendir _ hread)
      rw [hfullname]
      exact ⟨_, rfl⟩
  have hrest : (∃ result, serverWrite posix config server = some result) ∧
      (∃ result, serverRead posix config server = some result) ∧
      (∃ result, serverClose posix config server = some result) ∧
      (∃ result, serverLseek posix config server = some result) ∧
      ∃ result, serverClosedir posix config server = some result := by
    unfold serverWrite serverRead serverClose serverLseek serverClosedir
    refine ⟨?_, ?_, ?_, ?_, ?_⟩ <;> split <;> exact ⟨_, rfl⟩
  obtain ⟨hwrite, hread, hclose, hlseek, hclosedir⟩ := hrest
  unfold serverExecuteRequest
  split
  · exact ⟨_, rfl⟩
  · split_ifs
    exacts [hopen, hwrite, hread, hclose, hlseek, hopendir, ⟨_, hreaddir⟩, hclosedir, ⟨_, rfl⟩]

/-- A request that comes when a packet is expected is answered once. -/
theorem answeredOnce_of_expecting (hexpecting : mux.Expecting) (hcomplete : Complete request) :
    AnsweredOnce posix config mux request where
  once events final hrun hfed hfinal := by
    refine run_reading hcomplete hexpecting.2 events (Nat.zero_le _) ?_ hfed hfinal
    rw [RfsMux.reading_zero hexpecting.1]
    exact hrun
  answered hfits := by
    obtain ⟨fuel, ⟨status, server⟩, hexecute⟩ := hfits.exists_execute
    rw [Server.received] at hexecute
    obtain ⟨feeds, hfeeds, hfed⟩ := @exists_reading Host posix config mux request hcomplete
      hexpecting.2 0 (Nat.zero_le _)
    rw [RfsMux.reading_zero hexpecting.1] at hfeeds
    rw [← server_reading_length] at hexecute
    obtain ⟨taken, htake⟩ := exists_muxStep_take
      ((responseFlag_readerAfter hcomplete.lower).mpr (Nat.le_refl _)) hexecute
    have htaken := taken_of_muxStep htake
    obtain ⟨sends, final, hsends, hnone, hsize⟩ := @exists_sends Host posix config taken
    obtain ⟨hmem, hserver, -, -⟩ := run_sends sends (by rw [htaken.mem]; rfl) hsends hnone hsize
    obtain ⟨hturn, -, -⟩ := taken_reading hcomplete htaken
    refine ⟨feeds ++ .take fuel :: sends, final, ?_, ?_, ⟨hmem.trans htaken.mem, hsize⟩, fuel, _,
      hserver ▸ hturn⟩
    · rw [runEvents_append, hfeeds, Option.bind_some, runEvents, htake, Option.bind_some, hsends]
    · rw [fedBytes_append, hfed, fedBytes, hnone, List.append_nil, List.drop_zero]

end Requests

/-! ### The multiplexer -/

/-- In the runs in which all headers are those of packets that fit, and reads fit, the server never
gets stuck. -/
theorem neverStuck_of_fits {Host : Type} (posix : Posix Host) (config : ServerConfig) :
    NeverStuck posix config (RfsMux.Fits config) := by
  have hright : ∀ mux, (muxSystem posix config).ReachableUnder (RfsMux.Fits config) mux →
      mux.mem.Right := by
    intro mux hreach
    refine hreach.invariant (fun mux ↦ mux.mem.Right) ?_ fun _ _ _ hbefore hfits hstep ↦
      hbefore.step hfits hstep
    rintro start ⟨hmem, -⟩
    exact hmem ▸ right_start
  refine ⟨fun mux hreach ↦ (hright mux hreach).done_iff, ⟨rfsBufferSize, ?_⟩,
    fun mux _ hexpecting request hcomplete ↦ answeredOnce_of_expecting hexpecting hcomplete⟩
  intro mux hreach events final hpermits hrun hfed
  refine passesExpecting_of_bytesLeft events (hright mux hreach) hpermits hrun ?_
  exact Int.lt_of_le_of_lt (hright mux hreach).bytesLeft_le (Int.ofNat_lt.mpr hfed)

/-- The server before anything comes. -/
def freshMux : RfsMux Unit := ⟨⟨fun _ ↦ 0, ()⟩, rfsMemStartRequest, 0, 0, [], []⟩

/-- Four bytes that are no header leave the server with a request that is complete, and no
response. -/
theorem not_neverStuck_no_header : ¬ NeverStuck readHost rootServer fun _ _ ↦ True := by
  intro hnever
  have hstart : (muxSystem readHost rootServer).Reachable freshMux := .start ⟨rfl, rfl⟩
  have hfirst := hstart.andThen (.feed 0) trivial rfl
  have hsecond := hfirst.andThen (.feed 0) trivial rfl
  have hthird := hsecond.andThen (.feed 0) trivial rfl
  have hfourth := hthird.andThen (.feed 0) trivial rfl
  exact absurd ((hnever.done_iff _ hfourth).mp rfl) (by decide)

end Elua.Rfs
