import Elua.Rfs.ChunkedParts
import Mathlib.Algebra.Group.Nat.Defs

/-!
# What transfers in parts return

The loop returns what the parts add up to (`transferLoop_spec`), so `rfs_read_r` and `rfs_write_r`
are like one transfer exactly if the first part does not fail and the sum is a number of `s32`
(`transfersMeet_iff`). The shell has both as `Shell.rfsReadR` and `Shell.rfsWriteR`, with an outcome
for each request, and what the client does is one of these (`rfsReadR_eq_shell`,
`rfsWriteR_eq_shell`). The server is an other end as these results take it (`serverPeer`), for hosts
whose reads do not fail. -/

set_option autoImplicit false
set_option relaxedAutoImplicit false

namespace Elua.Rfs

open Foundation Rpc
open Shell (RfsBuild)

/-! ### The loop -/

section Loop

variable {State : Type} {build : SerialBuild} {part : Part State UInt8} {ptr : Addr} {whole : ℕ}
  {call : Session (State × List (List UInt8)) → Addr → ℕ →
    Option (Int32 × Session (State × List (List UInt8)))}
  {memory : List UInt8 → Ram → Prop}

/-- What a call does for a part of a transfer of `whole` bytes. -/
structure CarriesParts (build : SerialBuild) (part : Part State UInt8) (ptr : Addr) (whole : ℕ)
    (call : Session (State × List (List UInt8)) → Addr → ℕ →
      Option (Int32 × Session (State × List (List UInt8))))
    (memory : List UInt8 → Ram → Prop) : Prop where
  bounded : part.Bounded
  answered : ∀ before session state size given after,
    Reached build (memory before) session state → session.input = [] →
      size ≤ build.realBufferSize → before.length + size ≤ whole →
        part state before.length size = (some given, after) →
          ∃ last, call session (ptr.plus before.length) size =
              some (Int32.ofNat given.length, last) ∧ last.input = [] ∧
            Reached build (memory (before ++ given)) last after
  failed : ∀ before session state size after,
    Reached build (memory before) session state → session.input = [] →
      size ≤ build.realBufferSize → before.length + size ≤ whole →
        part state before.length size = (none, after) →
          ∃ last, call session (ptr.plus before.length) size = some (-1, last) ∧
            Reached build (memory before) last after

/-- The result for a part is not taken for an error. -/
theorem ofNat_ne_neg_one {count : ℕ} (hcount : count ≤ 32768) : Int32.ofNat count ≠ -1 := by
  intro herror
  have hvalue := congrArg Int32.toInt herror
  rw [Int32.toInt_ofNat_of_lt (by omega), show (-1 : Int32).toInt = -1 by decide] at hvalue
  omega

/-- The loop returns the number of the bytes that are transferred in parts. -/
theorem transferLoop_spec (hcarries : CarriesParts build part ptr whole call memory)
    (before : List UInt8) {session : Session (State × List (List UInt8))} {state : State}
    (hreached : Reached build (memory before) session state) (hinput : session.input = [])
    (len : ℕ) (hwhole : before.length + len ≤ whole) (total : Int32) :
    ∃ last, transferLoop build call len (ptr.plus before.length) total session =
        some (total + Int32.ofNat
          (part.transfer build.realBufferSize len before.length state).1.length, last) ∧
      Reached build
        (memory (before ++ (part.transfer build.realBufferSize len before.length state).1)) last
        (part.transfer build.realBufferSize len before.length state).2 := by
  induction len using Nat.strongRecOn generalizing before session state total with
  | _ len ih =>
    obtain ⟨-, hsmall, hreal⟩ := build.bounds
    have hpos := build.realBufferSize_pos
    have hsize : (if build.realBufferSize < len then build.realBufferSize else len) =
        min build.realBufferSize len := by
      split_ifs <;> omega
    rw [transferLoop, Part.transfer, hsize]
    by_cases hzero : len = 0
    · rw [if_pos hzero, if_pos (by omega)]
      refine ⟨session, by simp, ?_⟩
      rwa [List.append_nil]
    rw [if_neg hzero, if_neg (by omega)]
    generalize hmin : min build.realBufferSize len = size
    dsimp only
    cases hpart : part state before.length size with
    | mk found after =>
      cases found with
      | none =>
        obtain ⟨last, hcalled, hlast⟩ := hcarries.failed before session state size after hreached
          hinput (by omega) (by omega) hpart
        refine ⟨last, ?_, by rwa [List.append_nil]⟩
        rw [hcalled]
        simp
      | some given =>
        have hgiven := hcarries.bounded _ _ _ _ _ hpart
        obtain ⟨last, hcalled, hlastInput, hlast⟩ := hcarries.answered before session state size
          given after hreached hinput (by omega) (by omega) hpart
        rw [hcalled]
        dsimp only
        rw [if_neg (ofNat_ne_neg_one (by omega))]
        have hless : (Int32.ofNat given.length).toUInt32 < UInt32.ofNat size ↔
            given.length < size :=
          UInt32.ofNat_lt_iff_lt (by change _ < 2 ^ 32; omega) (by change _ < 2 ^ 32; omega)
        by_cases hshort : given.length < size
        · rw [if_pos (hless.2 hshort), if_pos hshort]
          exact ⟨last, rfl, hlast⟩
        · rw [if_neg (mt hless.1 hshort), if_neg hshort]
          have hfull : given.length = size := by omega
          have hnext := ih (len - size) (by omega) (before ++ given) hlast hlastInput
            (by rw [List.length_append]; omega) (total + Int32.ofNat given.length)
          rw [List.length_append, hfull, ← Addr.plus_plus, Int32.add_assoc, ← Int32.ofNat_add,
            List.append_assoc] at hnext
          simpa only [List.length_append, hfull] using hnext

/-- The first part does not fail, and the sum of what is transferred is a number of `s32`. -/
def Counted (build : SerialBuild) (part : Part State UInt8) (len : ℕ) (state : State) : Prop :=
  ¬ part.Fails build.realBufferSize len state ∧
    (part.transfer build.realBufferSize len 0 state).1.length < 2 ^ 31

/-- A transfer in parts is like one transfer unless the first part fails, where it returns zero, or
the sum overflows. -/
theorem transferMeets_iff (hcarries : CarriesParts build part ptr whole call memory)
    {InOrder : Ram → List UInt8 → Prop} {ram : Ram} {state : State}
    (hmemory : memory [] ram)
    (hinOrder : ∀ after : Ram, memory (part.transfer build.realBufferSize whole 0 state).1 after →
      InOrder after (part.transfer build.realBufferSize whole 0 state).1) :
    TransferMeets build part whole state
        (transferLoop build call whole ptr 0 ⟨ram, [], state, []⟩) InOrder ↔
      Counted build part whole state := by
  have hstart : Reached build (memory []) ⟨ram, [], state, []⟩ state :=
    ⟨rfl, List.forall_mem_nil _, hmemory⟩
  obtain ⟨last, hloop, hlast⟩ := transferLoop_spec hcarries [] hstart rfl whole
    (by rw [List.length_nil]; omega) 0
  rw [List.length_nil, Addr.plus_zero, Int32.zero_add] at hloop
  rw [List.length_nil, List.nil_append] at hlast
  constructor
  · rintro ⟨result, after, hcalled, hfails, hcount, -⟩
    obtain ⟨rfl, rfl⟩ := Prod.mk.inj (Option.some.inj (hcalled.symm.trans hloop))
    have hsucceeds : ¬ part.Fails build.realBufferSize whole state := by
      intro hfirst
      have herror := hfails hfirst
      rw [Part.transfer_of_fails hfirst] at herror
      exact absurd herror (by decide)
    refine ⟨hsucceeds, ?_⟩
    have hbound := Int32.toInt_lt
      (Int32.ofNat (part.transfer build.realBufferSize whole 0 state).1.length)
    rw [hcount hsucceeds] at hbound
    exact Int.ofNat_lt.1 hbound
  · rintro ⟨hsucceeds, hbound⟩
    exact ⟨_, last, hloop, fun hfirst ↦ absurd hfirst hsucceeds,
      fun _ ↦ Int32.toInt_ofNat_of_lt hbound, hlast.remote, hinOrder _ hlast.memory, hlast.fits⟩

end Loop

/-! ### Reads and writes -/

section Transfers

variable {State : Type} {client : ClientConfig} {build : SerialBuild}
  (peer : Peer client build State) (fd : Int32) (buffer : UserBuffer client build)

theorem carriesParts_read :
    CarriesParts build (peer.readPart fd) buffer.ptr buffer.len
      (fun session p toread ↦ rfscRead client (recording peer.transport) session fd p
        (UInt32.ofNat toread)) (fun bytes ram ↦ BytesAt ram buffer.ptr bytes) where
  bounded := fun _ _ _ _ _ hpart ↦ peer.read_le _ _ _ _ _ hpart
  answered := fun _ _ _ _ _ _ hreached hinput hsize hinside hpart ↦
    readPart_answered hreached hinput hsize hinside hpart
  failed := fun _ _ _ _ _ hreached hinput hsize hinside hpart ↦
    readPart_failed hreached hinput hsize hinside hpart

/-- What is taken of a part begins the part. -/
theorem prefix_of_writePart {data : List UInt8} {state after : State} {offset size : ℕ}
    {taken : List UInt8} (hpart : peer.writePart fd data state offset size = (some taken, after)) :
    taken <+: (data.drop offset).take size := by
  unfold Peer.writePart at hpart
  dsimp only at hpart
  split at hpart
  · cases hpart
  · obtain rfl := Option.some.inj (Prod.mk.inj hpart).1
    exact List.take_prefix _ _

theorem carriesParts_write {data : List UInt8} (hlength : data.length = buffer.len) :
    CarriesParts build (peer.writePart fd data) buffer.ptr buffer.len
      (fun session p towrite ↦ rfscWrite client (recording peer.transport) session fd
        (some (loadBytes session.ram p towrite)) (UInt32.ofNat towrite))
      (fun _ ram ↦ BytesAt ram buffer.ptr data) where
  bounded := fun _ _ _ _ _ hpart ↦
    (prefix_of_writePart peer fd hpart).length_le.trans (List.length_take_le _ _)
  answered := fun _ _ _ _ _ _ hreached hinput hsize hinside hpart ↦
    writePart_answered hreached hlength hinput hsize hinside hpart
  failed := fun _ _ _ _ _ hreached hinput hsize hinside hpart ↦
    writePart_failed hreached hlength hinput hsize hinside hpart

theorem readMeets_iff (ram : Ram) (state : State) :
    ReadMeets peer fd ram state buffer ↔ Counted build (peer.readPart fd) buffer.len state := by
  refine transferMeets_iff (carriesParts_read peer fd buffer) trivial fun after hbytes ↦
    ⟨hbytes, fun rest hfile ↦ ?_, fun rest hall ↦ ?_⟩
  · exact Part.transfer_prefix_source (fun state _ size data after hpart ↦
      hfile state size data after hpart) _ _ _
  · obtain ⟨after, hread, -⟩ := hall state buffer.len
    have hparts := @Part.transfer_eq_take _ _ (peer.readPart fd) _ build.realBufferSize_pos rest
      (fun state _ size ↦ hall state size) buffer.len 0 state
    rw [hread, hparts]

theorem writeMeets_iff (ram : Ram) (state : State) :
    WriteMeets peer fd ram state buffer ↔
      Counted build (peer.writePart fd (loadBytes ram buffer.ptr buffer.len)) buffer.len state := by
  have hlength := length_loadBytes ram buffer.ptr buffer.len
  unfold WriteMeets rfsWriteR
  refine transferMeets_iff (carriesParts_write peer fd buffer hlength)
    (bytesAt_loadBytes ram buffer.ptr buffer.len) fun _ _ ↦ ?_
  exact Part.transfer_prefix_data (fun _ _ _ _ _ hpart ↦ prefix_of_writePart peer fd hpart) _ 0 _

/-- A read and a write in parts are like one of the whole length exactly if the first part does not
fail and fewer than `2 ^ 31` bytes are transferred. -/
theorem transfersMeet_iff (ram : Ram) (state : State) :
    (ReadMeets peer fd ram state buffer ↔ Counted build (peer.readPart fd) buffer.len state) ∧
      (WriteMeets peer fd ram state buffer ↔
        Counted build (peer.writePart fd (loadBytes ram buffer.ptr buffer.len)) buffer.len
          state) :=
  ⟨readMeets_iff peer fd buffer ram state, writeMeets_iff peer fd buffer ram state⟩

end Transfers

/-! ### Under the shell -/

section Shell

variable {State : Type} {part : Part State UInt8}

/-- Reads in parts from a source are reads of the shell, for some outcomes of the requests. -/
theorem exists_shell_rfsReadR (build : RfsBuild) (hbounded : part.Bounded)
    {rest : State → List UInt8}
    (hsource : ∀ state offset size data after, part state offset size = (some data, after) →
      data <+: rest state ∧ rest after = (rest state).drop data.length)
    (len offset : ℕ) (state : State) (call : ℕ) :
    ∃ outcome, Shell.rfsReadR build outcome (rest state) len call =
      (part.transfer build.realBufferSize len offset state).1 := by
  have hreal := build.realBufferSize_pos
  have hsize (len : ℕ) : (if build.realBufferSize < len then build.realBufferSize else len) =
      min build.realBufferSize len := by
    split_ifs <;> omega
  refine Part.transfer_induction part build.realBufferSize
    (motive := fun len _ state result ↦ ∀ call, ∃ outcome,
      Shell.rfsReadR build outcome (rest state) len call = result.1) ?_ ?_ ?_ ?_ len offset state
    call
  · intro len _ state hzero call
    refine ⟨fun _ ↦ none, ?_⟩
    rw [Shell.rfsReadR, if_pos (by omega)]
  · intro len _ state _ hlen _ call
    refine ⟨fun _ ↦ none, ?_⟩
    rw [Shell.rfsReadR, if_neg (by omega)]
  · intro len offset state data after hlen hpart hshort call
    obtain ⟨hdata, -⟩ := hsource _ _ _ _ _ hpart
    refine ⟨fun _ ↦ some data.length, ?_⟩
    rw [Shell.rfsReadR, if_neg (by omega), hsize]
    dsimp only
    rw [min_eq_left hshort.le, ← List.prefix_iff_eq_take.1 hdata, if_pos hshort]
  · intro len offset state data after more last hlen hpart hwhole hmore call
    obtain ⟨hdata, hrest⟩ := hsource _ _ _ _ _ hpart
    have hlength : data.length = min build.realBufferSize len :=
      Nat.le_antisymm (hbounded _ _ _ _ _ hpart) hwhole
    obtain ⟨outcome, houtcome⟩ := hmore (call + 1)
    refine ⟨Function.update outcome call (some data.length), ?_⟩
    have hlater (request : ℕ) (hle : call + 1 ≤ request) :
        Function.update outcome call (some data.length) request = outcome request :=
      Function.update_of_ne (by omega) _ _
    rw [Shell.rfsReadR, if_neg (by omega), hsize, ← hlength]
    simp only [Function.update_self, min_self]
    rw [← List.prefix_iff_eq_take.1 hdata, if_neg (lt_irrefl _), Shell.rfsReadR_congr build hlater, ← hrest, hlength,
      houtcome]

/-- Writes in parts are writes of the shell, for some outcomes of the requests. -/
theorem exists_shell_rfsWriteR (build : RfsBuild) {data : List UInt8}
    (hdata : ∀ state offset size items after, part state offset size = (some items, after) →
      items <+: (data.drop offset).take size)
    (len offset : ℕ) (state : State) (hlen : (data.drop offset).length = len) (call : ℕ) :
    ∃ outcome, Shell.rfsWriteR build outcome (data.drop offset) call =
      ((part.transfer build.realBufferSize len offset state).1.length,
        (part.transfer build.realBufferSize len offset state).1) := by
  have hreal := build.realBufferSize_pos
  have hchunk {offset len : ℕ} (hlen : (data.drop offset).length = len) :
      (data.drop offset).take build.realBufferSize =
        (data.drop offset).take (min build.realBufferSize len) := by
    rw [← hlen, ← List.take_take, List.take_length]
  refine Part.transfer_induction part build.realBufferSize
    (motive := fun len offset _ result ↦ (data.drop offset).length = len → ∀ call, ∃ outcome,
      Shell.rfsWriteR build outcome (data.drop offset) call = (result.1.length, result.1))
    ?_ ?_ ?_ ?_ len offset state hlen call
  · intro len _ state hzero hlen call
    refine ⟨fun _ ↦ ⟨false, 0⟩, ?_⟩
    rw [Shell.rfsWriteR, if_pos (by omega)]
    rfl
  · intro len _ state _ hsome _ hlen call
    refine ⟨fun _ ↦ ⟨true, 0⟩, ?_⟩
    rw [Shell.rfsWriteR, if_neg (by omega), if_pos rfl, List.take_zero]
    rfl
  · intro len offset state items after hsome hpart hshort hlen call
    refine ⟨fun _ ↦ ⟨false, items.length⟩, ?_⟩
    have hitems := hdata _ _ _ _ _ hpart
    rw [Shell.rfsWriteR, if_neg (by omega), if_neg Bool.false_ne_true, hchunk hlen]
    dsimp only
    rw [← List.prefix_iff_eq_take.1 hitems, if_pos (by rw [List.length_take]; omega)]
  · intro len offset state items after more last hsome hpart hwhole hmore hlen call
    have hitems := hdata _ _ _ _ _ hpart
    have hall : items = (data.drop offset).take (min build.realBufferSize len) :=
      hitems.eq_of_length (Nat.le_antisymm hitems.length_le ((List.length_take_le _ _).trans hwhole))
    have hleft : (data.drop (offset + min build.realBufferSize len)).length =
        len - min build.realBufferSize len := by
      rw [← List.drop_drop, List.length_drop, hlen]
    obtain ⟨outcome, houtcome⟩ := hmore hleft (call + 1)
    refine ⟨Function.update outcome call ⟨false, items.length⟩, ?_⟩
    have hlater (request : ℕ) (hle : call + 1 ≤ request) :
        Function.update outcome call ⟨false, items.length⟩ request = outcome request :=
      Function.update_of_ne (by omega) _ _
    have hrest : (data.drop offset).drop build.realBufferSize =
        data.drop (offset + min build.realBufferSize len) := by
      rw [← List.drop_drop, ← hlen]
      rcases le_total build.realBufferSize (data.drop offset).length with hle | hle
      · rw [min_eq_left hle]
      · rw [min_eq_right hle, List.drop_of_length_le hle, List.drop_length]
    rw [Shell.rfsWriteR, if_neg (by omega), hchunk hlen, ← hall, hrest, Shell.rfsWriteR_congr build hlater, houtcome]
    simp only [Function.update_self, List.take_length, lt_irrefl, if_false, List.length_append]
    exact if_neg Bool.false_ne_true

variable {client : ClientConfig} {build : SerialBuild} (peer : Peer client build State) (fd : Int32)
  (buffer : UserBuffer client build) (ram : Ram) (state : State)

/-- What the client reads of a file is what the shell reads, for some outcomes of the requests. -/
theorem rfsReadR_eq_shell {rest : State → List UInt8} (hfile : peer.ReadsFile fd rest) :
    ∃ outcome last, rfsReadR build client (recording peer.transport) ⟨ram, [], state, []⟩ fd
        buffer.ptr buffer.len = some (Int32.ofNat
          (Shell.rfsReadR build.toRfsBuild outcome (rest state) buffer.len 0).length, last) ∧
      BytesAt last.ram buffer.ptr
        (Shell.rfsReadR build.toRfsBuild outcome (rest state) buffer.len 0) := by
  have hcarries := carriesParts_read peer fd buffer
  obtain ⟨outcome, hread⟩ := exists_shell_rfsReadR build.toRfsBuild hcarries.bounded
    (fun state _ size data after hpart ↦ hfile state size data after hpart) buffer.len 0 state 0
  obtain ⟨last, hloop, hlast⟩ := transferLoop_spec hcarries []
    (⟨rfl, List.forall_mem_nil _, trivial⟩ : Reached build _ ⟨ram, [], state, []⟩ state) rfl
    buffer.len (Nat.zero_add _).le 0
  rw [List.length_nil, Addr.plus_zero, Int32.zero_add, ← hread] at hloop
  rw [List.length_nil, List.nil_append, ← hread] at hlast
  exact ⟨outcome, last, hloop, hlast.memory⟩

/-- What the client writes to a file is what the shell writes, for some outcomes of the
requests. -/
theorem rfsWriteR_eq_shell :
    ∃ outcome last, rfsWriteR build client (recording peer.transport) ⟨ram, [], state, []⟩ fd
        buffer.ptr buffer.len = some (Int32.ofNat (Shell.rfsWriteR build.toRfsBuild outcome
          (loadBytes ram buffer.ptr buffer.len) 0).1, last) ∧
      (Shell.rfsWriteR build.toRfsBuild outcome (loadBytes ram buffer.ptr buffer.len) 0).2 =
        ((peer.writePart fd (loadBytes ram buffer.ptr buffer.len)).transfer build.realBufferSize
          buffer.len 0 state).1 := by
  have hlength := length_loadBytes ram buffer.ptr buffer.len
  have hcarries := carriesParts_write peer fd buffer hlength
  obtain ⟨outcome, hwrite⟩ := exists_shell_rfsWriteR build.toRfsBuild
    (fun _ _ _ _ _ hpart ↦ prefix_of_writePart peer fd hpart) buffer.len 0 state hlength 0
  obtain ⟨last, hloop, -⟩ := transferLoop_spec hcarries []
    (⟨rfl, List.forall_mem_nil _, bytesAt_loadBytes ram buffer.ptr buffer.len⟩ :
      Reached build _ ⟨ram, [], state, []⟩ state) rfl buffer.len (Nat.zero_add _).le 0
  rw [List.length_nil, Addr.plus_zero, Int32.zero_add] at hloop
  rw [List.drop_zero] at hwrite
  exact ⟨outcome, last, by rw [hwrite]; exact hloop, by rw [hwrite]⟩

end Shell

/-! ### The server as the other end -/

section Server

variable {Host : Type} (posix : Posix Host) (client : ClientConfig) (config : ServerConfig)
  (fuel : ℕ) (build : SerialBuild)

/-- The server after a call. -/
def serverAfter (server : Server Host) (call : FileCall) : Server Host :=
  match serverTurn posix config fuel server (packet (call.request client)) with
  | some (_, after) => after
  | none => server

/-- A host as far as parts of transfers go: its reads do not fail, and its writes give `-1` or a
count. -/
structure TransferHost (posix : Posix Host) : Prop where
  reads : ∀ host fd count, (posix.read host fd count).1 ≠ none
  writes : ∀ host fd data, -1 ≤ (posix.write host fd data).1.toInt ∧
    (posix.write host fd data).1.toInt ≤ data.length

variable {posix client config fuel}

/-- A part that the server is asked for. -/
theorem exchange_server (hbuffer : 2 ^ build.rfsBufferSize ≤ rfsBufferSize)
    {server : Server Host} {call : FileCall} (hlength : call.packetLength ≤ 2 ^ build.rfsBufferSize)
    (hcarried : call.Carried posix config server.host) :
    ∃ result bytes host, osCall posix client config server.host call = some (result, bytes, host) ∧
      (serverTransport posix config fuel).exchange server (packet (call.request client)) =
        some (packet (call.response result bytes), serverAfter posix client config fuel server
          call) := by
  obtain ⟨result, bytes, host, ram, hos, -, -, hturn⟩ := @serverTurn_call Host posix client config
    fuel call _ server ⟨hlength, hlength.trans hbuffer⟩ hcarried
  refine ⟨result, bytes, host, hos, ?_⟩
  rw [serverAfter, hturn]
  exact hturn

/-- A write of a part is answered with the result of the host. -/
theorem exchange_write (hbuffer : 2 ^ build.rfsBufferSize ≤ rfsBufferSize) {data : List UInt8}
    (hdata : data.length ≤ build.realBufferSize) (server : Server Host) (fd : Int32) :
    (serverTransport posix config fuel).exchange server
        (packet ((FileCall.write fd data).request client)) =
      some (packet [.r rfsOpWrite, .l (posix.write server.host fd data).1.toUInt32],
        serverAfter posix client config fuel server (.write fd data)) := by
  obtain ⟨hlarge, -, hreal⟩ := build.bounds
  have hlength : (FileCall.write fd data).packetLength ≤ 2 ^ build.rfsBufferSize := by
    change 29 + data.length ≤ _
    omega
  obtain ⟨result, bytes, host, hos, hexchange⟩ := exchange_server build hbuffer hlength trivial
  obtain ⟨rfl, -⟩ := Prod.mk.inj (Option.some.inj hos)
  exact hexchange

/-- A read of a part is answered with the data of the host. -/
theorem exchange_read (hbuffer : 2 ^ build.rfsBufferSize ≤ rfsBufferSize) {count : ℕ}
    (hcount : count ≤ build.realBufferSize) (server : Server Host) (fd : Int32) (buf : Addr)
    {data : List UInt8}
    (hread : (posix.read server.host fd (UInt32.ofNat count)).1 = some data) :
    (serverTransport posix config fuel).exchange server
        (packet ((FileCall.read fd buf (UInt32.ofNat count)).request client)) =
      some (packet [.r rfsOpRead, .p (some data) (UInt32.ofNat data.length)],
        serverAfter posix client config fuel server (.read fd 0 (UInt32.ofNat count))) := by
  obtain ⟨hlarge, hsmall, hreal⟩ := build.bounds
  have hlength : (FileCall.read fd buf (UInt32.ofNat count)).packetLength ≤
      2 ^ build.rfsBufferSize := by
    have hnumber : (UInt32.ofNat count).toNat = count :=
      UInt32.toNat_ofNat_of_lt' (by change _ < 2 ^ 32; omega)
    change max 28 (23 + (UInt32.ofNat count).toNat) ≤ _
    omega
  obtain ⟨result, bytes, host, hos, hexchange⟩ := exchange_server build hbuffer hlength
    (show ((posix.read server.host fd (UInt32.ofNat count)).1).isSome = true by rw [hread]; rfl)
  have hpair : posix.read server.host fd (UInt32.ofNat count) =
      (some data, (posix.read server.host fd (UInt32.ofNat count)).2) := Prod.ext hread rfl
  rw [osCall, osRead, hpair] at hos
  obtain ⟨-, hrest⟩ := Prod.mk.inj (Option.some.inj hos)
  obtain ⟨rfl, -⟩ := Prod.mk.inj hrest
  exact hexchange

theorem toUInt32_of_nonneg {result : Int32} (hlower : -1 ≤ result.toInt) (herror : result ≠ -1) :
    result.toUInt32 = UInt32.ofNat result.toInt.toNat := by
  have hnonneg : 0 ≤ result.toInt := by
    rcases Int.lt_or_le result.toInt 0 with hneg | hnonneg
    · exact absurd (Int32.toInt_inj.1 (show result.toInt = (-1 : Int32).toInt by
        rw [show (-1 : Int32).toInt = -1 by decide]; omega)) herror
    · exact hnonneg
  obtain ⟨count, hcount⟩ := Int.eq_ofNat_of_zero_le hnonneg
  have hsame : result = Int32.ofNat count := by
    rw [← Int32.ofInt_toInt result, hcount, Int32.ofInt_eq_ofNat]
  rw [hcount, Int.toNat_natCast, hsame]
  rfl

/-- The server is such an other end. -/
def serverPeer (hhost : TransferHost posix) (hbuffer : 2 ^ build.rfsBufferSize ≤ rfsBufferSize) :
    Peer client build (Server Host) where
  transport := serverTransport posix config fuel
  write server fd data :=
    (if (posix.write server.host fd data).1 = -1 then none
      else some (posix.write server.host fd data).1.toInt.toNat,
      serverAfter posix client config fuel server (.write fd data))
  read server fd count :=
    ((posix.read server.host fd (UInt32.ofNat count)).1,
      serverAfter posix client config fuel server (.read fd 0 (UInt32.ofNat count)))
  write_le := by
    intro server fd data count after hwrite
    have hle := (hhost.writes server.host fd data).2
    split_ifs at hwrite
    · cases hwrite
    · obtain rfl := Option.some.inj (Prod.mk.inj hwrite).1
      omega
  read_le := by
    intro server fd count data after hread
    have hle := posix.read_le _ _ _ _ (Prod.mk.inj hread).1
    exact hle.trans (by rw [UInt32.toNat_ofNat']; exact Nat.mod_le _ _)
  write_answered := by
    intro server fd data count after hdata hwrite
    split_ifs at hwrite with herror
    · cases hwrite
    · obtain ⟨hcount, rfl⟩ := Prod.mk.inj hwrite
      obtain rfl := Option.some.inj hcount
      rw [exchange_write build hbuffer hdata server fd,
        toUInt32_of_nonneg (hhost.writes server.host fd data).1 herror]
  write_failed := by
    intro server fd data after hdata hwrite
    split_ifs at hwrite with herror
    · obtain rfl := (Prod.mk.inj hwrite).2
      refine ⟨_, exchange_write build hbuffer hdata server fd,
        (writeResponse_fits build _).2, .inr ?_⟩
      rw [herror]
      rfl
    · cases hwrite
  read_answered := by
    intro server fd buf count data after hcount hread
    obtain ⟨hdata, rfl⟩ := Prod.mk.inj hread
    exact exchange_read build hbuffer hcount server fd buf hdata
  read_failed := by
    intro server fd buf count after hcount hread
    exact absurd (Prod.mk.inj hread).1 (hhost.reads _ _ _)

end Server

/-! ### A descriptor that is not open -/

/-- A host on which no descriptor can be written to, and nothing can be read. -/
def closedHost : Posix Unit where
  «open» := fun _ _ _ _ ↦ (-1, ())
  write := fun _ _ _ ↦ (-1, ())
  read := fun _ _ _ ↦ (some [], ())
  close := fun _ _ ↦ (-1, ())
  lseek := fun _ _ _ _ ↦ (-1, ())
  opendir := fun _ _ ↦ (0, ())
  readdir := fun _ _ ↦ (none, ())
  closedir := fun _ _ ↦ (-1, ())
  read_le := by
    rintro _ _ _ _ hbytes
    obtain rfl := Option.some.inj hbytes
    exact Nat.zero_le _

theorem closedHost_transfers : TransferHost closedHost where
  reads := fun _ _ _ hread ↦ by cases hread
  writes := fun _ _ data ↦ by
    change -1 ≤ (-1 : Int32).toInt ∧ (-1 : Int32).toInt ≤ data.length
    rw [show (-1 : Int32).toInt = -1 by decide]
    omega

/-- A build whose client has a buffer of 512 bytes. -/
def serialBuild : SerialBuild := ⟨⟨9, Shell.eluarpcWriteRequestExtra_lt⟩, by decide⟩

/-- The client, and the server. -/
def closedPeer : Peer ⟨0x1000, rfsOpenFlags, rfsLseek⟩ serialBuild (Server Unit) :=
  @serverPeer Unit closedHost _ ⟨0x1000, [0x2F], rfsOpenFlags, rfsLseek, 0, 8, dtReg_linux_ne⟩ 0 _
    closedHost_transfers (by decide)

/-- Eight bytes. -/
def eightBytes : UserBuffer ⟨0x1000, rfsOpenFlags, rfsLseek⟩ serialBuild where
  ptr := 0x2000
  len := 8
  len_lt := by decide
  apart := by decide

/-- A write fails with the first part, and zero is returned. -/
theorem not_writeMeets_closed :
    ¬ WriteMeets closedPeer 3 (fun _ ↦ 0) ⟨fun _ ↦ 0, ()⟩ eightBytes :=
  fun hmeets ↦ ((writeMeets_iff closedPeer 3 eightBytes (fun _ ↦ 0) ⟨fun _ ↦ 0, ()⟩).1 hmeets).1
    ⟨by decide, rfl⟩

end Elua.Rfs
