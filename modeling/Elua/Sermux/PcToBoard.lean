import Elua.Sermux.Board
import Elua.Sermux.MuxServer

/-!
# From the PC to the board

The PC sends the bytes of its ports, and of the remote file system server, with the service branch
of its main loop; the board, built with as many virtual UARTs as the configuration uses services,
takes the stream apart with `cmn_rx_handler`. `CarriesTraffic` is what the link must do: store for
every service exactly its bytes in order, and take every wire byte in the role it was sent in.

The PC escapes the bytes `0xD0 .. 0xD7`, the ids of eight services. Its argument check admits eight
ports also when the remote file system takes a ninth service, and then the board reads the data
byte `0xD8` as the id of that service. `carriesTraffic_iff` is the exact condition: the link
carries a stream if and only if the configuration uses at most eight services or the stream has no
byte `0xD8`. `payload_stored` and `service_byte_stored` are the simulation step under that
condition, `service_byte_stored_count` is the step that counts the lost bytes without it.
-/

set_option autoImplicit false
set_option relaxedAutoImplicit false

namespace Elua.Sermux

open Buf Foundation

/-! ### The link and what it must do -/

/-- The sources of a configuration: its ports, numbered from one, and the response of the remote
file system server in the mode that has one. -/
def Admits (config : MuxConfig) : Source → Prop
  | .rfs => config.muxMode = .rfsmux
  | .port selidx => 1 ≤ selidx ∧ selidx ≤ config.vportNum

instance (config : MuxConfig) (source : Source) : Decidable (Admits config source) :=
  match source with
  | .rfs => inferInstanceAs (Decidable (config.muxMode = .rfsmux))
  | .port selidx => inferInstanceAs (Decidable (1 ≤ selidx ∧ selidx ≤ config.vportNum))

/-- The board receives a wire byte; each effect is kept with the role the byte was sent in. -/
def boardReceive (sermuxNumVuart : ℕ) (board : SermuxBoard) (wire : WireRole × UInt8) :
    SermuxBoard × List (WireRole × RxEffect) :=
  let result := cmnRxHandler sermuxNumVuart board wire.2
  (result.1, result.2.map (wire.1, ·))

/-- What a board with as many virtual UARTs as the configuration uses services does with a stream
that the PC sends. -/
def received (config : MuxConfig) (traffic : List (Source × UInt8)) :
    List (WireRole × RxEffect) :=
  (runTransducer (boardReceive config.services) .initial
    (runTransducer (serviceByte config) .initial traffic).2).2

/-- The stream as the services should see it: the id of each byte's service, and the byte. -/
def serviceItems (config : MuxConfig) (traffic : List (Source × UInt8)) : List (ℕ × UInt8) :=
  traffic.map fun item ↦ (serviceOf config item.1, item.2)

/-- The role in which the board has taken a byte. Answering the PC is neither. -/
def roleTaken : RxEffect → Option WireRole
  | .serviceSelected _ => some .control
  | .escapeSeen => some .control
  | .stored _ _ => some .data
  | .transmitted _ => none

/-- The link carries a stream: every service is handed exactly its bytes in order, so that its
buffer, given room, ends up with them behind what it held, and every wire byte is taken in the role
it was sent in. -/
structure CarriesTraffic (config : MuxConfig) (traffic : List (Source × UInt8)) : Prop where
  handed : ∀ service, channel service (storedItems ((received config traffic).map Prod.snd)) =
    channel service (serviceItems config traffic)
  buffered : ∀ numUart service start, ∀ table : ℕ → BufDesc,
    isVirtualUart config.services service →
    RingAt (table (bufhCheckResnum numUart service)) start →
    (table (bufhCheckResnum numUart service)).logdsize = 0 →
    (table (bufhCheckResnum numUart service)).count +
      (channel service (serviceItems config traffic)).length ≤
        bufRealsize (table (bufhCheckResnum numUart service)) →
    queued (storeEffects numUart table ((received config traffic).map Prod.snd)
        (bufhCheckResnum numUart service)) start =
      queued (table (bufhCheckResnum numUart service)) start ++
        (channel service (serviceItems config traffic)).map fun data ↦ [data]
  roles : ∀ taken ∈ received config traffic, roleTaken taken.2 = some taken.1

/-- The data byte that the PC sends as it is although it is the id of a ninth service. -/
def ninthServiceId : UInt8 := UInt8.ofNat (sermuxServiceIdLast + 1)

/-! ### The services of a configuration -/

/-- A configuration uses at most one service more than the check has in mind. -/
theorem services_le {config : MuxConfig} (hports : config.vportNum ≤ sermuxServiceMax) :
    config.services ≤ sermuxServiceMax + 1 := by
  have hoffset : config.serviceOffset ≤ 1 := by
    unfold MuxConfig.serviceOffset
    split <;> simp
  exact Nat.add_le_add hports hoffset

/-- The id of every admitted source is that of one of the board's virtual UARTs. -/
theorem isVirtualUart_serviceOf {config : MuxConfig} {source : Source}
    (hsource : Admits config source) :
    isVirtualUart config.services (serviceOf config source) := by
  cases source with
  | rfs =>
    have hmode : config.muxMode = .rfsmux := hsource
    simp only [isVirtualUart, serviceOf, MuxConfig.services, MuxConfig.serviceOffset, hmode]
    omega
  | port selidx =>
    obtain ⟨hfirst, hlast⟩ : 1 ≤ selidx ∧ selidx ≤ config.vportNum := hsource
    simp only [isVirtualUart, serviceOf, MuxConfig.services]
    omega

/-- Service ids fit into a byte and are not the escape character. -/
theorem service_byte_facts {services id : ℕ} (hservices : services ≤ sermuxServiceMax + 1)
    (hid : isVirtualUart services id) : id < 256 ∧ UInt8.ofNat id ≠ sermuxEscapeChar := by
  obtain ⟨hfirst, hlast⟩ := hid
  simp only [sermuxServiceMax, sermuxServiceIdFirst, sermuxServiceIdLast] at hservices hfirst hlast
  have hbyte : id < 256 := by omega
  refine ⟨hbyte, fun hequal ↦ ?_⟩
  have hvalue := toNat_service hbyte
  rw [hequal] at hvalue
  change 0xC0 = id at hvalue
  omega

/-- An escaped byte is never a service id, even with nine services. -/
theorem escaped_not_service {services : ℕ} (hservices : services ≤ sermuxServiceMax + 1)
    {data : UInt8} (hneeds : needsEscape data = true) :
    ¬ isVirtualUart services (escapedByte data).toNat := by
  have hge := escaped_byte_ge hneeds
  simp only [isVirtualUart, sermuxServiceMax, sermuxServiceIdFirst, sermuxServiceIdLast]
    at hservices ⊢
  omega

/-- A byte sent as it is is a service id of the board only if it is that of a ninth service. -/
theorem plain_service_iff {services : ℕ} (hservices : services ≤ sermuxServiceMax + 1)
    {data : UInt8} (hplain : needsEscape data = false) :
    isVirtualUart services data.toNat ↔
      sermuxServiceMax < services ∧ data = ninthServiceId := by
  have hnot := not_service_of_plain hplain
  have hninth : data = ninthServiceId ↔ data.toNat = 0xD8 := by
    rw [← UInt8.toNat_inj]
    rfl
  rw [hninth]
  simp only [isVirtualUart, sermuxServiceMax, sermuxServiceIdFirst, sermuxServiceIdLast]
    at hservices hnot ⊢
  omega

/-! ### One byte on the link -/

/-- The wire bytes of one data byte with their roles: the service id if it changes, then the
encoded byte. -/
def payload (data : UInt8) : List (WireRole × UInt8) :=
  if needsEscape data then [(.control, sermuxEscapeChar), (.data, escapedByte data)]
  else [(.data, data)]

/-- The announcement of a service that the PC sends when the service changes. -/
def announcement (id : ℕ) (current : Option ℕ) : List (WireRole × UInt8) :=
  if some id ≠ current then [(.control, UInt8.ofNat id)] else []

theorem serviceByte_wire (config : MuxConfig) (server : MuxServer) (item : Source × UInt8) :
    (serviceByte config server item).2 =
      announcement (serviceOf config item.1) server.serviceIdOut ++ payload item.2 := by
  rw [serviceByte, announcement, payload]
  split_ifs <;> rfl

theorem serviceByte_serviceIdOut (config : MuxConfig) (server : MuxServer)
    (item : Source × UInt8) :
    (serviceByte config server item).1.serviceIdOut = some (serviceOf config item.1) := by
  rw [serviceByte]
  split_ifs <;> rfl

variable {config : MuxConfig} {board : SermuxBoard}

/-- The announcement selects the service, as control. -/
theorem receive_announcement (board : SermuxBoard) {services id : ℕ} (hservices : services ≤ sermuxServiceMax + 1)
    (hid : isVirtualUart services id) (current : Option ℕ)
    (hcurrent : some id = current → board.uartServiceIdIn = some id) :
    ∃ taken, runTransducer (boardReceive services) board (announcement id current) =
        ({ board with uartServiceIdIn := some id }, taken) ∧
      storedItems (taken.map Prod.snd) = [] ∧
      ∀ item ∈ taken, roleTaken item.2 = some item.1 := by
  obtain ⟨hbyte, hne⟩ := service_byte_facts hservices hid
  by_cases hchange : some id = current
  · refine ⟨[], ?_, rfl, by simp⟩
    rw [announcement, if_neg (not_not.mpr hchange), runTransducer_nil, ← hcurrent hchange]
  · refine ⟨[(.control, .serviceSelected id)], ?_, rfl, by simp [roleTaken]⟩
    rw [announcement, if_pos hchange]
    have hreceive : boardReceive services board (.control, UInt8.ofNat id) =
        ({ board with uartServiceIdIn := some id }, [(.control, .serviceSelected id)]) := by
      rw [boardReceive, cmnRxHandler_service hid hbyte hne]
      rfl
    rw [runTransducer_cons_of hreceive]
    rfl

/-- A data byte that the board does not mistake for a service id is stored for the current
service, and its wire bytes are taken in their roles. -/
theorem payload_stored (board : SermuxBoard) {services service : ℕ} (hservices : services ≤ sermuxServiceMax + 1)
    {data : UInt8} (hnot : needsEscape data = true ∨ ¬ isVirtualUart services data.toNat)
    (hescape : board.uartGotEsc = false) (hservice : board.uartServiceIdIn = some service) :
    ∃ taken, runTransducer (boardReceive services) board (payload data) = (board, taken) ∧
      storedItems (taken.map Prod.snd) = [(service, data)] ∧
      ∀ item ∈ taken, roleTaken item.2 = some item.1 := by
  obtain ⟨serviceIn, serviceOut, gotEsc, lastSent⟩ := board
  obtain rfl : gotEsc = false := hescape
  obtain rfl : serviceIn = some service := hservice
  by_cases hneeds : needsEscape data = true
  · refine ⟨[(.control, .escapeSeen), (.data, .stored service data)], ?_, rfl,
      by simp [roleTaken]⟩
    have hfirst : boardReceive services ⟨some service, serviceOut, false, lastSent⟩
        (.control, sermuxEscapeChar) =
          (⟨some service, serviceOut, true, lastSent⟩, [(.control, .escapeSeen)]) := by
      rw [boardReceive, cmnRxHandler_escape]
      rfl
    have hsecond : boardReceive services ⟨some service, serviceOut, true, lastSent⟩
        (.data, escapedByte data) =
          (⟨some service, serviceOut, false, lastSent⟩, [(.data, .stored service data)]) := by
      rw [boardReceive, cmnRxHandler_data (escaped_byte_ne_escape hneeds)
        (escaped_byte_ne_force hneeds) (escaped_not_service hservices hneeds)]
      simp [receiveData]
    rw [payload, if_pos hneeds, runTransducer_cons_of hfirst, runTransducer_cons_of hsecond]
    rfl
  · refine ⟨[(.data, .stored service data)], ?_, rfl, by simp [roleTaken]⟩
    have hplain : needsEscape data = false := by simpa using hneeds
    have hreceive : boardReceive services ⟨some service, serviceOut, false, lastSent⟩
        (.data, data) =
          (⟨some service, serviceOut, false, lastSent⟩, [(.data, .stored service data)]) := by
      rw [boardReceive, cmnRxHandler_data (ne_escape_of_plain hplain) (ne_force_of_plain hplain)
        (hnot.resolve_left hneeds)]
      simp [receiveData]
    rw [payload, if_neg hneeds, runTransducer_cons_of hreceive]
    rfl

/-! ### The streams the link carries -/

/-- The two ends agree on the current service and no escape is pending. -/
def Agreed (server : MuxServer) (board : SermuxBoard) : Prop :=
  server.serviceIdOut = board.uartServiceIdIn ∧ board.uartGotEsc = false

/-- One byte whose payload the board does not mistake is stored for its service. -/
theorem service_byte_stored (hservices : config.services ≤ sermuxServiceMax + 1)
    {server : MuxServer} (hagreed : Agreed server board) {item : Source × UInt8}
    (hsource : Admits config item.1)
    (hnot : needsEscape item.2 = true ∨ ¬ isVirtualUart config.services item.2.toNat) :
    (storedItems ((runTransducer (boardReceive config.services) board
        (serviceByte config server item).2).2.map Prod.snd) =
          [(serviceOf config item.1, item.2)] ∧
      ∀ taken ∈ (runTransducer (boardReceive config.services) board
        (serviceByte config server item).2).2, roleTaken taken.2 = some taken.1) ∧
    Agreed (serviceByte config server item).1
      (runTransducer (boardReceive config.services) board (serviceByte config server item).2).1 := by
  obtain ⟨announced, hannounced, hnothing, hcontrol⟩ := receive_announcement board hservices
    (isVirtualUart_serviceOf hsource) server.serviceIdOut fun h ↦ by rw [← hagreed.1, h]
  obtain ⟨taken, htaken, hstored, hroles⟩ := payload_stored
    { board with uartServiceIdIn := some (serviceOf config item.1) } hservices hnot hagreed.2 rfl
  rw [serviceByte_wire, runTransducer_append, hannounced, htaken]
  refine ⟨⟨?_, ?_⟩, serviceByte_serviceIdOut config server item, hagreed.2⟩
  · rw [List.map_append, storedItems_append, hnothing, hstored, List.nil_append]
  · intro item hitem
    rcases List.mem_append.mp hitem with hitem | hitem
    · exact hcontrol item hitem
    · exact hroles item hitem

/-- A stream in which the board mistakes no payload is stored item by item. -/
theorem storedItems_received (hservices : config.services ≤ sermuxServiceMax + 1)
    (traffic : List (Source × UInt8)) (hsources : ∀ item ∈ traffic, Admits config item.1)
    (hnot : ∀ item ∈ traffic,
      needsEscape item.2 = true ∨ ¬ isVirtualUart config.services item.2.toNat) :
    storedItems ((received config traffic).map Prod.snd) = serviceItems config traffic ∧
      ∀ taken ∈ received config traffic, roleTaken taken.2 = some taken.1 := by
  obtain ⟨answers, hanswers, houtput⟩ := forall₂_decode_encode (serviceByte config)
    (boardReceive config.services) Agreed
    (fun item output ↦ storedItems (output.map Prod.snd) = [(serviceOf config item.1, item.2)] ∧
      ∀ taken ∈ output, roleTaken taken.2 = some taken.1)
    (fun item ↦ Admits config item.1 ∧
      (needsEscape item.2 = true ∨ ¬ isVirtualUart config.services item.2.toNat))
    (fun server board item hagreed hitem ↦
      service_byte_stored hservices hagreed hitem.1 hitem.2)
    traffic (fun item hitem ↦ ⟨hsources item hitem, hnot item hitem⟩)
    (show Agreed .initial .initial from ⟨rfl, rfl⟩)
  rw [received, houtput]
  clear houtput hsources hnot
  induction hanswers with
  | nil => exact ⟨rfl, by simp⟩
  | cons hhead _ ih =>
    refine ⟨?_, fun taken htaken ↦ ?_⟩
    · rw [List.flatten_cons, List.map_append, storedItems_append, hhead.1, ih.1]
      rfl
    · rcases List.mem_append.mp htaken with htaken | htaken
      · exact hhead.2 taken htaken
      · exact ih.2 taken htaken

/-! ### The streams it does not carry -/

/-- Once the PC has announced a service the board has one selected, and no escape is pending. -/
def Announced (server : MuxServer) (board : SermuxBoard) : Prop :=
  (∀ id, server.serviceIdOut = some id → ∃ service, board.uartServiceIdIn = some service) ∧
    board.uartGotEsc = false

/-- A data byte that the board mistakes for a service id selects that service and is not stored. -/
theorem payload_mistaken {services : ℕ} (hservices : services ≤ sermuxServiceMax + 1)
    {data : UInt8} (hneeds : needsEscape data = false)
    (hservice : isVirtualUart services data.toNat) (board : SermuxBoard) :
    runTransducer (boardReceive services) board (payload data) =
      ({ board with uartServiceIdIn := some data.toNat },
        [(.data, .serviceSelected data.toNat)]) := by
  have hreceive : boardReceive services board (.data, data) =
      ({ board with uartServiceIdIn := some data.toNat },
        [(.data, .serviceSelected data.toNat)]) := by
    have hselected := cmnRxHandler_service hservice (service_byte_facts hservices hservice).1
      (service_byte_facts hservices hservice).2 board
    rw [UInt8.ofNat_toNat] at hselected
    rw [boardReceive, hselected]
    rfl
  rw [payload, if_neg (by simp [hneeds]), runTransducer_cons_of hreceive]
  rfl

/-- After the announcement of a service, made or not, the board has some service selected. -/
theorem receive_some_announcement (hservices : config.services ≤ sermuxServiceMax + 1)
    {server : MuxServer} (hannounced : Announced server board) {id : ℕ}
    (hid : isVirtualUart config.services id) :
    ∃ service taken,
      runTransducer (boardReceive config.services) board (announcement id server.serviceIdOut) =
        ({ board with uartServiceIdIn := some service }, taken) ∧
      storedItems (taken.map Prod.snd) = [] := by
  by_cases hchange : some id = server.serviceIdOut
  · obtain ⟨service, hservice⟩ := hannounced.1 id hchange.symm
    refine ⟨service, [], ?_, rfl⟩
    rw [announcement, if_neg (not_not.mpr hchange), runTransducer_nil, ← hservice]
  · obtain ⟨taken, htaken, hnothing, -⟩ := receive_announcement board hservices hid
      server.serviceIdOut fun h ↦ absurd h hchange
    exact ⟨id, taken, htaken, hnothing⟩

/-- One byte is stored for some service unless the board mistakes it for a service id. -/
theorem service_byte_stored_count (hservices : config.services ≤ sermuxServiceMax + 1)
    {server : MuxServer} (hannounced : Announced server board) {item : Source × UInt8}
    (hsource : Admits config item.1) :
    (storedItems ((runTransducer (boardReceive config.services) board
        (serviceByte config server item).2).2.map Prod.snd)).length =
      (if needsEscape item.2 = true ∨ ¬ isVirtualUart config.services item.2.toNat then 1 else 0) ∧
    Announced (serviceByte config server item).1
      (runTransducer (boardReceive config.services) board (serviceByte config server item).2).1 := by
  obtain ⟨service, announced, hrun, hnothing⟩ := receive_some_announcement hservices hannounced
    (isVirtualUart_serviceOf hsource)
  rw [serviceByte_wire, runTransducer_append, hrun]
  by_cases hnot : needsEscape item.2 = true ∨ ¬ isVirtualUart config.services item.2.toNat
  · obtain ⟨taken, htaken, hstored, -⟩ := payload_stored
      { board with uartServiceIdIn := some service } hservices hnot hannounced.2 rfl
    rw [htaken, if_pos hnot, List.map_append, storedItems_append, hnothing, hstored]
    exact ⟨rfl, fun _ _ ↦ ⟨service, rfl⟩, hannounced.2⟩
  · obtain ⟨hneeds, hmistaken⟩ := not_or.mp hnot
    rw [payload_mistaken hservices (Bool.not_eq_true _ ▸ hneeds) (not_not.mp hmistaken),
      if_neg hnot, List.map_append, storedItems_append, hnothing]
    exact ⟨rfl, fun _ _ ↦ ⟨_, rfl⟩, hannounced.2⟩

/-- The number of bytes a stream stores on the board, for any service, is the number of its bytes
that are not mistaken for a service id. -/
theorem length_storedItems_received (hservices : config.services ≤ sermuxServiceMax + 1)
    (traffic : List (Source × UInt8)) (hsources : ∀ item ∈ traffic, Admits config item.1) :
    (storedItems ((received config traffic).map Prod.snd)).length =
      traffic.countP fun item ↦
        needsEscape item.2 = true ∨ ¬ isVirtualUart config.services item.2.toNat := by
  obtain ⟨answers, hanswers, houtput⟩ := forall₂_decode_encode (serviceByte config)
    (boardReceive config.services) Announced
    (fun item output ↦ (storedItems (output.map Prod.snd)).length =
      if needsEscape item.2 = true ∨ ¬ isVirtualUart config.services item.2.toNat then 1 else 0)
    (fun item ↦ Admits config item.1)
    (fun server board item hannounced hsource ↦
      service_byte_stored_count hservices hannounced hsource)
    traffic hsources (show Announced .initial .initial from ⟨fun _ h ↦ (by cases h), rfl⟩)
  rw [received, houtput]
  clear houtput hsources
  induction hanswers with
  | nil => rfl
  | cons hhead _ ih =>
    rw [List.flatten_cons, List.map_append, storedItems_append, List.length_append, hhead, ih,
      List.countP_cons]
    simp only [decide_eq_true_eq]
    omega

/-! ### The exact condition -/

/-- No payload of a stream is mistaken if and only if the board has at most eight services or the
stream has no byte that is the id of a ninth one. -/
theorem forall_not_mistaken_iff (hservices : config.services ≤ sermuxServiceMax + 1)
    (traffic : List (Source × UInt8)) :
    (∀ item ∈ traffic,
      needsEscape item.2 = true ∨ ¬ isVirtualUart config.services item.2.toNat) ↔
    config.services ≤ sermuxServiceMax ∨ ∀ item ∈ traffic, item.2 ≠ ninthServiceId := by
  have hbyte : ∀ data : UInt8,
      (needsEscape data = true ∨ ¬ isVirtualUart config.services data.toNat) ↔
        (config.services ≤ sermuxServiceMax ∨ data ≠ ninthServiceId) := by
    intro data
    by_cases hneeds : needsEscape data = true
    · have hne : data ≠ ninthServiceId := by
        rintro rfl
        exact absurd hneeds (by decide)
      simp [hneeds, hne]
    · rw [plain_service_iff hservices (by simpa using hneeds)]
      simp only [hneeds, Bool.false_eq_true, false_or, not_and_or, not_lt]
  constructor
  · intro hall
    by_cases hmax : config.services ≤ sermuxServiceMax
    · exact .inl hmax
    · exact .inr fun item hitem ↦ ((hbyte _).mp (hall item hitem)).resolve_left hmax
  · rintro (hmax | hne) item hitem
    · exact (hbyte _).mpr (.inl hmax)
    · exact (hbyte _).mpr (.inr (hne item hitem))

/-- For every configuration the argument check accepts and every interleaving of its sources, the
link carries the stream if and only if the configuration uses at most eight services or the stream
has no byte that equals the id of a ninth service. -/
theorem carriesTraffic_iff (argv : List (List Char)) (config : MuxConfig)
    (hconfig : muxConfig argv = some config) (traffic : List (Source × UInt8))
    (hsources : ∀ item ∈ traffic, Admits config item.1) :
    CarriesTraffic config traffic ↔
      config.services ≤ sermuxServiceMax ∨ ∀ item ∈ traffic, item.2 ≠ ninthServiceId := by
  have hservices := services_le (vportNum_le_of_muxConfig hconfig)
  rw [← forall_not_mistaken_iff hservices]
  constructor
  · intro hcarries
    have hperm := (perm_of_channel_eq hcarries.handed).length_eq
    rw [length_storedItems_received hservices traffic hsources, serviceItems, List.length_map,
      List.countP_eq_length] at hperm
    exact fun item hitem ↦ of_decide_eq_true (hperm item hitem)
  · intro hnot
    obtain ⟨hstored, hroles⟩ := storedItems_received hservices traffic hsources hnot
    refine ⟨fun service ↦ by rw [hstored], ?_, hroles⟩
    intro numUart service start table hservice hring hdsize hroom
    rw [← hstored] at hroom ⊢
    refine queued_storeEffects numUart hservice.1 _ (fun item hitem ↦ ?_) table hring hdsize hroom
    rw [hstored] at hitem
    obtain ⟨source, hsource, rfl⟩ := List.mem_map.mp hitem
    exact (isVirtualUart_serviceOf (hsources source hsource)).1

/-- The link of the remote file system and one port carries a stream of both. -/
theorem carriesTraffic_rfs_and_port :
    CarriesTraffic ⟨.rfsmux, 1⟩ [(.port 1, 0xD8), (.rfs, 0xD0), (.port 1, 0xFF)] :=
  (carriesTraffic_iff [['p'], ['r', 'f', 's', 'm', 'u', 'x', ':'], ['t'], ['v']] ⟨.rfsmux, 1⟩
    (by decide) [(.port 1, 0xD8), (.rfs, 0xD0), (.port 1, 0xFF)] (by decide)).mpr
    (.inl (by decide))

/-- Eight ports beside the remote file system pass the argument check, and then the byte `0xD8`
from the first port is lost: no service is handed it. -/
theorem eight_ports_with_rfs_lose_a_byte :
    muxConfig (['p'] :: ['r', 'f', 's', 'm', 'u', 'x', ':'] :: ['t'] ::
        List.replicate 8 ['v']) = some ⟨.rfsmux, 8⟩ ∧
      (∀ item ∈ [(Source.port 1, (0xD8 : UInt8))], Admits ⟨.rfsmux, 8⟩ item.1) ∧
      ¬ CarriesTraffic ⟨.rfsmux, 8⟩ [(.port 1, 0xD8)] := by
  refine ⟨by decide, by decide, fun hcarries ↦ ?_⟩
  exact absurd (hcarries.handed 0xD1) (by decide)

end Elua.Sermux
