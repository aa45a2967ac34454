import Elua.Foundation.Transducer
import Elua.Sermux.MuxServer
import Mathlib.Data.Int.Notation

/-!
# The service table of the PC's multiplexer

`main` of `mux_src/main.c` allocates one service for each port, and its decoder looks up the port of
a data byte by the service id that was received last. `LoopInput` is a byte that a turn of the main
loop handles, and a run collects the indices into `services` of its accesses. `InTable` says that
all of them are in the table.

The decoder takes every service id of the protocol, whether there is a port for it or not.
`inTable_iff` says that the accesses stay in the table exactly as long as no data byte is passed on
under an id without a service, and that every run does so only where all ids have a service. -/

set_option autoImplicit false
set_option relaxedAutoImplicit false

namespace Elua.Sermux

open Foundation

/-! ### The accesses of a run -/

/-- A byte that a turn of the main loop handles: from the transport, or from a service. -/
inductive LoopInput
  | transport (c : UInt8)
  | service (item : Source × UInt8)
  deriving DecidableEq, Repr

/-- The index into `services` for a service id, as an `int`. -/
def serviceIndex (config : MuxConfig) (service : ℕ) : ℤ :=
  (service : ℤ) - sermuxServiceIdFirst - config.serviceOffset

/-- The indices of the accesses to `services` for a byte from the transport: one for each byte that
goes to a port. -/
def accessedIndices (config : MuxConfig) (server : MuxServer) (c : UInt8) : List ℤ :=
  (transportByte config server c).2.filterMap fun effect ↦
    match effect with
    | .toPort _ _ => server.serviceIdIn.map (serviceIndex config)
    | _ => none

/-- A turn of the main loop, with the indices of its accesses to `services`. -/
def loopTurn (config : MuxConfig) (server : MuxServer) : LoopInput → MuxServer × List ℤ
  | .transport c => ((transportByte config server c).1, accessedIndices config server c)
  | .service item => (if server.running then (serviceByte config server item).1 else server, [])

/-- A run of the main loop. -/
def runLoop (config : MuxConfig) (inputs : List LoopInput) : MuxServer × List ℤ :=
  runTransducer (loopTurn config) .initial inputs

/-- Every access of a run is to an allocated service. -/
def InTable (config : MuxConfig) (inputs : List LoopInput) : Prop :=
  ∀ index ∈ (runLoop config inputs).2, 0 ≤ index ∧ index < config.vportNum

/-! ### Bytes without a service -/

/-- The decoder takes a byte for data: it is no control byte, and if an escape character came before
it, it is an escaped one. -/
def TakesAsData (server : MuxServer) (c : UInt8) : Prop :=
  server.running = true ∧ c ≠ sermuxEscapeChar ∧
    ¬(sermuxServiceIdFirst ≤ c.toNat ∧ c.toNat ≤ sermuxServiceIdLast) ∧ c ≠ sermuxForceSidChar ∧
      (server.gotEsc = true → needsEscape (c ^^^ sermuxEscapeXorMask) = true)

/-- A data byte arrives under a service id for which there is no service. -/
def Stray (config : MuxConfig) (server : MuxServer) (c : UInt8) : Prop :=
  TakesAsData server c ∧
    ∃ service ∈ server.serviceIdIn, sermuxServiceIdFirst + config.services ≤ service

/-- No data byte of a run arrives under a service id for which there is no service. -/
def NoStray (config : MuxConfig) (inputs : List LoopInput) : Prop :=
  ∀ before c after, inputs = before ++ .transport c :: after →
    ¬Stray config (runLoop config before).1 c

section Turns

variable {config : MuxConfig} {server : MuxServer} {c : UInt8}

/-- The service id that was received last is one of the protocol. -/
def MuxServer.KnownId (server : MuxServer) : Prop :=
  ∀ service ∈ server.serviceIdIn,
    sermuxServiceIdFirst ≤ service ∧ service ≤ sermuxServiceIdLast

/-- A turn keeps the service id in the range of the protocol. -/
theorem knownId_loopTurn (hknown : server.KnownId) (input : LoopInput) :
    (loopTurn config server input).1.KnownId := by
  cases input with
  | transport c =>
    simp only [loopTurn, transportByte]
    split_ifs with hstopped hescape hservice hforce hgot hneeds
    case pos =>
      intro service hmem
      obtain rfl : c.toNat = service := by simpa using hmem
      exact hservice
    case pos =>
      cases server.prevSent <;> exact hknown
    all_goals exact hknown
  | service item =>
    simp only [loopTurn, serviceByte]
    split_ifs <;> exact hknown

/-- The effects that a byte from the transport has on the ports, if it is taken for data. -/
theorem mem_deliver {byte : UInt8} {index : ℤ} :
    index ∈ (deliver config server byte).filterMap (fun effect ↦
        match effect with
        | .toPort _ _ => server.serviceIdIn.map (serviceIndex config)
        | _ => none) ↔
      ∃ service ∈ server.serviceIdIn, some service ≠ config.rfsServiceId ∧
        index = serviceIndex config service := by
  cases hservice : server.serviceIdIn with
  | none => simp [deliver, hservice]
  | some service =>
    simp only [deliver, hservice]
    split_ifs with hrfs
    · simp [← hrfs]
    · simp [hrfs, eq_comm]

/-- A byte from the transport leads to an access exactly if it is data for a port. -/
theorem mem_accessedIndices {index : ℤ} :
    index ∈ accessedIndices config server c ↔ TakesAsData server c ∧
      ∃ service ∈ server.serviceIdIn, some service ≠ config.rfsServiceId ∧
        index = serviceIndex config service := by
  simp only [accessedIndices, transportByte, TakesAsData]
  split_ifs with hstopped hescape hservice hforce hgot hneeds
  · simp [hservice]
  · cases server.prevSent <;> simp [hforce]
  · rw [mem_deliver]
    simp [hstopped, hescape, hservice, hforce, hneeds]
  · simp [hgot, hneeds]
  · rw [mem_deliver]
    simp [hstopped, hescape, hservice, hforce, hgot]
  · simp [of_not_not hescape]
  · simp [hstopped]

end Turns

/-! ### Runs -/

section Runs

variable (config : MuxConfig)

/-- In every run the service id is in the range of the protocol. -/
theorem knownId_runLoop (inputs : List LoopInput) : (runLoop config inputs).1.KnownId := by
  have hinitial : MuxServer.initial.KnownId := by
    intro service hservice
    simp [MuxServer.initial] at hservice
  have hturn : ∀ server input, MuxServer.KnownId server →
      MuxServer.KnownId (loopTurn config server input).1 :=
    fun _ input hknown ↦ knownId_loopTurn hknown input
  exact runTransducer_invariant hturn hinitial inputs

variable {config}

/-- The accesses of a run are those of its data bytes. -/
theorem mem_runLoop {inputs : List LoopInput} {index : ℤ} :
    index ∈ (runLoop config inputs).2 ↔ ∃ before c after,
      inputs = before ++ .transport c :: after ∧
        index ∈ accessedIndices config (runLoop config before).1 c := by
  rw [runLoop, mem_runTransducer]
  constructor
  · rintro ⟨before, input, after, rfl, hmem⟩
    cases input with
    | transport c => exact ⟨before, c, after, rfl, hmem⟩
    | service item => simp [loopTurn] at hmem
  · rintro ⟨before, c, after, rfl, hmem⟩
    exact ⟨before, .transport c, after, rfl, hmem⟩

/-- A service that is not the remote file system has an index of at least 0. -/
theorem first_add_offset_le {service : ℕ} (hfirst : sermuxServiceIdFirst ≤ service)
    (hport : some service ≠ config.rfsServiceId) :
    sermuxServiceIdFirst + config.serviceOffset ≤ service := by
  unfold MuxConfig.serviceOffset
  unfold MuxConfig.rfsServiceId at hport
  cases hmode : config.muxMode with
  | mux => exact hfirst
  | rfsmux =>
    rw [hmode] at hport
    have hne : service ≠ sermuxServiceIdFirst := fun hequal ↦ hport (congrArg some hequal)
    simp only
    omega

/-- An id without a service is not the one of the remote file system. -/
theorem ne_rfsServiceId {service : ℕ} (hstray : sermuxServiceIdFirst + config.services ≤ service) :
    some service ≠ config.rfsServiceId := by
  unfold MuxConfig.services MuxConfig.serviceOffset at hstray
  unfold MuxConfig.rfsServiceId
  cases hmode : config.muxMode with
  | mux => simp
  | rfsmux =>
    rw [hmode] at hstray
    simp only at hstray
    simp only [ne_eq, Option.some.injEq]
    omega

/-- The accesses of a byte stay in the table exactly if the byte is not stray. -/
theorem forall_accessedIndices {server : MuxServer} {c : UInt8} (hknown : server.KnownId) :
    (∀ index ∈ accessedIndices config server c, 0 ≤ index ∧ index < config.vportNum) ↔
      ¬Stray config server c := by
  constructor
  · rintro hall ⟨hdata, service, hservice, hstray⟩
    have haccess := mem_accessedIndices.2
      ⟨hdata, service, hservice, ne_rfsServiceId hstray, rfl⟩
    have hbound := (hall _ haccess).2
    simp only [serviceIndex, MuxConfig.services] at hbound hstray
    omega
  · intro hstray index hindex
    obtain ⟨hdata, service, hservice, hport, rfl⟩ := mem_accessedIndices.1 hindex
    have hlow := first_add_offset_le (hknown service hservice).1 hport
    have hhigh : ¬sermuxServiceIdFirst + config.services ≤ service :=
      fun hle ↦ hstray ⟨hdata, service, hservice, hle⟩
    simp only [serviceIndex, MuxConfig.services] at hhigh ⊢
    omega

/-- A run stays in the table exactly if none of its bytes is stray. -/
theorem inTable_iff_noStray (inputs : List LoopInput) :
    InTable config inputs ↔ NoStray config inputs := by
  constructor
  · rintro htable before c after rfl
    refine (forall_accessedIndices (knownId_runLoop config before)).1 fun index hindex ↦ ?_
    exact htable index (mem_runLoop.2 ⟨before, c, after, rfl, hindex⟩)
  · intro hstray index hindex
    obtain ⟨before, c, after, hinputs, haccess⟩ := mem_runLoop.1 hindex
    exact (forall_accessedIndices (knownId_runLoop config before)).2 (hstray before c after hinputs)
      index haccess

/-- The bytes that reach for a service: its id, and a letter. -/
def reachFor (service : ℕ) : List LoopInput :=
  [.transport (UInt8.ofNat service), .transport 0x41]

/-- The letter is data for the service. -/
theorem not_noStray_reachFor {service : ℕ} (hlast : service ≤ sermuxServiceIdLast)
    (hstray : sermuxServiceIdFirst + config.services ≤ service) :
    ¬NoStray config (reachFor service) := by
  intro hnone
  have hstate : (runLoop config [.transport (UInt8.ofNat service)]).1 =
      { MuxServer.initial with serviceIdIn := some service } := by
    have hfirst : sermuxServiceIdFirst ≤ service := Nat.le_of_add_right_le hstray
    exact congrArg Prod.fst (transportByte_service hfirst hlast rfl)
  refine hnone [.transport (UInt8.ofNat service)] 0x41 [] rfl ?_
  rw [hstate]
  refine ⟨⟨rfl, by decide, by decide, by decide, ?_⟩, service, rfl, hstray⟩
  intro hescape
  simp [MuxServer.initial] at hescape

/-- All runs stay in the table exactly if every service id of the protocol has a service. -/
theorem forall_inTable_iff :
    (∀ inputs, InTable config inputs) ↔ sermuxServiceMax ≤ config.services := by
  constructor
  · intro hall
    by_contra hfew
    have hlast : sermuxServiceIdFirst + config.services ≤ sermuxServiceIdLast := by
      simp only [sermuxServiceMax, sermuxServiceIdLast, sermuxServiceIdFirst] at hfew ⊢
      omega
    exact not_noStray_reachFor hlast (Nat.le_refl _) ((inTable_iff_noStray _).1 (hall _))
  · intro hmany inputs
    rw [inTable_iff_noStray]
    rintro before c after - ⟨-, service, hservice, hstray⟩
    have hlast := (knownId_runLoop config before service hservice).2
    simp only [sermuxServiceMax, sermuxServiceIdLast, sermuxServiceIdFirst] at hmany hlast hstray
    omega

end Runs

/-- The main loop stays in the service table in exactly those runs that pass on no data under a
service id without a service, and does so in all runs exactly if every id has a service. -/
theorem inTable_iff (config : MuxConfig) :
    (∀ inputs, InTable config inputs ↔ NoStray config inputs) ∧
      ((∀ inputs, InTable config inputs) ↔ sermuxServiceMax ≤ config.services) :=
  ⟨inTable_iff_noStray, forall_inTable_iff⟩

/-- The arguments of a multiplexer with one port. -/
def onePortArguments : List (List Char) :=
  ["mux_server".toList, "mux".toList, "/dev/ttyS0,115200,none".toList, "/dev/pts/1".toList]

/-- With one port, which `main` accepts, the second service id leads past the table. -/
theorem not_inTable :
    ∃ config, muxConfig onePortArguments = some config ∧
      ¬∀ inputs, InTable config inputs := by
  refine ⟨⟨.mux, 1⟩, by decide, fun hall ↦ ?_⟩
  have hindex : (1 : ℤ) ∈ (runLoop ⟨.mux, 1⟩ [.transport 0xD1, .transport 0x41]).2 := by decide
  have hbound := (hall _ 1 hindex).2
  simp at hbound

end Elua.Sermux
