import Elua.Foundation.Transducer
import Elua.Sermux.Protocol

/-!
# The PC's end of the serial multiplexer

The program of `mux_src/main.c`. `muxConfig` is its argument check: the mode, and the number of
virtual ports it accepts. `MuxServer` holds the variables of its main loop. `transportByte` is the
branch that decodes a byte read from the transport, and `serviceByte` the branch that sends a byte
read from a port, or from the response of the remote file system server, to the transport. Each
byte `serviceByte` sends carries the role it is sent in, control or data, which the wire does not
show.
-/

set_option autoImplicit false
set_option relaxedAutoImplicit false

namespace Elua.Sermux

/-! ### The accepted configurations -/

/-- `MODE_MUX` and `MODE_RFSMUX`. -/
inductive MuxMode
  | mux
  | rfsmux
  deriving DecidableEq, Repr

/-- What the argument check leaves behind: `mux_mode` and `vport_num`. -/
structure MuxConfig where
  muxMode : MuxMode
  vportNum : ℕ
  deriving DecidableEq, Repr

/-- `rfs_service_id`, `none` for `-1`. -/
def MuxConfig.rfsServiceId (config : MuxConfig) : Option ℕ :=
  match config.muxMode with
  | .mux => none
  | .rfsmux => some sermuxServiceIdFirst

/-- `service_offset`. -/
def MuxConfig.serviceOffset (config : MuxConfig) : ℕ :=
  match config.muxMode with
  | .mux => 0
  | .rfsmux => 1

/-- The number of services a configuration uses: its ports, and the remote file system. -/
def MuxConfig.services (config : MuxConfig) : ℕ := config.vportNum + config.serviceOffset

/-- `MIN_ARGC_COUNT`. -/
def minArgcCount : ℕ := 4

/-- `FIRST_SERVICE_IDX`. -/
def firstServiceIdx : ℕ := 3

/-- The mode argument: `mux`, or `rfsmux:` followed by a directory. -/
def parseMode (argument : List Char) : Option MuxMode :=
  if argument = ['m', 'u', 'x'] then some .mux
  else if ['r', 'f', 's', 'm', 'u', 'x', ':'].isPrefixOf argument then some .rfsmux
  else none

/-- The value `main` computes for `vport_num`: the unsigned number of arguments from the first
service on, without a last argument that asks for verbose output. -/
def countPorts (argv : List (List Char)) : ℕ :=
  let last := argv.length - 1
  let verbose := (argv.getD last []).map Char.toLower = ['-', 'v']
  let lastPort := if verbose then last - 1 else last
  (UInt32.ofNat lastPort - UInt32.ofNat firstServiceIdx + 1).toNat

/-- The argument check of `main`: the configuration it accepts for an argument vector. -/
def muxConfig (argv : List (List Char)) : Option MuxConfig :=
  if argv.length < minArgcCount then none
  else (parseMode (argv.getD 1 [])).bind fun mode ↦
    if countPorts argv > sermuxServiceMax then none else some ⟨mode, countPorts argv⟩

/-- The check bounds the number of ports, whatever the mode. -/
theorem vportNum_le_of_muxConfig {argv : List (List Char)} {config : MuxConfig}
    (hconfig : muxConfig argv = some config) : config.vportNum ≤ sermuxServiceMax := by
  by_cases hargc : argv.length < minArgcCount
  · simp [muxConfig, hargc] at hconfig
  · rw [muxConfig, if_neg hargc] at hconfig
    obtain ⟨mode, -, hmode⟩ := Option.bind_eq_some_iff.mp hconfig
    split_ifs at hmode with hports
    obtain rfl := Option.some.inj hmode
    exact Nat.le_of_not_lt hports

/-! ### The main loop -/

/-- The variables of the main loop; `none` stands for `-1`. `running` turns false when `main`
returns. -/
structure MuxServer where
  serviceIdIn : Option ℕ
  serviceIdOut : Option ℕ
  prevSent : Option ℕ
  gotEsc : Bool
  running : Bool
  deriving DecidableEq, Repr

/-- The variables at the start of the main loop. -/
def MuxServer.initial : MuxServer := ⟨none, none, none, false, true⟩

/-- What the program does with a byte of the transport: it sends a byte back, passes the byte on to
the remote file system server or to a port, or stops with a protocol error. -/
inductive MuxEffect
  | transmitted (byte : UInt8)
  | toRfs (byte : UInt8)
  | toPort (index : ℕ) (byte : UInt8)
  | protocolError
  deriving DecidableEq, Repr

/-- The bytes the program sends to answer a request for the service id. -/
def resend (server : MuxServer) (prevSent : ℕ) : List UInt8 :=
  [(server.serviceIdOut.map UInt8.ofNat).getD sermuxForceSidChar] ++
    (if prevSent &&& sermuxEscMask ≠ 0 then [sermuxEscapeChar] else []) ++
    [UInt8.ofNat (prevSent &&& 0xFF)]

/-- Passes a decoded byte on to the current service. -/
def deliver (config : MuxConfig) (server : MuxServer) (byte : UInt8) : List MuxEffect :=
  match server.serviceIdIn with
  | none => [.transmitted sermuxForceSidChar]
  | some service =>
    if some service = config.rfsServiceId then [.toRfs byte]
    else [.toPort (service - sermuxServiceIdFirst - config.serviceOffset) byte]

/-- The branch of the main loop for a byte read from the transport. -/
def transportByte (config : MuxConfig) (server : MuxServer) (c : UInt8) :
    MuxServer × List MuxEffect :=
  if ¬ server.running then (server, [])
  else if c ≠ sermuxEscapeChar then
    if sermuxServiceIdFirst ≤ c.toNat ∧ c.toNat ≤ sermuxServiceIdLast then
      ({ server with serviceIdIn := some c.toNat }, [])
    else if c = sermuxForceSidChar then
      match server.prevSent with
      | none => ({ server with running := false }, [.protocolError])
      | some prevSent =>
        ({ server with prevSent := none }, (resend server prevSent).map .transmitted)
    else if server.gotEsc then
      let unescaped := c ^^^ sermuxEscapeXorMask
      if needsEscape unescaped then
        ({ server with gotEsc := false }, deliver config server unescaped)
      else ({ server with running := false }, [.protocolError])
    else (server, deliver config server c)
  else ({ server with gotEsc := true }, [])

/-- The role in which a byte is put on the wire. -/
inductive WireRole
  | control
  | data
  deriving DecidableEq, Repr

/-- The source of a byte for the transport: a port, counted as the handlers of `ser_select_byte`
are, or the response of the remote file system server (`RFS_PSEUDO_SELIDX`). -/
inductive Source
  | rfs
  | port (selidx : ℕ)
  deriving DecidableEq, Repr

/-- The service id under which the bytes of a source are sent. -/
def serviceOf (config : MuxConfig) : Source → ℕ
  | .rfs => sermuxServiceIdFirst
  | .port selidx => sermuxServiceIdFirst + selidx - 1 + config.serviceOffset

/-- The branch of the main loop that sends a byte to the transport. -/
def serviceByte (config : MuxConfig) (server : MuxServer) (item : Source × UInt8) :
    MuxServer × List (WireRole × UInt8) :=
  let temp := serviceOf config item.1
  let c := item.2
  let announce := if some temp ≠ server.serviceIdOut then
    [(WireRole.control, UInt8.ofNat temp)] else []
  if needsEscape c then
    ({ server with
        serviceIdOut := some temp
        prevSent := some (sermuxEscMask ||| (escapedByte c).toNat) },
      announce ++ [(.control, sermuxEscapeChar), (.data, escapedByte c)])
  else
    ({ server with serviceIdOut := some temp, prevSent := some c.toNat },
      announce ++ [(.data, c)])

/-! ### What the decoder does with each kind of byte -/

variable {config : MuxConfig} {server : MuxServer}

/-- A service id selects the service. -/
theorem transportByte_service {id : ℕ} (hfirst : sermuxServiceIdFirst ≤ id)
    (hlast : id ≤ sermuxServiceIdLast) (hrunning : server.running = true) :
    transportByte config server (UInt8.ofNat id) =
      ({ server with serviceIdIn := some id }, []) := by
  have hbyte : (UInt8.ofNat id).toNat = id :=
    toNat_service (by simp only [sermuxServiceIdLast] at hlast; omega)
  have hne : UInt8.ofNat id ≠ sermuxEscapeChar := by
    intro hequal
    rw [hequal] at hbyte
    rw [← hbyte] at hfirst
    exact absurd hfirst (by decide)
  rw [transportByte, if_neg (by simp [hrunning]), if_pos hne, hbyte, if_pos ⟨hfirst, hlast⟩]

/-- The escape character is noted. -/
theorem transportByte_escape (hrunning : server.running = true) :
    transportByte config server sermuxEscapeChar = ({ server with gotEsc := true }, []) := by
  rw [transportByte, if_neg (by simp [hrunning]), if_neg (by simp)]

/-- A byte that needs no escape is passed on as it is. -/
theorem transportByte_plain {c : UInt8} (hplain : needsEscape c = false)
    (hrunning : server.running = true) (hescape : server.gotEsc = false) :
    transportByte config server c = (server, deliver config server c) := by
  rw [transportByte, if_neg (by simp [hrunning]), if_pos (ne_escape_of_plain hplain),
    if_neg (not_service_of_plain hplain), if_neg (ne_force_of_plain hplain),
    if_neg (by simp [hescape])]

/-- After an escape character, an escaped byte is recovered and passed on. -/
theorem transportByte_escaped {c : UInt8} (hneeds : needsEscape c = true)
    (hrunning : server.running = true) (hescape : server.gotEsc = true) :
    transportByte config server (escapedByte c) =
      ({ server with gotEsc := false }, deliver config server c) := by
  have hservice : ¬ (sermuxServiceIdFirst ≤ (escapedByte c).toNat ∧
      (escapedByte c).toNat ≤ sermuxServiceIdLast) := by
    have hge := escaped_byte_ge hneeds
    simp only [sermuxServiceIdLast]
    omega
  rw [transportByte, if_neg (by simp [hrunning]), if_pos (escaped_byte_ne_escape hneeds),
    if_neg hservice, if_neg (escaped_byte_ne_force hneeds), if_pos hescape]
  simp only [xor_mask_cancel, hneeds, if_true]

end Elua.Sermux
