import Elua.LuaRpc.Numbers

/-!
# The negotiation of the number format

`client_negotiate` and `server_negotiate`, which exchange a header each, and what comes of it: both
endpoints have the same format (`negotiate_eq`). `NegotiatesRight` says more: numbers cross the link
in both directions, as many bytes are read as are written, no memory is accessed that should not be,
and an integer that both number types can represent arrives unchanged.

`negotiatesRight_iff`: this is so exactly for pairs of number types that are suited (`Suited`). Two
integral types of different sizes are not, nor are floating point types, except two of eight bytes,
nor is an integral type that is larger than the floating point type of the other endpoint. -/

set_option autoImplicit false
set_option relaxedAutoImplicit false

namespace Elua.LuaRpc

open Foundation

/-- One end of the link: its byte order, and its type of numbers. -/
structure Endpoint where
  little : Bool
  number : LuaNumber
  deriving DecidableEq, Repr

/-! ### The headers -/

/-- `RPC_PROTOCOL_VERSION`. -/
def rpcProtocolVersion : UInt8 := 3

/-- A header, and what it begins with: `LRPC`. -/
def header (little : Bool) (bytes : UInt8) (intnum : Bool) : List UInt8 :=
  [0x4C, 0x52, 0x50, 0x43, rpcProtocolVersion, little.toUInt8, bytes, intnum.toUInt8]

/-- The header that `client_negotiate` writes. -/
def clientHeader (client : Endpoint) : List UInt8 :=
  header client.little (UInt8.ofNat client.number.size) client.number.integral

/-- `server_negotiate`: the state of the transport, and the header that is sent back. A header that
does not begin right is refused. -/
def serverNegotiate (server : Endpoint) : List UInt8 → Option (Transport × List UInt8)
  | [l, r, p, c, version, little, bytes, intnum] =>
    if [l, r, p, c] ≠ [0x4C, 0x52, 0x50, 0x43] ∨ version ≠ rpcProtocolVersion then none
    else
      let lnumBytes := UInt8.ofNat server.number.size
      let (little, netLittle) :=
        if little ≠ server.little.toUInt8 then (0, false) else (little, server.little)
      let bytes := if lnumBytes < bytes then lnumBytes else bytes
      let lnumBytes := if bytes < lnumBytes then bytes else lnumBytes
      let (intnum, netIntnum) :=
        if intnum ≠ server.number.integral.toUInt8 then (1, true)
        else (intnum, server.number.integral)
      some (⟨server.little, server.number.integral, netLittle, netIntnum, lnumBytes.toNat⟩,
        [l, r, p, c, version, little, bytes, intnum])
  | _ => none

/-- The end of `client_negotiate`, with the header of the server. The fields for the byte order and
the kind of numbers are of one bit. -/
def clientNegotiate (client : Endpoint) : List UInt8 → Option Transport
  | [l, r, p, c, version, little, bytes, intnum] =>
    if [l, r, p, c] ≠ [0x4C, 0x52, 0x50, 0x43] ∨ version ≠ rpcProtocolVersion then none
    else some ⟨client.little, client.number.integral, decide (little % 2 = 1),
      decide (intnum % 2 = 1), bytes.toNat⟩
  | _ => none

/-- The exchange: the transports of the client and of the server. -/
def negotiate (client server : Endpoint) : Option (Transport × Transport) :=
  (serverNegotiate server (clientHeader client)).bind fun (serverTransport, response) ↦
    (clientNegotiate client response).map fun clientTransport ↦ (clientTransport, serverTransport)

/-! ### The format agreed upon -/

/-- What is negotiated: the byte order, the size of a number, and whether numbers are integers. -/
structure WireFormat where
  little : Bool
  bytes : ℕ
  intnum : Bool
  deriving DecidableEq, Repr

/-- The transport of an endpoint with a format. -/
def Endpoint.transport (endpoint : Endpoint) (format : WireFormat) : Transport where
  locLittle := endpoint.little
  locIntnum := endpoint.number.integral
  netLittle := format.little
  netIntnum := format.intnum
  lnumBytes := format.bytes

/-- The common format. -/
def commonFormat (client server : Endpoint) : WireFormat where
  little := client.little && server.little
  bytes := min client.number.size server.number.size
  intnum := client.number.integral || server.number.integral

/-- The endpoints agree, whatever they are. -/
theorem negotiate_eq (client server : Endpoint) :
    negotiate client server = some (client.transport (commonFormat client server),
      server.transport (commonFormat client server)) := by
  obtain ⟨clientLittle, clientNumber⟩ := client
  obtain ⟨serverLittle, serverNumber⟩ := server
  cases clientLittle <;> cases serverLittle <;> cases clientNumber <;> cases serverNumber <;> rfl

theorem commonFormat_comm (client server : Endpoint) :
    commonFormat client server = commonFormat server client := by
  unfold commonFormat
  rw [Bool.and_comm, Nat.min_comm, Bool.or_comm]

/-! ### Numbers that cross the link -/

/-- Every number of the sender is sent and received without a fault, all bytes that are sent are
read and no others, and an integer that both types can represent arrives as it is. -/
def Carries (undefined : UndefinedCast) (format : WireFormat) (sender receiver : Endpoint) : Prop :=
  ∀ x < 256 ^ sender.number.size, ∃ bytes,
    transportWriteNumber undefined sender.number (sender.transport format) x = .ok bytes ∧
    ∀ rest, ∃ y,
      transportReadNumber receiver.number (receiver.transport format) (bytes ++ rest) =
        .ok (y, rest) ∧
      ∀ value, sender.number.integerValue x = some value →
        (∃ z < 256 ^ receiver.number.size, receiver.number.integerValue z = some value) →
        receiver.number.integerValue y = some value

/-- The endpoints agree on a format, and numbers cross the link in both directions. -/
def NegotiatesRight (undefined : UndefinedCast) (client server : Endpoint) : Prop :=
  ∃ format, negotiate client server = some (client.transport format, server.transport format) ∧
    Carries undefined format client server ∧ Carries undefined format server client

/-- Integral types of one size; two floating point types of eight bytes; an integral type that is
not larger than a floating point type. -/
def Suited (first second : LuaNumber) : Prop :=
  match first.integral, second.integral with
  | true, true => first.size = second.size
  | false, false => first.size = 8 ∧ second.size = 8
  | true, false => first.size ≤ second.size
  | false, true => second.size ≤ first.size

variable {undefined : UndefinedCast} {format : WireFormat} {little other : Bool}
  {type wider : LuaNumber}

/-! ### Suited types -/

theorem size_mem_integerWidths (type : LuaNumber) : type.size ∈ integerWidths := by
  cases type <;> decide

/-- An integral number is cast to its own size and kept. -/
theorem castToInt_integral (hintegral : type.integral = true) {x : ℕ} (hx : x < 256 ^ type.size) :
    type.castToInt undefined type.size x = x := by
  cases type with
  | int32 => exact residue_signedValue hx
  | int64 => exact residue_signedValue hx
  | float32 => cases hintegral
  | float64 => cases hintegral

/-- A number is sent without a fault, and another one is received from exactly the bytes sent. -/
def Crosses (undefined : UndefinedCast) (format : WireFormat) (sender receiver : Endpoint)
    (x y : ℕ) : Prop :=
  ∃ bytes,
    transportWriteNumber undefined sender.number (sender.transport format) x = .ok bytes ∧
    ∀ rest, transportReadNumber receiver.number (receiver.transport format) (bytes ++ rest) =
      .ok (y, rest)

/-- Numbers of one integral type. -/
theorem crosses_integral (hformat : format.bytes = type.size ∧ format.intnum = true)
    (hintegral : type.integral = true) {x : ℕ} (hx : x < 256 ^ type.size) :
    Crosses undefined format ⟨little, type⟩ ⟨other, type⟩ x x := by
  obtain ⟨netLittle, bytes, intnum⟩ := format
  obtain ⟨rfl, rfl⟩ := hformat
  refine ⟨_, transportWriteNumber_integer _ _ rfl (size_mem_integerWidths type) x, fun rest ↦ ?_⟩
  change transportReadNumber type _
    (inMemory _ _ (type.castToInt undefined type.size x) ++ rest) = _
  rw [castToInt_integral hintegral hx]
  have hread := @transportReadNumber_native type
    (Endpoint.transport ⟨other, type⟩ ⟨netLittle, type.size, true⟩) hintegral.symm rfl x rest
  rw [Nat.mod_eq_of_lt hx] at hread
  exact hread

/-- Floating point numbers of eight bytes. -/
theorem crosses_float (hformat : format.bytes = type.size ∧ format.intnum = false)
    (hfloat : type.integral = false) (hsize : type.size = 8) {x : ℕ} (hx : x < 256 ^ type.size) :
    Crosses undefined format ⟨little, type⟩ ⟨other, type⟩ x x := by
  obtain ⟨netLittle, bytes, intnum⟩ := format
  obtain ⟨rfl, rfl⟩ := hformat
  refine ⟨inMemory netLittle type.size x, ?_, fun rest ↦ ?_⟩
  · have hwrite := @transportWriteNumber_float undefined type
      (Endpoint.transport ⟨little, type⟩ ⟨netLittle, type.size, false⟩) rfl x
    rw [if_neg (by omega)] at hwrite
    exact hwrite
  · have hread := @transportReadNumber_native type
      (Endpoint.transport ⟨other, type⟩ ⟨netLittle, type.size, false⟩) hfloat.symm rfl x rest
    rw [Nat.mod_eq_of_lt hx] at hread
    exact hread

/-- Integral numbers that are sent to floating point numbers. -/
theorem crosses_toFloat (hformat : format.bytes = type.size ∧ format.intnum = true)
    (hintegral : type.integral = true) (hfloat : wider.integral = false) {x : ℕ}
    (hx : x < 256 ^ type.size) :
    Crosses undefined format ⟨little, type⟩ ⟨other, wider⟩ x
      (wider.castFromInt (signedValue type.size x)) := by
  obtain ⟨netLittle, bytes, intnum⟩ := format
  obtain ⟨rfl, rfl⟩ := hformat
  refine ⟨_, transportWriteNumber_integer _ _ rfl (size_mem_integerWidths type) x, fun rest ↦ ?_⟩
  change transportReadNumber wider _
    (inMemory _ _ (type.castToInt undefined type.size x) ++ rest) = _
  rw [castToInt_integral hintegral hx]
  have hread := @transportReadNumber_integer wider
    (Endpoint.transport ⟨other, wider⟩ ⟨netLittle, type.size, true⟩)
    (by change true ≠ wider.integral; rw [hfloat]; decide) (size_mem_integerWidths type) x rest
  rw [show (Endpoint.transport ⟨other, wider⟩ ⟨netLittle, type.size, true⟩).lnumBytes =
    type.size from rfl, Nat.mod_eq_of_lt hx] at hread
  exact hread

/-- A cast to an integral type gives a number of this type. -/
theorem castToInt_lt (type : LuaNumber) (width x : ℕ) :
    type.castToInt undefined width x < 256 ^ width := by
  have hcast : ∀ format, castFloat undefined type format width x < 256 ^ width := by
    intro format
    have hundefined := Nat.mod_lt (undefined type width x) (Nat.pow_pos (n := width)
      (by decide : 0 < 256))
    unfold castFloat
    cases format.truncate x with
    | none => exact hundefined
    | some value =>
      dsimp only
      split_ifs
      · exact residue_lt ..
      · exact hundefined
  cases type with
  | int32 => exact residue_lt ..
  | int64 => exact residue_lt ..
  | float32 => exact hcast .binary32
  | float64 => exact hcast .binary64

/-- Floating point numbers that are sent to integral numbers. -/
theorem crosses_toIntegral (hformat : format.bytes = type.size ∧ format.intnum = true)
    (hintegral : type.integral = true) (x : ℕ) :
    Crosses undefined format ⟨little, wider⟩ ⟨other, type⟩ x
      (wider.castToInt undefined type.size x) := by
  obtain ⟨netLittle, bytes, intnum⟩ := format
  obtain ⟨rfl, rfl⟩ := hformat
  refine ⟨_, transportWriteNumber_integer _ _ rfl (size_mem_integerWidths type) x, fun rest ↦ ?_⟩
  have hread := @transportReadNumber_native type
    (Endpoint.transport ⟨other, type⟩ ⟨netLittle, type.size, true⟩) hintegral.symm rfl
    (wider.castToInt undefined type.size x) rest
  rw [Nat.mod_eq_of_lt (castToInt_lt wider type.size x)] at hread
  exact hread

/-- The value of an integral number. -/
theorem integerValue_integral (hintegral : type.integral = true) (x : ℕ) :
    type.integerValue x = some (signedValue type.size x) := by
  cases type with
  | int32 => rfl
  | int64 => rfl
  | float32 => cases hintegral
  | float64 => cases hintegral

/-- The values of an integral type are in its range. -/
theorem bmod_of_integerValue (hintegral : type.integral = true) {x : ℕ} {value : ℤ}
    (hvalue : type.integerValue x = some value) :
    signedValue type.size x = value ∧ value.bmod (256 ^ type.size) = value := by
  obtain rfl := Option.some.inj ((integerValue_integral hintegral x).symm.trans hvalue)
  exact ⟨rfl, bmod_signedValue ..⟩

theorem bmod_eight {value : ℤ} (hrange : value.bmod (256 ^ type.size) = value) :
    value.bmod (256 ^ 8) = value := by
  have hsize : type.size = 8 ∨ type.size = 4 := by cases type <;> simp [LuaNumber.size]
  obtain height | hfour := hsize
  · rw [height] at hrange
    exact hrange
  · have hlow := Int.le_bmod (x := value) (m := 256 ^ 4) (by decide)
    have hhigh := Int.bmod_lt (x := value) (m := 256 ^ 4) (by decide)
    rw [hfour] at hrange
    rw [hrange] at hlow hhigh
    exact Int.bmod_eq_of_le (by omega) (by omega)

/-- An integer that a floating point type can represent arrives there as it is. -/
theorem integerValue_toFloat (hintegral : type.integral = true) (hfloat : wider.integral = false)
    {x z : ℕ} {value : ℤ} (hvalue : type.integerValue x = some value)
    (hz : wider.integerValue z = some value) :
    wider.integerValue (wider.castFromInt (signedValue type.size x)) = some value := by
  obtain ⟨rfl, hrange⟩ := bmod_of_integerValue hintegral hvalue
  exact integerValue_castFromInt _ (bmod_eight hrange) hfloat hz

/-- Casting a floating point number, which is an integer in the range of the integral type. -/
theorem castToInt_float (hfloat : type.integral = false) {width x : ℕ} {value : ℤ}
    (hvalue : type.integerValue x = some value) (hrange : value.bmod (256 ^ width) = value) :
    type.castToInt undefined width x = residue width value := by
  have hcast : ∀ {format : FloatFormat}, format.integerValue x = some value →
      castFloat undefined type format width x = residue width value := by
    intro format hinteger
    unfold castFloat
    rw [FloatFormat.truncate_of_integerValue hinteger]
    exact if_pos hrange
  cases type with
  | int32 => cases hfloat
  | int64 => cases hfloat
  | float32 => exact hcast hvalue
  | float64 => exact hcast hvalue

/-- An integer that an integral type can represent arrives there as it is. -/
theorem integerValue_toIntegral (hintegral : type.integral = true) (hfloat : wider.integral = false)
    {x z : ℕ} {value : ℤ} (hvalue : wider.integerValue x = some value)
    (hz : type.integerValue z = some value) :
    type.integerValue (wider.castToInt undefined type.size x) = some value := by
  obtain ⟨-, hrange⟩ := bmod_of_integerValue hintegral hz
  rw [castToInt_float hfloat hvalue hrange, integerValue_integral hintegral, signedValue_residue,
    hrange]

/-- A type is given by its kind and its size. -/
theorem eq_of_integral_of_size (hintegral : type.integral = wider.integral)
    (hsize : type.size = wider.size) : type = wider := by
  cases type <;> cases wider <;> simp [LuaNumber.integral, LuaNumber.size] at hintegral hsize ⊢

/-- The number that is received, for types that are suited. -/
def numberReceived (undefined : UndefinedCast) (sender receiver : LuaNumber) (x : ℕ) : ℕ :=
  if sender = receiver then x
  else if sender.integral then receiver.castFromInt (signedValue sender.size x)
  else sender.castToInt undefined receiver.size x

theorem Suited.symm (hsuited : Suited type wider) : Suited wider type := by
  unfold Suited at hsuited ⊢
  cases htype : type.integral <;> cases hwider : wider.integral <;>
    rw [htype, hwider] at hsuited <;> dsimp only at hsuited ⊢
  · exact hsuited.symm
  · exact hsuited
  · exact hsuited
  · exact hsuited.symm

/-- Numbers of suited types cross the link. -/
theorem crosses_of_suited (undefined : UndefinedCast) (sender receiver : Endpoint)
    (hsuited : Suited sender.number receiver.number) {x : ℕ} (hx : x < 256 ^ sender.number.size) :
    Crosses undefined (commonFormat sender receiver) sender receiver x
      (numberReceived undefined sender.number receiver.number x) := by
  obtain ⟨little, type⟩ := sender
  obtain ⟨other, wider⟩ := receiver
  have hbytes : (commonFormat ⟨little, type⟩ ⟨other, wider⟩).bytes = min type.size wider.size := rfl
  have hnet : (commonFormat ⟨little, type⟩ ⟨other, wider⟩).intnum =
      (type.integral || wider.integral) := rfl
  dsimp only at hsuited hx ⊢
  unfold Suited at hsuited
  unfold numberReceived
  cases htype : type.integral <;> cases hwider : wider.integral <;>
    rw [htype, hwider] at hsuited hnet <;> dsimp only at hsuited
  · obtain rfl := eq_of_integral_of_size (htype.trans hwider.symm)
      (hsuited.1.trans hsuited.2.symm)
    rw [if_pos rfl]
    exact crosses_float ⟨hbytes.trans (Nat.min_self _), hnet⟩ htype hsuited.1 hx
  · have hdiffer : type ≠ wider := fun hsame ↦ by rw [hsame, hwider] at htype; cases htype
    rw [if_neg hdiffer, if_neg Bool.false_ne_true]
    exact crosses_toIntegral ⟨hbytes.trans (Nat.min_eq_right hsuited), hnet⟩ hwider x
  · have hdiffer : type ≠ wider := fun hsame ↦ by rw [hsame, hwider] at htype; cases htype
    rw [if_neg hdiffer, if_pos rfl]
    exact crosses_toFloat ⟨hbytes.trans (Nat.min_eq_left hsuited), hnet⟩ htype hwider hx
  · obtain rfl := eq_of_integral_of_size (htype.trans hwider.symm) hsuited
    rw [if_pos rfl]
    exact crosses_integral ⟨hbytes.trans (Nat.min_self _), hnet⟩ htype hx

/-- An integer that both types can represent is received as it is. -/
theorem integerValue_numberReceived (hsuited : Suited type wider) {x z : ℕ} {value : ℤ}
    (hvalue : type.integerValue x = some value) (hz : wider.integerValue z = some value) :
    wider.integerValue (numberReceived undefined type wider x) = some value := by
  unfold numberReceived
  split_ifs with hsame hintegral
  · rw [← hsame]
    exact hvalue
  · have hfloat : wider.integral = false := by
      by_contra hother
      rw [Bool.not_eq_false] at hother
      unfold Suited at hsuited
      rw [hintegral, hother] at hsuited
      exact hsame (eq_of_integral_of_size (hintegral.trans hother.symm) hsuited)
    exact integerValue_toFloat hintegral hfloat hvalue hz
  · rw [Bool.not_eq_true] at hintegral
    have hother : wider.integral = true := by
      by_contra hfloat
      rw [Bool.not_eq_true] at hfloat
      unfold Suited at hsuited
      rw [hintegral, hfloat] at hsuited
      exact hsame (eq_of_integral_of_size (hintegral.trans hfloat.symm)
        (hsuited.1.trans hsuited.2.symm))
    exact integerValue_toIntegral hother hintegral hvalue hz

theorem carries_of_suited (undefined : UndefinedCast) (sender receiver : Endpoint)
    (hsuited : Suited sender.number receiver.number) :
    Carries undefined (commonFormat sender receiver) sender receiver := by
  intro x hx
  obtain ⟨bytes, hwrite, hread⟩ := crosses_of_suited undefined sender receiver hsuited hx
  refine ⟨bytes, hwrite, fun rest ↦ ⟨_, hread rest, ?_⟩⟩
  rintro value hvalue ⟨z, -, hz⟩
  exact integerValue_numberReceived hsuited hvalue hz

/-! ### Types that are not suited -/

/-- A floating point number of four bytes is not sent without a fault in a floating point format. -/
theorem not_carries_write (hnet : format.intnum = false) (hsize : type.size < 8) :
    ¬ Carries undefined format ⟨little, type⟩ ⟨other, wider⟩ := by
  intro hcarries
  obtain ⟨bytes, hwrite, -⟩ := hcarries 0 (Nat.pow_pos (by decide))
  have hfault := @transportWriteNumber_float undefined type
    (Endpoint.transport ⟨little, type⟩ format) hnet 0
  rw [if_pos hsize] at hfault
  exact absurd (hfault.symm.trans hwrite) (by simp)

/-- A number that is larger than those of the format is not received by an endpoint of the same
kind. -/
theorem not_carries_read (hnet : format.intnum = wider.integral)
    (hsize : format.bytes < wider.size) :
    ¬ Carries undefined format ⟨little, type⟩ ⟨other, wider⟩ := by
  intro hcarries
  obtain ⟨bytes, -, hread⟩ := hcarries 0 (Nat.pow_pos (by decide))
  obtain ⟨y, hreads, -⟩ := hread (List.replicate format.bytes 0)
  have hfault := @transportReadNumber_overAccess wider
    (Endpoint.transport ⟨other, wider⟩ format) hnet hsize
    (bytes ++ List.replicate format.bytes 0) (by
      rw [List.length_append, List.length_replicate]
      exact Nat.le_add_left ..)
  exact absurd (hfault.symm.trans hreads) (by simp)

/-- Types that are not suited have a direction in which numbers do not cross. -/
theorem suited_of_carries (hformat : format.bytes = min type.size wider.size ∧
      format.intnum = (type.integral || wider.integral))
    (hforth : Carries undefined format ⟨little, type⟩ ⟨other, wider⟩)
    (hback : Carries undefined format ⟨other, wider⟩ ⟨little, type⟩) : Suited type wider := by
  obtain ⟨hbytes, hnet⟩ := hformat
  have hsizes : ∀ number : LuaNumber, ¬ number.size < 8 → number.size = 8 := by
    intro number hsize
    cases number <;> simp [LuaNumber.size] at hsize ⊢
  unfold Suited
  cases htype : type.integral <;> cases hwider : wider.integral <;>
    rw [htype, hwider] at hnet <;> dsimp only
  · exact ⟨hsizes _ fun hsmall ↦ not_carries_write hnet hsmall hforth,
      hsizes _ fun hsmall ↦ not_carries_write hnet hsmall hback⟩
  · by_contra hlarger
    exact not_carries_read (hnet.trans hwider.symm) (by omega) hforth
  · by_contra hlarger
    exact not_carries_read (hnet.trans htype.symm) (by omega) hback
  · obtain hless | hsame | hmore := Nat.lt_trichotomy type.size wider.size
    · exact absurd hforth (not_carries_read (hnet.trans hwider.symm) (by omega))
    · exact hsame
    · exact absurd hback (not_carries_read (hnet.trans htype.symm) (by omega))

/-- Numbers cross the link in both directions exactly for suited types. -/
theorem carries_iff (undefined : UndefinedCast) (first second : Endpoint) :
    (Carries undefined (commonFormat first second) first second ∧
        Carries undefined (commonFormat first second) second first) ↔
      Suited first.number second.number := by
  constructor
  · rintro ⟨hforth, hback⟩
    exact suited_of_carries ⟨rfl, rfl⟩ hforth hback
  · intro hsuited
    have hback := carries_of_suited undefined second first hsuited.symm
    rw [commonFormat_comm] at hback
    exact ⟨carries_of_suited undefined first second hsuited, hback⟩

/-- A format is known by the transport of an endpoint. -/
theorem transport_injective (endpoint : Endpoint) : Function.Injective endpoint.transport := by
  intro first second hsame
  obtain ⟨little, bytes, intnum⟩ := first
  obtain ⟨other, count, kind⟩ := second
  simp only [Endpoint.transport, Transport.mk.injEq, true_and] at hsame
  obtain ⟨rfl, rfl, rfl⟩ := hsame
  rfl

/-- For all pairs of endpoints, and whatever C leaves undefined: they agree on one format, and
numbers cross the link right in both directions, exactly if their types are suited. -/
theorem negotiatesRight_iff (undefined : UndefinedCast) (client server : Endpoint) :
    (∃ format, negotiate client server =
        some (client.transport format, server.transport format)) ∧
      (NegotiatesRight undefined client server ↔ Suited client.number server.number) := by
  refine ⟨⟨_, negotiate_eq client server⟩, ?_⟩
  rw [← carries_iff undefined]
  constructor
  · rintro ⟨format, hagree, hcarries⟩
    have hsame := Option.some.inj ((negotiate_eq client server).symm.trans hagree)
    obtain rfl := transport_injective client (congrArg Prod.fst hsame)
    exact hcarries
  · exact fun hcarries ↦ ⟨_, negotiate_eq client server, hcarries⟩

/-- An integer of four bytes is sent to an endpoint with integers of eight, which reads past its
buffer. -/
theorem not_negotiatesRight_int32_int64 :
    ¬ NegotiatesRight (fun _ _ _ ↦ 0) ⟨true, .int32⟩ ⟨true, .int64⟩ := by
  rintro ⟨format, hagree, hcarries, -⟩
  have hsame : some ((⟨true, .int32⟩ : Endpoint).transport ⟨true, 4, true⟩,
      (⟨true, .int64⟩ : Endpoint).transport ⟨true, 4, true⟩) =
        some ((⟨true, .int32⟩ : Endpoint).transport format,
          (⟨true, .int64⟩ : Endpoint).transport format) := hagree
  obtain rfl := transport_injective _ (congrArg Prod.fst (Option.some.inj hsame))
  exact not_carries_read rfl (by decide) hcarries

end Elua.LuaRpc
