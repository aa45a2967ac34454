import Elua.Foundation.CyclicRedundancy
import Elua.Foundation.Loop
import Elua.Foundation.Overwrite

/-!
# The XMODEM receiver

`xmodem_receive` with `xmodem_flush` and `xmodem_get_record`. What `xmodem_in_func` gives is a list:
each call takes the next entry, which is a byte or a timeout, and behind the end of the list there
is silence.

`recordIsGood_iff` says which records the receiver accepts. Its check is kept in a word of 32 bits,
of which the lower half is the cyclic redundancy check (`setWidth_checksum`). -/

set_option autoImplicit false
set_option relaxedAutoImplicit false

namespace Elua.Xmodem

open Foundation

/-! ### The code -/

/-- `XM_SOH`: a record of 128 bytes. -/
def xmSoh : UInt8 := 0x01

/-- `XM_STX`: a record of 1024 bytes. -/
def xmStx : UInt8 := 0x02

/-- `XM_EOT`. -/
def xmEot : UInt8 := 0x04

/-- `XM_ACK`. -/
def xmAck : UInt8 := 0x06

/-- `XM_NAK`. -/
def xmNak : UInt8 := 0x15

/-- `XM_CAN`. -/
def xmCan : UInt8 := 0x18

/-- The character `C`, which asks for a transmission with cyclic redundancy checks. -/
def startCharacter : UInt8 := 0x43

/-- `XMODEM_INITIAL_BUFFER_SIZE`. -/
def initialBufferSize : ℕ := 4096

/-- `XMODEM_INCREMENT_AMMOUNT`. -/
def incrementAmount : ℕ := 4096

/-- `XMODEM_RETRY_LIMIT`. -/
def retryLimit : ℕ := 20

/-- `XMODEM_ERROR_REMOTECANCEL`. -/
def errorRemoteCancel : ℤ := -1

/-- `XMODEM_ERROR_RETRYEXCEED`. -/
def errorRetryExceed : ℤ := -3

/-- `XMODEM_ERROR_OUTOFMEM`. -/
def errorOutOfMem : ℤ := -4

/-- What the calls of `xmodem_in_func` give. -/
abbrev Line := List (Option UInt8)

/-- `xmodem_in_func`. -/
def xmodemIn : Line → Option UInt8 × Line
  | [] => (none, [])
  | event :: line => (event, line)

/-- The loop of `xmodem_flush`: reads up to the next timeout. -/
def xmodemFlush : Line → Line
  | [] => []
  | none :: line => line
  | some _ :: line => xmodemFlush line

/-- Reads a byte of a record: at first with a timeout of zero, and then with `XMODEM_TIMEOUT`. -/
def recordByte (line : Line) : Option UInt8 × Line :=
  match xmodemIn line with
  | (some byte, rest) => (some byte, rest)
  | (none, rest) => xmodemIn rest

/-- Reads the bytes of a record, unless the time is over. -/
def recordBytes : ℕ → Line → Option (List UInt8) × Line
  | 0, line => (some [], line)
  | count + 1, line =>
    match recordByte line with
    | (none, rest) => (none, rest)
    | (some byte, rest) =>
      let behind := recordBytes count rest
      (behind.1.map (byte :: ·), behind.2)

/-- Adds a bit of the data to the check. -/
def checksumBit (chk : BitVec 32) : BitVec 32 :=
  if chk &&& 0x8000 ≠ 0 then chk <<< 1 ^^^ 0x1021 else chk <<< 1

/-- Adds a byte to the check. -/
def checksumByte (chk : BitVec 32) (byte : UInt8) : BitVec 32 :=
  checksumBit^[8] (chk ^^^ byte.toBitVec.setWidth 32 <<< 8)

/-- The check of some data. -/
def checksum (data : List UInt8) : BitVec 32 := data.foldl checksumByte 0

/-- The tests of `xmodem_get_record`. -/
def recordIsGood (blocknum : UInt8) (packSz : ℕ) (record : List UInt8) : Bool :=
  let chk := checksum ((record.drop 2).take packSz) &&& 0xFFFF
  record.getD 0 0 = blocknum && record.getD 1 0 = ~~~blocknum &&
    (record.getD (2 + packSz) 0).toNat = (chk >>> 8 &&& 0xFF).toNat &&
    (record.getD (3 + packSz) 0).toNat = (chk &&& 0xFF).toNat

/-- The local variables of `xmodem_receive`, the memory that `dest` points to, what is sent, and all
records that have been read. A store behind the end of the memory is an overrun. -/
structure Reception where
  line : Line
  sent : List UInt8
  records : List (List UInt8)
  starting : Bool
  packnum : UInt8
  retries : ℕ
  limit : ℕ
  size : ℕ
  dest : List UInt8
  overrun : Bool
  deriving DecidableEq

/-- `realloc`: it may fail, and otherwise gives memory of the size that holds what the old one held.
No object is larger than `PTRDIFF_MAX`. A run asks for every size once at most, so a function covers
every order of successes and failures. -/
structure Realloc where
  call : List UInt8 → ℕ → Option (List UInt8)
  length_eq : ∀ {old new size}, call old size = some new → new.length = size
  keeps : ∀ {old new size}, call old size = some new → old.take size <+: new
  bounded : ∀ {old new size}, call old size = some new → size < 2 ^ 31

/-- Copies a record to its place. -/
def Reception.consume (state : Reception) (packSz : ℕ) (data : List UInt8) : Reception :=
  let store := if state.dest.length < state.size + packSz then { state with overrun := true }
    else { state with dest := overwrite state.dest state.size data }
  { store with size := (state.size + packSz) % 2 ^ 32, sent := state.sent ++ [xmAck] }

/-- Leaves the loop after the receiver has answered, and flushes the line. -/
def Reception.leave (state : Reception) (value : ℤ) (answer : List UInt8) :
    Reception ⊕ (ℤ × Reception) :=
  .inr (value, { state with line := xmodemFlush state.line, sent := state.sent ++ answer })

/-- Makes room for a record that has been accepted, and consumes it. -/
def Reception.accept (realloc : Realloc) (state : Reception) (packSz : ℕ) (data : List UInt8) :
    Reception ⊕ (ℤ × Reception) :=
  if state.limit < (state.size + packSz) % 2 ^ 32 then
    let limit := (state.limit + incrementAmount) % 2 ^ 32
    match realloc.call state.dest limit with
    | none => Reception.leave { state with limit := limit } errorOutOfMem [xmCan, xmCan, xmCan]
    | some dest => .inl (Reception.consume { state with limit := limit, dest := dest } packSz data)
  else .inl (state.consume packSz data)

/-- Reads a record, and accepts it or asks for it again. -/
def Reception.packet (realloc : Realloc) (state : Reception) (packSz : ℕ) :
    Reception ⊕ (ℤ × Reception) :=
  match recordBytes (packSz + 4) state.line with
  | (none, line) =>
    .inl { state with starting := false, line := line, sent := state.sent ++ [xmNak] }
  | (some record, line) =>
    let state := { state with starting := false, records := state.records ++ [record] }
    if recordIsGood state.packnum packSz record then
      Reception.accept realloc
        { state with
          line := xmodemFlush line
          retries := retryLimit
          packnum := state.packnum + 1 }
        packSz ((record.drop 2).take packSz)
    else .inl { state with line := line, sent := state.sent ++ [xmNak] }

/-- The cases of the character that has been read. -/
def Reception.header (realloc : Realloc) (state : Reception) (ch : UInt8) :
    Reception ⊕ (ℤ × Reception) :=
  if ch = xmEot then state.leave (Int.bmod state.size (2 ^ 32)) [xmAck]
  else if ch = xmCan then state.leave errorRemoteCancel [xmAck]
  else if ch = xmSoh then state.packet realloc 128
  else if ch = xmStx then state.packet realloc 1024
  else .inl state

/-- A pass of the loop of `xmodem_receive`. -/
def receiveBody (realloc : Realloc) (state : Reception) :
    Option (Reception ⊕ (ℤ × Reception)) :=
  if state.retries = 0 then some (state.leave errorRetryExceed [xmCan, xmCan, xmCan])
  else
    let event := xmodemIn state.line
    let state := { state with
      retries := state.retries - 1
      sent := state.sent ++ if state.starting then [startCharacter] else []
      line := event.2 }
    match event.1 with
    | none => some (.inl state)
    | some ch => some (state.header realloc ch)

/-- The state at the start of `xmodem_receive`. -/
def Reception.start (dest : List UInt8) (line : Line) : Reception where
  line := line
  sent := []
  records := []
  starting := true
  packnum := 1
  retries := retryLimit
  limit := initialBufferSize
  size := 0
  dest := dest
  overrun := false

/-- `xmodem_receive`: the value it returns, and the state it leaves. -/
def xmodemReceive (realloc : Realloc) (fuel : ℕ) (dest : List UInt8) (line : Line) :
    Option (ℤ × Reception) :=
  runLoop (receiveBody realloc) fuel (.start dest line)

end Elua.Xmodem
