import Elua.Buf.CharBuffer
import Elua.Foundation.Channel
import Elua.Sermux.Protocol

/-!
# The board's end of the serial multiplexer

The part of `common_uart.c` built with `BUILD_SERMUX`. `SermuxBoard` holds its static variables.
`platformUartSend` is the transmit side: the bytes it returns go out on the physical UART in order.
`cmnRxHandler` is the receive side for a byte of the physical UART: it returns what it did with the
byte, in order, as a list of `RxEffect`s. `storeEffects` carries the calls of `buf_write` among
these effects out on the buffers of the virtual UARTs.
-/

set_option autoImplicit false
set_option relaxedAutoImplicit false

namespace Elua.Sermux

open Buf Foundation

/-- The static variables of the multiplexer on the board; `none` stands for `-1`. -/
structure SermuxBoard where
  uartServiceIdIn : Option ℕ
  uartServiceIdOut : Option ℕ
  uartGotEsc : Bool
  uartLastSent : Option ℕ
  deriving DecidableEq, Repr

/-- The static variables as the loader leaves them. -/
def SermuxBoard.initial : SermuxBoard := ⟨none, none, false, none⟩

/-- `platform_uart_exists`, its test for a virtual UART. -/
def isVirtualUart (sermuxNumVuart id : ℕ) : Prop :=
  sermuxServiceIdFirst ≤ id ∧ id < sermuxServiceIdFirst + sermuxNumVuart

instance (sermuxNumVuart id : ℕ) : Decidable (isVirtualUart sermuxNumVuart id) :=
  inferInstanceAs (Decidable (_ ∧ _))

/-- `platform_uart_send` for a virtual UART: the new state, and the bytes put on the physical UART.
For any other UART the multiplexer does nothing. -/
def platformUartSend (sermuxNumVuart : ℕ) (board : SermuxBoard) (id : ℕ) (data : UInt8) :
    SermuxBoard × List UInt8 :=
  if isVirtualUart sermuxNumVuart id then
    let announce := if some id ≠ board.uartServiceIdOut then [UInt8.ofNat id] else []
    if needsEscape data then
      ({ board with
          uartServiceIdOut := some id
          uartLastSent := some (sermuxEscMask ||| (escapedByte data).toNat) },
        announce ++ [sermuxEscapeChar, escapedByte data])
    else
      ({ board with uartServiceIdOut := some id, uartLastSent := some data.toNat },
        announce ++ [data])
  else (board, [])

/-- What the receive handler does with one byte: it switches to a service, notes an escape
character, transmits a byte, or stores a byte for a service. -/
inductive RxEffect
  | serviceSelected (id : ℕ)
  | escapeSeen
  | transmitted (byte : UInt8)
  | stored (service : ℕ) (data : UInt8)
  deriving DecidableEq, Repr

/-- The bytes the board sends to answer a request for the service id. -/
def retransmission (board : SermuxBoard) (lastSent : ℕ) : List UInt8 :=
  [(board.uartServiceIdOut.map UInt8.ofNat).getD sermuxForceSidChar] ++
    (if lastSent &&& sermuxEscMask ≠ 0 then [sermuxEscapeChar] else []) ++
    [UInt8.ofNat (lastSent &&& 0xFF)]

/-- The last branch of `cmn_rx_handler`: a data byte, unescaped if an escape came before it. -/
def receiveData (board : SermuxBoard) (data : UInt8) : SermuxBoard × List RxEffect :=
  let payload := if board.uartGotEsc then data ^^^ sermuxEscapeXorMask else data
  ({ board with uartGotEsc := false },
    match board.uartServiceIdIn with
    | none => [.transmitted sermuxForceSidChar]
    | some service => [.stored service payload])

/-- `cmn_rx_handler` for a byte of the physical UART of the multiplexer. -/
def cmnRxHandler (sermuxNumVuart : ℕ) (board : SermuxBoard) (data : UInt8) :
    SermuxBoard × List RxEffect :=
  if data ≠ sermuxEscapeChar then
    if isVirtualUart sermuxNumVuart data.toNat then
      ({ board with uartServiceIdIn := some data.toNat }, [.serviceSelected data.toNat])
    else if data = sermuxForceSidChar then
      match board.uartLastSent with
      | some lastSent =>
        ({ board with uartLastSent := none },
          (retransmission board lastSent).map .transmitted)
      | none => receiveData board data
    else receiveData board data
  else ({ board with uartGotEsc := true }, [.escapeSeen])

/-! ### What the handler does with each kind of byte -/

/-- A service id selects the service. -/
theorem cmnRxHandler_service {sermuxNumVuart id : ℕ} (hid : isVirtualUart sermuxNumVuart id)
    (hbyte : id < 256) (hne : UInt8.ofNat id ≠ sermuxEscapeChar) (board : SermuxBoard) :
    cmnRxHandler sermuxNumVuart board (UInt8.ofNat id) =
      ({ board with uartServiceIdIn := some id }, [.serviceSelected id]) := by
  rw [cmnRxHandler, if_pos hne, toNat_service hbyte, if_pos hid]

/-- The escape character is noted. -/
theorem cmnRxHandler_escape (sermuxNumVuart : ℕ) (board : SermuxBoard) :
    cmnRxHandler sermuxNumVuart board sermuxEscapeChar =
      ({ board with uartGotEsc := true }, [.escapeSeen]) := by
  rw [cmnRxHandler, if_neg (by simp)]

/-- Any other byte, the force-service-id character apart, is data. -/
theorem cmnRxHandler_data {sermuxNumVuart : ℕ} {data : UInt8} (hescape : data ≠ sermuxEscapeChar)
    (hforce : data ≠ sermuxForceSidChar) (hservice : ¬ isVirtualUart sermuxNumVuart data.toNat)
    (board : SermuxBoard) :
    cmnRxHandler sermuxNumVuart board data = receiveData board data := by
  rw [cmnRxHandler, if_pos hescape, if_neg hservice, if_neg hforce]

/-! ### The buffers of the virtual UARTs -/

/-- `bufh_check_resnum` for a virtual UART: the index of its buffer descriptor, behind those of the
physical UARTs. -/
def bufhCheckResnum (numUart resnum : ℕ) : ℕ := resnum - sermuxServiceIdFirst + numUart

/-- Carries the buffer writes among the effects of the handler out on the table of descriptors. -/
def storeEffect (numUart : ℕ) (table : ℕ → BufDesc) : RxEffect → ℕ → BufDesc
  | .stored service data => Function.update table (bufhCheckResnum numUart service)
      (bufWrite (table (bufhCheckResnum numUart service)) [data]).2
  | _ => table

/-- Carries a list of effects out on the table of descriptors, the first effect first. -/
def storeEffects (numUart : ℕ) (table : ℕ → BufDesc) (effects : List RxEffect) : ℕ → BufDesc :=
  effects.foldl (storeEffect numUart) table

/-- The calls of `buf_write` among a list of effects: the services and bytes, in order. -/
def storedItems (effects : List RxEffect) : List (ℕ × UInt8) :=
  effects.filterMap fun
    | .stored service data => some (service, data)
    | _ => none

@[simp] theorem storedItems_append (first second : List RxEffect) :
    storedItems (first ++ second) = storedItems first ++ storedItems second :=
  List.filterMap_append

/-- Distinct virtual UARTs have distinct descriptors. -/
theorem bufhCheckResnum_ne {service other : ℕ} (numUart : ℕ)
    (hservice : sermuxServiceIdFirst ≤ service) (hother : sermuxServiceIdFirst ≤ other)
    (hne : other ≠ service) :
    bufhCheckResnum numUart service ≠ bufhCheckResnum numUart other := by
  simp only [bufhCheckResnum]
  omega

/-- Given room, the stored bytes of a service are appended to its buffer in order, whatever the
handler stores for other services in between. -/
theorem queued_storeEffects (numUart : ℕ) {service start : ℕ}
    (hservice : sermuxServiceIdFirst ≤ service) (effects : List RxEffect)
    (hothers : ∀ item ∈ storedItems effects, sermuxServiceIdFirst ≤ item.1) (table : ℕ → BufDesc)
    (hring : RingAt (table (bufhCheckResnum numUart service)) start)
    (hdsize : (table (bufhCheckResnum numUart service)).logdsize = 0)
    (hroom : (table (bufhCheckResnum numUart service)).count +
      (channel service (storedItems effects)).length ≤
        bufRealsize (table (bufhCheckResnum numUart service))) :
    queued (storeEffects numUart table effects (bufhCheckResnum numUart service)) start =
      queued (table (bufhCheckResnum numUart service)) start ++
        (channel service (storedItems effects)).map fun data ↦ [data] := by
  induction effects generalizing table with
  | nil => simp [storeEffects, storedItems]
  | cons effect effects ih =>
    have hrest : ∀ item ∈ storedItems effects, sermuxServiceIdFirst ≤ item.1 := fun item hitem ↦
      hothers item (by rw [← List.singleton_append, storedItems_append]; simp [hitem])
    cases effect with
    | serviceSelected id => exact ih hrest table hring hdsize hroom
    | escapeSeen => exact ih hrest table hring hdsize hroom
    | transmitted byte => exact ih hrest table hring hdsize hroom
    | stored target data =>
      have htarget : sermuxServiceIdFirst ≤ target := hothers (target, data) (by simp [storedItems])
      have hitems : storedItems (.stored target data :: effects) =
          (target, data) :: storedItems effects := rfl
      rw [hitems, channel_cons] at hroom ⊢
      by_cases hsame : target = service
      · -- the byte is for this service: its write finds room
        subst hsame
        simp only [if_true, List.singleton_append, List.length_cons, List.map_cons] at hroom ⊢
        have hdata : [data].length =
            bufRealdsize (table (bufhCheckResnum numUart target)) := by
          simp [bufRealdsize, hdsize]
        have hfits : (table (bufhCheckResnum numUart target)).count <
            bufRealsize (table (bufhCheckResnum numUart target)) := by omega
        have hwritten : storeEffect numUart table (.stored target data)
            (bufhCheckResnum numUart target) =
              written (table (bufhCheckResnum numUart target)) [data] := by
          rw [storeEffect, Function.update_self, bufWrite_eq hring hdata]
        have hcount := written_count hring hfits [data]
        have hih := ih hrest (storeEffect numUart table (.stored target data))
          (hwritten ▸ bufWrite_ringAt hring hfits [data]) (by rw [hwritten]; exact hdsize)
          (by rw [hwritten, hcount]; change _ ≤ bufRealsize (table _); omega)
        rw [storeEffects, List.foldl_cons, ← storeEffects, hih, hwritten,
          queued_bufWrite hring hfits hdata, List.append_assoc, List.singleton_append]
      · -- the byte is for another service: this buffer is left alone
        have hother : storeEffect numUart table (.stored target data)
            (bufhCheckResnum numUart service) = table (bufhCheckResnum numUart service) := by
          rw [storeEffect, Function.update_of_ne (bufhCheckResnum_ne numUart hservice htarget
            hsame)]
        simp only [hsame, if_false, List.nil_append] at hroom ⊢
        have hih := ih hrest (storeEffect numUart table (.stored target data)) (hother ▸ hring)
          (by rw [hother]; exact hdsize) (by rw [hother]; exact hroom)
        rw [storeEffects, List.foldl_cons, ← storeEffects, hih, hother]

end Elua.Sermux
