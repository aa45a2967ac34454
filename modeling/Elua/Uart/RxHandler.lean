import Elua.Buf.CharBuffer
import Elua.Foundation.TransitionSystem
import Elua.Sermux.Protocol
import Mathlib.Logic.Function.Basic

/-!
# The receive handler of the buffered UARTs

The part of `common_uart.c` that installs `cmn_uart_rx_inthandler` as the C handler of
`INT_UART_RX`, and the handler slot of `elua_int.c`. `RxState` holds the slot, the handler that was
in it before, the buffers of the UARTs and their receive interrupts. Other components may install
handlers of their own; each of them keeps what was in the slot and chains to it.

`rxInterrupt` is what the chain of handlers does when a UART has received bytes.
-/

set_option autoImplicit false
set_option relaxedAutoImplicit false

namespace Elua.Uart

open Buf Foundation Sermux

/-! ### The state -/

/-- A C interrupt handler: `cmn_uart_rx_inthandler`, or one of another component. -/
inductive CHandler
  | cmnUartRx
  | other (index : ℕ)
  deriving DecidableEq, Repr

/-- `CDC_UART_ID`. -/
def cdcUartId : ℕ := 0xB0

/-- What a build fixes: the number of physical UARTs, whose ids are below that of the CDC UART, the
number of virtual ones, and the physical UART of the multiplexer, which is `0xFFFF` without one. -/
structure UartConfig where
  numUart : ℕ
  numVuart : ℕ
  sermuxPhysId : ℕ
  numUart_le : numUart ≤ cdcUartId

/-- The handler slot and what stands behind it. -/
structure RxState where
  /-- The entry of `elua_int_c_handler_list` for `INT_UART_RX`. -/
  cHandler : Option CHandler
  prevUartRxHandler : Option CHandler
  /-- The handlers that other components found in the slot. -/
  saved : ℕ → Option CHandler
  descs : ℕ → BufDesc
  rxEnabled : ℕ → Bool
  sermux : Bool

/-- The state at the start. -/
def RxState.initial : RxState :=
  ⟨none, none, fun _ ↦ none, fun _ ↦ .zero, fun _ ↦ false, false⟩

/-- `bufh_check_resnum` for UARTs: physical ones first, then virtual ones, then the CDC UART. -/
def bufhCheckUart (config : UartConfig) (resnum : ℕ) : ℕ :=
  if resnum = cdcUartId then resnum - cdcUartId + config.numUart + config.numVuart
  else if sermuxServiceIdFirst ≤ resnum then resnum - sermuxServiceIdFirst + config.numUart
  else resnum

/-- `buf_is_enabled` for a UART. -/
def RxState.buffered (config : UartConfig) (state : RxState) (id : ℕ) : Bool :=
  bufIsEnabled (state.descs (bufhCheckUart config id))

/-! ### The functions of the source -/

/-- `elua_int_set_c_handler` for `INT_UART_RX`: the old handler and the new state. -/
def eluaIntSetCHandler (state : RxState) (phandler : Option CHandler) :
    Option CHandler × RxState :=
  (state.cHandler, { state with cHandler := phandler })

/-- Puts `cmn_uart_rx_inthandler` in front of the installed handler, unless it is installed. -/
def installRxHandler (state : RxState) : RxState :=
  if state.cHandler ≠ some .cmnUartRx then
    let result := eluaIntSetCHandler state (some .cmnUartRx)
    { result.2 with prevUartRxHandler := result.1 }
  else state

/-- Takes `cmn_uart_rx_inthandler` out of the slot if it is installed there. -/
def restoreRxHandler (state : RxState) : RxState :=
  if state.cHandler = some .cmnUartRx then (eluaIntSetCHandler state state.prevUartRxHandler).2
  else state

/-- `platform_cpu_set_interrupt` for a receive interrupt, which the platform may refuse. -/
def setRxInterrupt (state : RxState) (id : ℕ) (enabled accepted : Bool) : RxState :=
  if accepted then { state with rxEnabled := Function.update state.rxEnabled id enabled } else state

/-- `buf_set` for a UART with elements of one byte. -/
def setUartBuf (config : UartConfig) (state : RxState) (id log2size : ℕ)
    (realloc : Option (List UInt8)) : PlatformStatus × RxState :=
  let index := bufhCheckUart config id
  let result := bufSet (state.descs index) (log2size % 2 ^ 8) 0 realloc
  (result.1, { state with descs := Function.update state.descs index result.2 })

/-- `platform_uart_set_buffer`, with the memory that `realloc` returns and the answer of the
platform to the change of the receive interrupt. -/
def platformUartSetBuffer (config : UartConfig) (state : RxState) (id log2size : ℕ)
    (realloc : Option (List UInt8)) (accepted : Bool) : PlatformStatus × RxState :=
  if id = config.sermuxPhysId then (.err, state)
  else if log2size = 0 then
    if sermuxServiceIdFirst ≤ id then (.err, state)
    else
      let state :=
        if id ≠ cdcUartId then
          restoreRxHandler
            (if state.rxEnabled id then setRxInterrupt state id false accepted else state)
        else state
      (.ok, (setUartBuf config state id bufSizeNone realloc).2)
  else
    let result := setUartBuf config state id log2size realloc
    if result.1 = .err then (.err, result.2)
    else if id = cdcUartId ∨ sermuxServiceIdFirst ≤ id then (.ok, result.2)
    else
      let state := installRxHandler result.2
      if accepted then (.ok, setRxInterrupt state id true accepted) else (.err, state)

/-- `cmn_uart_setup_sermux`; it never returns if the platform refuses the interrupt. -/
def cmnUartSetupSermux (config : UartConfig) (state : RxState) (accepted : Bool) : Option RxState :=
  if accepted then
    some { installRxHandler (setRxInterrupt state config.sermuxPhysId true accepted) with
      sermux := true }
  else none

/-- Another component installs a handler and keeps the one it finds. -/
def installOther (state : RxState) (index : ℕ) : RxState :=
  let result := eluaIntSetCHandler state (some (.other index))
  { result.2 with saved := Function.update state.saved index result.1 }

/-! ### Interrupts -/

/-- The handler that a handler chains to. -/
def RxState.link (state : RxState) : CHandler → Option CHandler
  | .cmnUartRx => state.prevUartRxHandler
  | .other index => state.saved index

/-- `cmn_rx_handler` for the received bytes of a UART that does not carry the multiplexer. -/
def storeReceived (desc : BufDesc) (bytes : List UInt8) : BufDesc :=
  bytes.foldl (fun desc data ↦ (bufWrite desc [data]).2) desc

/-- `cmn_uart_rx_inthandler` up to its call of the next handler, for a UART that does not carry the
multiplexer: the bytes are taken out of the UART if it is buffered. -/
def cmnUartRxInthandler (config : UartConfig) (state : RxState) (resnum : ℕ) (bytes : List UInt8) :
    List UInt8 × RxState :=
  if state.buffered config resnum then
    let index := bufhCheckUart config resnum
    let desc := storeReceived (state.descs index) bytes
    ([], { state with descs := Function.update state.descs index desc })
  else (bytes, state)

/-- The chain of handlers for a receive interrupt of a UART that holds received bytes. -/
def rxInterrupt (config : UartConfig) : ℕ → RxState → Option CHandler → ℕ → List UInt8 → Option RxState
  | _, state, none, _, _ => some state
  | 0, _, some _, _, _ => none
  | fuel + 1, state, some .cmnUartRx, resnum, bytes =>
    let result := cmnUartRxInthandler config state resnum bytes
    rxInterrupt config fuel result.2 state.prevUartRxHandler resnum result.1
  | fuel + 1, state, some (.other index), resnum, bytes =>
    rxInterrupt config fuel state (state.saved index) resnum bytes

end Elua.Uart
