import Elua.Foundation.Linked
import Elua.Uart.RxHandler

/-!
# The receive handler stays installed

`rxSystem` is the system of the calls that set the buffers of physical UARTs and the multiplexer up,
and of other components that install handlers. `HandlersKept` says what the chain of handlers must
look like: the handlers of the other components in the order in which they were installed, with
`cmn_uart_rx_inthandler` among them exactly as long as it has a user.

The code takes the handler out of the slot whenever a UART is disabled, also when another UART or
the multiplexer still needs it, and it puts the handler into the slot whenever another handler is
there, also when the handler is further down the chain. `OrderlyCall` is the condition on the calls
under which neither happens, and `handlersKept_of_orderlyCalls` says that it is enough.
-/

set_option autoImplicit false
set_option relaxedAutoImplicit false

namespace Elua.Uart

open Buf Foundation TransitionSystem

/-! ### The system -/

/-- The state of a run, with the handlers that other components have installed, the last one
first. -/
structure RxRun where
  state : RxState
  others : List ℕ

/-- A call that sets buffers or the multiplexer up, or a handler of another component. -/
inductive RxEvent
  | setBuffer (id log2size : ℕ) (realloc : Option (List UInt8)) (accepted : Bool)
  | setupSermux (accepted : Bool)
  | install (index : ℕ)

/-- One event. -/
def rxStep (config : UartConfig) (run : RxRun) : RxEvent → Option RxRun
  | .setBuffer id log2size realloc accepted =>
    some ⟨(platformUartSetBuffer config run.state id log2size realloc accepted).2, run.others⟩
  | .setupSermux accepted =>
    (cmnUartSetupSermux config run.state accepted).map fun state ↦ ⟨state, run.others⟩
  | .install index => some ⟨installOther run.state index, index :: run.others⟩

/-- The runs from the state at the start. -/
def rxSystem (config : UartConfig) : TransitionSystem RxRun RxEvent :=
  ofFunction (fun run ↦ run = ⟨.initial, []⟩) (rxStep config)

/-- Calls are for physical UARTs, and a component installs its handler once. -/
def ProperCall (config : UartConfig) (run : RxRun) : RxEvent → Prop
  | .setBuffer id _ _ _ => id < config.numUart
  | .setupSermux _ => True
  | .install index => index ∉ run.others

/-! ### What must hold -/

/-- A physical UART is buffered, or the multiplexer is set up. -/
def Used (config : UartConfig) (state : RxState) : Prop :=
  state.sermux = true ∨ ∃ id < config.numUart, state.buffered config id = true

/-- The handlers from the slot on. -/
def ChainIs (state : RxState) (handlers : List CHandler) : Prop :=
  Walk state.link state.cHandler handlers none

/-- The handler is in the chain as long as it has a user, and buffered UARTs raise interrupts whose
bytes reach their buffers; without a user, the handlers of the others are as if it had never been
there. -/
structure HandlersKept (config : UartConfig) (run : RxRun) : Prop where
  installed : Used config run.state → ∃ upper lower, upper ++ lower = run.others ∧
    ChainIs run.state (upper.map .other ++ .cmnUartRx :: lower.map .other)
  restored : ¬ Used config run.state → ChainIs run.state (run.others.map .other)
  delivers : ∀ id < config.numUart, run.state.buffered config id = true →
    run.state.rxEnabled id = true ∧ ∀ bytes, ∃ fuel after,
       rxInterrupt config fuel run.state run.state.cHandler id bytes = some after ∧
        after.descs (bufhCheckUart config id) =
          storeReceived (run.state.descs (bufhCheckUart config id)) bytes

/-! ### When it holds -/

/-- Another physical UART is buffered, or the multiplexer is set up. -/
def OtherUser (config : UartConfig) (state : RxState) (id : ℕ) : Prop :=
  state.sermux = true ∨
    ∃ other < config.numUart, other ≠ id ∧ state.buffered config other = true

/-- A UART is disabled only if the handler is in the slot exactly when this is its last user, a
buffer is set up or resized only if the handler is in the slot or has no user and the platform
accepts the receive interrupt, and the last buffer does not get lost when it is resized. -/
def OrderlyCall (config : UartConfig) (run : RxRun) : RxEvent → Prop
  | .setBuffer id log2size realloc accepted => id < config.numUart ∧ (id ≠ config.sermuxPhysId →
    if log2size = 0 then
      (run.state.cHandler = some .cmnUartRx → ¬ OtherUser config run.state id) ∧
        (¬ OtherUser config run.state id → run.state.buffered config id = true →
          run.state.cHandler = some .cmnUartRx)
    else log2size % 2 ^ 8 ≠ 0 ∧
      if realloc.isSome then
        accepted = true ∧ (Used config run.state → run.state.cHandler = some .cmnUartRx)
      else OtherUser config run.state id ∨ run.state.buffered config id = false)
  | .setupSermux _ => Used config run.state → run.state.cHandler = some .cmnUartRx
  | .install index => index ∉ run.others

/-! ### Users -/

section Users

variable {config : UartConfig} {state : RxState} {id : ℕ}

/-- A physical UART has the buffer of its number. -/
theorem bufhCheckUart_of_lt (hid : id < config.numUart) : bufhCheckUart config id = id := by
  have hle := config.numUart_le
  rw [cdcUartId] at hle
  rw [bufhCheckUart, if_neg (by rw [cdcUartId]; omega),
    if_neg (by rw [Sermux.sermuxServiceIdFirst]; omega)]

/-- The users are the UART and the other users. -/
theorem used_iff (hid : id < config.numUart) :
    Used config state ↔ OtherUser config state id ∨ state.buffered config id = true := by
  constructor
  · rintro (hsermux | ⟨other, hother, hbuffered⟩)
    · exact .inl (.inl hsermux)
    · by_cases hsame : other = id
      · exact .inr (hsame ▸ hbuffered)
      · exact .inl (.inr ⟨other, hother, hsame, hbuffered⟩)
  · rintro ((hsermux | ⟨other, hother, -, hbuffered⟩) | hbuffered)
    · exact .inl hsermux
    · exact .inr ⟨other, hother, hbuffered⟩
    · exact .inr ⟨id, hid, hbuffered⟩

/-- What setting a buffer does to the buffers. -/
theorem buffered_setUartBuf (hid : id < config.numUart) (log2size : ℕ)
    (realloc : Option (List UInt8)) {other : ℕ} (hother : other < config.numUart) :
    (setUartBuf config state id log2size realloc).2.buffered config other =
      if other = id then realloc.isSome && decide (log2size % 2 ^ 8 ≠ 0)
      else state.buffered config other := by
  simp only [RxState.buffered, setUartBuf, bufhCheckUart_of_lt hid, bufhCheckUart_of_lt hother]
  by_cases hsame : other = id
  · rw [hsame, Function.update_self, if_pos rfl]
    cases realloc with
    | none =>
      simp only [bufSet, Option.isSome_none, Bool.false_and]
      split_ifs <;> rfl
    | some memory =>
      simp only [bufSet, bufIsEnabled, bufSizeNone, Nat.add_zero, Nat.mod_mod, Option.isSome_some,
        Bool.true_and]
      by_cases hzero : log2size % 256 = 0 <;> simp [hzero]
  · rw [Function.update_of_ne hsame, if_neg hsame]

/-- The other users stay when a buffer is set. -/
theorem otherUser_setUartBuf (hid : id < config.numUart) (log2size : ℕ)
    (realloc : Option (List UInt8)) :
    OtherUser config (setUartBuf config state id log2size realloc).2 id ↔
      OtherUser config state id := by
  refine or_congr Iff.rfl (exists_congr fun other ↦ and_congr_right fun hother ↦
    and_congr_right fun hne ↦ ?_)
  rw [buffered_setUartBuf hid log2size realloc hother, if_neg hne]

/-- The users after a buffer has been set. -/
theorem used_setUartBuf (hid : id < config.numUart) (log2size : ℕ)
    (realloc : Option (List UInt8)) :
    Used config (setUartBuf config state id log2size realloc).2 ↔
      OtherUser config state id ∨ realloc.isSome = true ∧ log2size % 2 ^ 8 ≠ 0 := by
  rw [used_iff hid, otherUser_setUartBuf hid, buffered_setUartBuf hid _ _ hid, if_pos rfl,
    Bool.and_eq_true, decide_eq_true_iff]

end Users

/-! ### Chains -/

section Chains

variable {config : UartConfig} {state : RxState} {upper lower : List ℕ}

/-- The link of a handler of another component is what it found. -/
theorem walk_others_congr {next other : CHandler → Option CHandler} {start finish : Option CHandler}
    (hwalk : Walk next start (lower.map .other) finish)
    (hsame : ∀ index ∈ lower, other (.other index) = next (.other index)) :
    Walk other start (lower.map .other) finish := by
  refine hwalk.congr fun handler hhandler ↦ ?_
  obtain ⟨index, hindex, rfl⟩ := List.mem_map.mp hhandler
  exact hsame index hindex

/-- Without the handler, the slot holds another one or none. -/
theorem cHandler_ne_of_others (hchain : ChainIs state (lower.map .other)) :
    state.cHandler ≠ some .cmnUartRx := by
  intro hslot
  cases lower with
  | nil => exact Option.some_ne_none _ (hslot.symm.trans hchain)
  | cons index lower => exact CHandler.noConfusion (Option.some.inj (hslot.symm.trans hchain.1))

/-- With the handler in the slot, no handler has been installed in front of it. -/
theorem upper_eq_nil (hchain : ChainIs state (upper.map .other ++ .cmnUartRx :: lower.map .other))
    (hslot : state.cHandler = some .cmnUartRx) : upper = [] := by
  cases upper with
  | nil => rfl
  | cons index upper => exact CHandler.noConfusion (Option.some.inj (hslot.symm.trans hchain.1))

/-- Installing the handler puts it in front. -/
theorem chainIs_installRxHandler (hchain : ChainIs state (lower.map .other)) :
    ChainIs (installRxHandler state) (.cmnUartRx :: lower.map .other) := by
  rw [installRxHandler, if_pos (cHandler_ne_of_others hchain)]
  exact ⟨rfl, walk_others_congr hchain fun _ _ ↦ rfl⟩

/-- Another handler is put in front. -/
theorem chainIs_installOther {handlers : List CHandler} {index : ℕ}
    (hchain : ChainIs state handlers) (hfresh : .other index ∉ handlers) :
    ChainIs (installOther state index) (.other index :: handlers) := by
  refine ⟨rfl, ?_⟩
  have hlink : (installOther state index).link (.other index) = state.cHandler := by
    change Function.update state.saved index state.cHandler index = state.cHandler
    rw [Function.update_self]
  rw [hlink]
  refine hchain.congr fun handler hhandler ↦ ?_
  cases handler with
  | cmnUartRx => rfl
  | other second =>
    have hne : second ≠ index := by
      rintro rfl
      exact hfresh hhandler
    change Function.update state.saved index state.cHandler second = state.saved second
    rw [Function.update_of_ne hne]

/-- Handlers of other components pass an interrupt on. -/
theorem rxInterrupt_others {start finish : Option CHandler}
    (hwalk : Walk state.link start (lower.map .other) finish) (fuel resnum : ℕ)
    (bytes : List UInt8) :
    rxInterrupt config (fuel + lower.length) state start resnum bytes =
      rxInterrupt config fuel state finish resnum bytes := by
  induction lower generalizing start with
  | nil =>
    obtain rfl : start = finish := hwalk
    rfl
  | cons index lower ih =>
    obtain ⟨rfl, hwalk⟩ := hwalk
    exact ih hwalk

/-- The bytes of a buffered UART reach its buffer. -/
theorem rxInterrupt_stores (hchain : ChainIs state (upper.map .other ++ .cmnUartRx :: lower.map .other))
    {id : ℕ} (hbuffered : state.buffered config id = true) (bytes : List UInt8) :
    ∃ fuel after, rxInterrupt config fuel state state.cHandler id bytes = some after ∧
      after.descs (bufhCheckUart config id) =
        storeReceived (state.descs (bufhCheckUart config id)) bytes := by
  obtain ⟨middle, hupper, rfl, hlower⟩ := walk_append.mp hchain
  have hstored : cmnUartRxInthandler config state id bytes =
      ([], (cmnUartRxInthandler config state id bytes).2) := by
    rw [cmnUartRxInthandler, if_pos hbuffered]
  refine ⟨lower.length + 1 + upper.length, (cmnUartRxInthandler config state id bytes).2, ?_, ?_⟩
  · rw [rxInterrupt_others hupper]
    have hrest : Walk (cmnUartRxInthandler config state id bytes).2.link state.prevUartRxHandler
        (lower.map .other) none := by
      rw [cmnUartRxInthandler, if_pos hbuffered]
      exact walk_others_congr hlower fun _ _ ↦ rfl
    have hpassed := @rxInterrupt_others config _ _ _ _ hrest 0 id []
    rw [Nat.zero_add] at hpassed
    rw [rxInterrupt, hstored]
    exact hpassed
  · rw [cmnUartRxInthandler, if_pos hbuffered]
    exact Function.update_self ..

end Chains

/-! ### Steps -/

/-- What `HandlersKept` says of the chain. -/
structure ChainKept (config : UartConfig) (run : RxRun) : Prop where
  installed : Used config run.state → ∃ upper lower, upper ++ lower = run.others ∧
    ChainIs run.state (upper.map .other ++ .cmnUartRx :: lower.map .other)
  restored : ¬ Used config run.state → ChainIs run.state (run.others.map .other)

section Steps

variable {config : UartConfig} {run : RxRun}

/-- While the handler is in the slot or has no user, installing it puts it in the slot. -/
theorem ChainKept.exists_installed (hkept : ChainKept config run)
    (hslot : Used config run.state → run.state.cHandler = some .cmnUartRx) :
    ChainIs (installRxHandler run.state) (.cmnUartRx :: run.others.map .other) := by
  by_cases hused : Used config run.state
  · obtain ⟨upper, lower, hothers, hchain⟩ := hkept.installed hused
    obtain rfl := upper_eq_nil hchain (hslot hused)
    rw [installRxHandler, if_neg (not_not.mpr (hslot hused)), ← hothers]
    exact hchain
  · exact chainIs_installRxHandler (hkept.restored hused)

/-- Changing an interrupt touches neither the slot nor the buffers nor other interrupts. -/
theorem exists_setRxInterrupt (state : RxState) (id : ℕ) (enabled accepted : Bool) :
    ∃ flags, setRxInterrupt state id enabled accepted = { state with rxEnabled := flags } ∧
      ∀ other ≠ id, flags other = state.rxEnabled other := by
  rw [setRxInterrupt]
  split_ifs
  · exact ⟨_, rfl, fun other hother ↦ Function.update_of_ne hother ..⟩
  · exact ⟨state.rxEnabled, rfl, fun _ _ ↦ rfl⟩

/-- Installing the handler touches neither buffers nor interrupts. -/
theorem installRxHandler_keeps (state : RxState) :
    (installRxHandler state).descs = state.descs ∧
      (installRxHandler state).rxEnabled = state.rxEnabled := by
  rw [installRxHandler]
  split_ifs <;> exact ⟨rfl, rfl⟩

/-- Nor does removing it. -/
theorem restoreRxHandler_keeps (state : RxState) :
    (restoreRxHandler state).descs = state.descs ∧
      (restoreRxHandler state).rxEnabled = state.rxEnabled := by
  rw [restoreRxHandler]
  split_ifs <;> exact ⟨rfl, rfl⟩

/-- What disabling a physical UART does. -/
theorem exists_disable (state : RxState) {id : ℕ} (hid : id < config.numUart)
    (hphys : id ≠ config.sermuxPhysId) (realloc : Option (List UInt8)) (accepted : Bool) :
    ∃ flags, (platformUartSetBuffer config state id 0 realloc accepted).2 =
      (setUartBuf config (restoreRxHandler { state with rxEnabled := flags }) id bufSizeNone
        realloc).2 ∧ ∀ other ≠ id, flags other = state.rxEnabled other := by
  have hle := config.numUart_le
  rw [cdcUartId] at hle
  have hcdc : id ≠ cdcUartId := by
    rw [cdcUartId]
    omega
  have hvirtual : ¬ Sermux.sermuxServiceIdFirst ≤ id := by
    rw [Sermux.sermuxServiceIdFirst]
    omega
  simp only [platformUartSetBuffer, if_neg hphys, if_neg hvirtual, if_pos hcdc, if_true]
  split_ifs
  · obtain ⟨flags, hflags, hothers⟩ := exists_setRxInterrupt state id false accepted
    exact ⟨flags, by rw [hflags], hothers⟩
  · exact ⟨state.rxEnabled, rfl, fun _ _ ↦ rfl⟩

/-- What setting a buffer of a physical UART up does, if there is memory for it and the platform
accepts the interrupt. -/
theorem platformUartSetBuffer_enable (state : RxState) {id log2size : ℕ}
    (hid : id < config.numUart) (hphys : id ≠ config.sermuxPhysId) (hsize : log2size ≠ 0)
    (memory : List UInt8) :
    (platformUartSetBuffer config state id log2size (some memory) true).2 =
      { installRxHandler (setUartBuf config state id log2size (some memory)).2 with
        rxEnabled := Function.update state.rxEnabled id true } := by
  have hle := config.numUart_le
  rw [cdcUartId] at hle
  have hphysical : ¬ (id = cdcUartId ∨ Sermux.sermuxServiceIdFirst ≤ id) := by
    rw [cdcUartId, Sermux.sermuxServiceIdFirst]
    omega
  have hstatus : (setUartBuf config state id log2size (some memory)).1 ≠ .err :=
    fun herr ↦ PlatformStatus.noConfusion herr
  simp only [platformUartSetBuffer, if_neg hphys, if_neg hsize, if_neg hstatus, if_neg hphysical,
    if_true, setRxInterrupt, (installRxHandler_keeps _).2]
  rfl

/-- A buffer of a physical UART that there is no memory for is lost. -/
theorem set_failed (state : RxState) {id log2size : ℕ} (hphys : id ≠ config.sermuxPhysId)
    (hsize : log2size % 2 ^ 8 ≠ 0) (accepted : Bool) :
    (platformUartSetBuffer config state id log2size none accepted).2 =
      (setUartBuf config state id log2size none).2 := by
  have hnonzero : log2size ≠ 0 := by
    rintro rfl
    exact hsize rfl
  have hstatus : (setUartBuf config state id log2size none).1 = .err := by
    simp only [setUartBuf, bufSet, bufSizeNone, ne_eq, hsize, not_false_eq_true, if_true]
  simp only [platformUartSetBuffer, if_neg hphys, if_neg hnonzero, if_pos hstatus]

/-- Setting a buffer leaves the chain alone. -/
theorem chainIs_setUartBuf {state : RxState} {id log2size : ℕ} {realloc : Option (List UInt8)}
    {handlers : List CHandler} :
    ChainIs (setUartBuf config state id log2size realloc).2 handlers ↔ ChainIs state handlers :=
  Iff.rfl

/-- Disabling a UART. -/
theorem ChainKept.disable (hkept : ChainKept config run) {id : ℕ} (hid : id < config.numUart)
    (hphys : id ≠ config.sermuxPhysId) (realloc : Option (List UInt8)) (accepted : Bool)
    (hremoved : run.state.cHandler = some .cmnUartRx → ¬ OtherUser config run.state id)
    (hlast : ¬ OtherUser config run.state id → run.state.buffered config id = true →
      run.state.cHandler = some .cmnUartRx) :
    ChainKept config ⟨(platformUartSetBuffer config run.state id 0 realloc accepted).2,
      run.others⟩ := by
  obtain ⟨flags, hafter, -⟩ := exists_disable run.state hid hphys realloc accepted
  have hnone : ¬ (realloc.isSome = true ∧ bufSizeNone % 2 ^ 8 ≠ 0) := fun hsome ↦ hsome.2 rfl
  rw [hafter]
  by_cases hslot : run.state.cHandler = some .cmnUartRx
  · -- the handler is removed, and there is no other user
    have halone := hremoved hslot
    have hrestored : restoreRxHandler { run.state with rxEnabled := flags } =
        { run.state with rxEnabled := flags, cHandler := run.state.prevUartRxHandler } :=
      if_pos hslot
    have hunused : ¬ Used config (setUartBuf config (restoreRxHandler
        { run.state with rxEnabled := flags }) id bufSizeNone realloc).2 := by
      rw [used_setUartBuf hid, hrestored]
      rintro (hother | hsome)
      · exact halone hother
      · exact hnone hsome
    refine ⟨fun hused ↦ absurd hused hunused, fun _ ↦ chainIs_setUartBuf.mpr ?_⟩
    have hused : Used config run.state := by
      by_contra hfree
      exact cHandler_ne_of_others (hkept.restored hfree) hslot
    obtain ⟨upper, lower, hothers, hchain⟩ := hkept.installed hused
    obtain rfl := upper_eq_nil hchain hslot
    rw [hrestored, ← hothers]
    exact walk_others_congr hchain.2 fun _ _ ↦ rfl
  · have hsame : restoreRxHandler { run.state with rxEnabled := flags } =
        { run.state with rxEnabled := flags } := if_neg hslot
    have hused : Used config (setUartBuf config (restoreRxHandler
        { run.state with rxEnabled := flags }) id bufSizeNone realloc).2 ↔
          Used config run.state := by
      rw [used_setUartBuf hid, hsame, used_iff hid]
      constructor
      · rintro (hother | hsome)
        · exact .inl hother
        · exact absurd hsome hnone
      · rintro (hother | hbuffered)
        · exact .inl hother
        · by_contra halone
          exact hslot (hlast (fun hother ↦ halone (.inl hother)) hbuffered)
    constructor
    · intro hstill
      obtain ⟨upper, lower, hothers, hchain⟩ := hkept.installed (hused.mp hstill)
      exact ⟨upper, lower, hothers, by rw [hsame]; exact hchain⟩
    · intro hfree
      rw [hsame]
      exact hkept.restored fun hstill ↦ hfree (hused.mpr hstill)

/-- A buffer that is set up is none of the handler's business. -/
theorem installRxHandler_setUartBuf (state : RxState) (id log2size : ℕ) (memory : List UInt8) :
    installRxHandler (setUartBuf config state id log2size (some memory)).2 =
      (setUartBuf config (installRxHandler state) id log2size (some memory)).2 := by
  by_cases hinstalled : state.cHandler = some .cmnUartRx
  · have hsame : (setUartBuf config state id log2size (some memory)).2.cHandler =
      some .cmnUartRx := hinstalled
    rw [installRxHandler, if_neg (not_not.mpr hsame), installRxHandler,
      if_neg (not_not.mpr hinstalled)]
  · have hsame : (setUartBuf config state id log2size (some memory)).2.cHandler ≠
      some .cmnUartRx := hinstalled
    rw [installRxHandler, if_pos hsame, installRxHandler, if_pos hinstalled]
    rfl

/-- Setting a buffer up or resizing one. -/
theorem ChainKept.enable (hkept : ChainKept config run) {id log2size : ℕ}
    (hid : id < config.numUart) (hphys : id ≠ config.sermuxPhysId) (hsize : log2size % 2 ^ 8 ≠ 0)
    (realloc : Option (List UInt8)) (accepted : Bool)
    (hslot : if realloc.isSome then
        accepted = true ∧ (Used config run.state → run.state.cHandler = some .cmnUartRx)
      else OtherUser config run.state id ∨ run.state.buffered config id = false) :
    ChainKept config ⟨(platformUartSetBuffer config run.state id log2size realloc accepted).2,
      run.others⟩ := by
  cases realloc with
  | none =>
    rw [set_failed run.state hphys hsize accepted]
    have hused : Used config (setUartBuf config run.state id log2size none).2 ↔
        Used config run.state := by
      rw [used_setUartBuf hid, used_iff hid]
      constructor
      · rintro (hother | ⟨hsome, -⟩)
        · exact .inl hother
        · cases hsome
      · rintro (hother | hbuffered)
        · exact .inl hother
        · have hslot : OtherUser config run.state id ∨ run.state.buffered config id = false := hslot
          exact .inl (hslot.resolve_right fun hfalse ↦
            Bool.false_ne_true (hfalse.symm.trans hbuffered))
    exact ⟨fun hstill ↦ hkept.installed (hused.mp hstill),
      fun hfree ↦ hkept.restored fun hstill ↦ hfree (hused.mpr hstill)⟩
  | some memory =>
    have hnonzero : log2size ≠ 0 := by
      rintro rfl
      exact hsize rfl
    obtain ⟨rfl, hslot⟩ := hslot
    rw [platformUartSetBuffer_enable run.state hid hphys hnonzero memory]
    have hused : Used config { installRxHandler (setUartBuf config run.state id log2size
        (some memory)).2 with rxEnabled := Function.update run.state.rxEnabled id true } := by
      rw [installRxHandler_setUartBuf]
      exact (@used_setUartBuf config (installRxHandler run.state) id hid log2size
        (some memory)).mpr (.inr ⟨rfl, hsize⟩)
    refine ⟨fun _ ↦ ⟨[], run.others, rfl, ?_⟩, fun hfree ↦ absurd hused hfree⟩
    rw [installRxHandler_setUartBuf]
    exact hkept.exists_installed hslot

/-- Setting the multiplexer up. -/
theorem ChainKept.setupSermux (hkept : ChainKept config run) {accepted : Bool} {after : RxState}
    (hafter : cmnUartSetupSermux config run.state accepted = some after)
    (hslot : Used config run.state → run.state.cHandler = some .cmnUartRx) :
    ChainKept config ⟨after, run.others⟩ := by
  rw [cmnUartSetupSermux] at hafter
  split_ifs at hafter
  obtain rfl := Option.some.inj hafter
  obtain ⟨flags, hflags, -⟩ := exists_setRxInterrupt run.state config.sermuxPhysId true accepted
  refine ⟨fun _ ↦ ⟨[], run.others, rfl, ?_⟩, fun hfree ↦ absurd (.inl rfl) hfree⟩
  rw [hflags]
  have hchain := hkept.exists_installed hslot
  rw [installRxHandler] at hchain ⊢
  split_ifs at hchain ⊢ <;> exact hchain

/-- Another component installs a handler. -/
theorem ChainKept.install (hkept : ChainKept config run) {index : ℕ}
    (hfresh : index ∉ run.others) :
    ChainKept config ⟨installOther run.state index, index :: run.others⟩ := by
  constructor
  · intro hused
    obtain ⟨upper, lower, hothers, hchain⟩ := hkept.installed hused
    refine ⟨index :: upper, lower, congrArg (index :: ·) hothers, chainIs_installOther hchain ?_⟩
    rw [← hothers] at hfresh
    simpa using hfresh
  · intro hfree
    refine chainIs_installOther (hkept.restored hfree) ?_
    simpa using hfresh

/-- Every orderly event keeps the chain. -/
theorem ChainKept.step (hkept : ChainKept config run) {event : RxEvent}
    (horderly : OrderlyCall config run event) {after : RxRun}
    (hstep : rxStep config run event = some after) : ChainKept config after := by
  cases event with
  | setBuffer id log2size realloc accepted =>
    obtain rfl := Option.some.inj hstep
    obtain ⟨hid, horderly⟩ := horderly
    by_cases hphys : id = config.sermuxPhysId
    · rw [platformUartSetBuffer, if_pos hphys]
      exact hkept
    · have hcall := horderly hphys
      by_cases hsize : log2size = 0
      · subst hsize
        rw [if_pos rfl] at hcall
        exact hkept.disable hid hphys realloc accepted hcall.1 hcall.2
      · rw [if_neg hsize] at hcall
        exact hkept.enable hid hphys hcall.1 realloc accepted hcall.2
  | setupSermux accepted =>
    obtain ⟨state, hstate, rfl⟩ := Option.map_eq_some_iff.mp hstep
    exact hkept.setupSermux hstate horderly
  | install index =>
    obtain rfl := Option.some.inj hstep
    exact hkept.install horderly

/-- The interrupts of buffered UARTs are enabled. -/
def Enabled (config : UartConfig) (state : RxState) : Prop :=
  ∀ id < config.numUart, state.buffered config id = true → state.rxEnabled id = true

/-- A buffer is set after which its UART is not buffered or has its interrupt, and the other UARTs
keep theirs. -/
theorem Enabled.setUartBuf {state middle : RxState} (henabled : Enabled config state) {id : ℕ}
    (hid : id < config.numUart) (log2size : ℕ) (realloc : Option (List UInt8)) {flags : ℕ → Bool}
    (hothers : ∀ other ≠ id, flags other = state.rxEnabled other)
    (hself : realloc.isSome = true → log2size % 2 ^ 8 ≠ 0 → flags id = true)
    (hdescs : middle.descs = (setUartBuf config state id log2size realloc).2.descs)
    (hflags : middle.rxEnabled = flags) : Enabled config middle := by
  intro other hother hbuffered
  have hafter : (Uart.setUartBuf config state id log2size realloc).2.buffered config other = true := by
    rw [RxState.buffered, ← hdescs]
    exact hbuffered
  rw [buffered_setUartBuf hid log2size realloc hother] at hafter
  rw [hflags]
  by_cases hsame : other = id
  · rw [if_pos hsame, Bool.and_eq_true, decide_eq_true_iff] at hafter
    exact hsame ▸ hself hafter.1 hafter.2
  · rw [if_neg hsame] at hafter
    exact (hothers other hsame).trans (henabled other hother hafter)

/-- Every orderly event keeps the interrupts of buffered UARTs enabled. -/
theorem Enabled.step (henabled : Enabled config run.state) {event : RxEvent}
    (horderly : OrderlyCall config run event) {after : RxRun}
    (hstep : rxStep config run event = some after) : Enabled config after.state := by
  cases event with
  | setBuffer id log2size realloc accepted =>
    obtain rfl := Option.some.inj hstep
    obtain ⟨hid, horderly⟩ := horderly
    by_cases hphys : id = config.sermuxPhysId
    · rw [platformUartSetBuffer, if_pos hphys]
      exact henabled
    have hcall := horderly hphys
    by_cases hsize : log2size = 0
    · subst hsize
      obtain ⟨flags, hafter, hothers⟩ := exists_disable run.state hid hphys realloc accepted
      rw [hafter]
      refine henabled.setUartBuf hid bufSizeNone realloc hothers (fun _ hnone ↦ absurd rfl hnone) ?_
        (restoreRxHandler_keeps _).2
      simp only [Uart.setUartBuf, (restoreRxHandler_keeps _).1]
    · rw [if_neg hsize] at hcall
      cases realloc with
      | none =>
        rw [set_failed run.state hphys hcall.1 accepted]
        exact henabled.setUartBuf hid log2size none (fun _ _ ↦ rfl) (fun hsome ↦ nomatch hsome) rfl rfl
      | some memory =>
        obtain ⟨rfl, -⟩ := hcall.2
        rw [platformUartSetBuffer_enable run.state hid hphys hsize memory]
        exact henabled.setUartBuf hid log2size (some memory)
          (fun other hother ↦ Function.update_of_ne hother ..) (fun _ _ ↦ Function.update_self ..)
          (installRxHandler_keeps _).1 rfl
  | setupSermux accepted =>
    obtain ⟨state, hstate, rfl⟩ := Option.map_eq_some_iff.mp hstep
    rw [cmnUartSetupSermux] at hstate
    split_ifs at hstate with haccepted
    obtain rfl := Option.some.inj hstate
    intro id hid hbuffered
    rw [RxState.buffered, (installRxHandler_keeps _).1, setRxInterrupt, if_pos haccepted]
      at hbuffered
    change (installRxHandler _).rxEnabled id = true
    rw [(installRxHandler_keeps _).2, setRxInterrupt, if_pos haccepted]
    change Function.update run.state.rxEnabled config.sermuxPhysId true id = true
    by_cases hphys : id = config.sermuxPhysId
    · rw [hphys, Function.update_self]
    · rw [Function.update_of_ne hphys]
      exact henabled id hid hbuffered
  | install index =>
    obtain rfl := Option.some.inj hstep
    exact henabled

end Steps

/-! ### Runs -/

section Runs

variable {config : UartConfig} {run : RxRun}

theorem chainKept_of_orderlyCalls
    (hreach : (rxSystem config).ReachableUnder (OrderlyCall config) run) : ChainKept config run := by
  refine hreach.invariant (ChainKept config) ?_ ?_
  · rintro run rfl
    refine ⟨?_, fun _ ↦ rfl⟩
    rintro (hsermux | ⟨id, -, hbuffered⟩)
    · exact absurd hsermux Bool.false_ne_true
    · exact absurd hbuffered Bool.false_ne_true
  · intro run event after hkept horderly hstep
    exact hkept.step horderly hstep

theorem enabled_of_orderlyCalls
    (hreach : (rxSystem config).ReachableUnder (OrderlyCall config) run) :
    Enabled config run.state := by
  refine hreach.invariant (fun run ↦ Enabled config run.state) ?_ ?_
  · rintro run rfl id - hbuffered
    exact absurd hbuffered Bool.false_ne_true
  · intro run event after henabled horderly hstep
    exact henabled.step horderly hstep

/-- In every run of orderly calls, the handler is in the chain as long as it has a user, the bytes
of buffered UARTs reach their buffers, and without a user the handlers of the others are restored.
-/
theorem handlersKept_of_orderlyCalls
    (hreach : (rxSystem config).ReachableUnder (OrderlyCall config) run) :
    HandlersKept config run := by
  have hkept := chainKept_of_orderlyCalls hreach
  refine ⟨hkept.installed, hkept.restored, fun id hid hbuffered ↦
    ⟨enabled_of_orderlyCalls hreach id hid hbuffered, fun bytes ↦ ?_⟩⟩
  obtain ⟨upper, lower, -, hchain⟩ := hkept.installed (.inr ⟨id, hid, hbuffered⟩)
  exact rxInterrupt_stores hchain hbuffered bytes

/-- A handler is installed, and then a UART is buffered. -/
theorem handlersKept_after_install :
    ∃ (config : UartConfig) (run : RxRun),
      (rxSystem config).ReachableUnder (OrderlyCall config) run ∧ run.others = [7] ∧
        Used config run.state ∧ HandlersKept config run := by
  have hsmall : 2 ≤ cdcUartId := by decide
  generalize hconfig : UartConfig.mk 2 0 0xFFFF hsmall = config
  have hcall : OrderlyCall config ⟨installOther .initial 7, [7]⟩ (.setBuffer 0 4 (some []) true) := by
    rw [← hconfig]
    refine ⟨Nat.zero_lt_two, fun _ ↦ ⟨by decide, rfl, ?_⟩⟩
    rintro (hsermux | ⟨id, hid, hbuffered⟩)
    · exact absurd hsermux Bool.false_ne_true
    · exact absurd hbuffered Bool.false_ne_true
  have hstart : (rxSystem config).ReachableUnder (OrderlyCall config) ⟨.initial, []⟩ := .start rfl
  have hinstall : OrderlyCall config ⟨.initial, []⟩ (.install 7) := List.not_mem_nil
  have hreach := (hstart.next hinstall rfl).next hcall rfl
  refine ⟨config, _, hreach, rfl, .inr ⟨0, ?_, ?_⟩, handlersKept_of_orderlyCalls hreach⟩
  · rw [← hconfig]
    exact Nat.zero_lt_two
  · rw [← hconfig]
    rfl

/-- Two UARTs are buffered, and one of them is disabled again: the handler is gone, although the
other UART needs it. -/
theorem not_handlersKept_after_disable :
    ∃ (config : UartConfig) (run : RxRun),
      (rxSystem config).ReachableUnder (ProperCall config) run ∧ ¬ HandlersKept config run := by
  have hsmall : 2 ≤ cdcUartId := by decide
  generalize hconfig : UartConfig.mk 2 0 0xFFFF hsmall = config
  have hnum : config.numUart = 2 := hconfig ▸ rfl
  have hproper : ∀ run id log2size realloc accepted, id < 2 →
      ProperCall config run (.setBuffer id log2size realloc accepted) := by
    intro run id log2size realloc accepted hid
    rw [← hnum] at hid
    exact hid
  have hfirst : (rxSystem config).ReachableUnder (ProperCall config) ⟨.initial, []⟩ := .start rfl
  have hsecond := hfirst.next (hproper _ 0 4 (some []) true (by decide)) rfl
  have hthird := hsecond.next (hproper _ 1 4 (some []) true (by decide)) rfl
  have hfourth := hthird.next (hproper _ 0 0 none true (by decide)) rfl
  refine ⟨config, _, hfourth, fun hkept ↦ ?_⟩
  obtain ⟨upper, lower, -, hchain⟩ := hkept.installed (.inr ⟨1, by rw [hnum]; decide, by
    rw [← hconfig]
    rfl⟩)
  rw [← hconfig] at hchain
  cases upper with
  | nil => exact absurd (show none = some _ from hchain.1) (Option.some_ne_none _).symm
  | cons index upper => exact absurd (show none = some _ from hchain.1) (Option.some_ne_none _).symm

end Runs

end Elua.Uart
