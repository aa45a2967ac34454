import Elua.LuaRpc.Values

/-!
# The Lua stack while a value is read

`read_variable`, `read_table` and `read_function` on the Lua stack itself. No function checks that a
value was pushed: `read_table` ignores what the second `read_variable` of an entry returns,
`read_function` returns whatever was loaded, and every end marker ends whatever is being read.

A `Decoding` holds the bytes that are left, the stack, the lowest height that it has had since the
call in progress began, and all calls of `read_variable` that have ended. `expectVariable` is how
the bytes should be: it makes values, and an end marker that does not belong where it stands is
refused.

The Lua stack has room for a number of values, and the C stack for a number of bytes (`Limits`).
Nobody calls `lua_checkstack` or looks at the length of a string before `alloca`, so that what a push
or a call does without room is not defined. Memory is taken as available. A table that was taken off
the stack is gone, and what is stored to a table of the globals is not seen when its name is read
again. Both come up only after a call that did not keep the balance. -/

set_option autoImplicit false
set_option relaxedAutoImplicit false

namespace Elua.LuaRpc

open Foundation

variable {Prototype : Type} {α β : Type}

/-! ### Calls of `read_variable` -/

/-- The functions that call each other. -/
inductive Routine
  | readVariable | readTable | readFunction | readIndex
  deriving DecidableEq

/-- The slots of the Lua stack, and the bytes that a call takes on the C stack, with what it calls
of Lua and of the transport. -/
structure Limits where
  room : ℕ
  frame : Routine → ℕ

/-- Where `read_variable` is called: not inside a value, for a key or a value of a table, or for a
part of a function. -/
inductive Place
  | outside | key | value | chunk
  deriving DecidableEq, Repr

/-- The end marker of the construct that is being read, where it may stand. -/
def Place.endMarker : Place → Option UInt8
  | .key => some rpcTableEnd
  | .chunk => some rpcFunctionEnd
  | .outside | .value => none

/-- Reading ends with an exception or with a Lua error. -/
def ReadFault.Throws : ReadFault → Prop
  | .noData | .raised | .protocol => True
  | .undefined | .fuel => False

theorem throws_of_ne {fault : ReadFault} (hdefined : fault ≠ .undefined) (hfuel : fault ≠ .fuel) :
    fault.Throws := by
  cases fault with
  | noData | raised | protocol => exact trivial
  | undefined => exact absurd rfl hdefined
  | fuel => exact absurd rfl hfuel

/-- A call of `read_variable` that has ended: the bytes and the stack (its top first) at entry, the
lowest height of the stack on the way, what the call returned, and the stack at the end. -/
structure Call (Prototype : Type) where
  place : Place
  bytes : List UInt8
  before : List (Value Prototype)
  lowest : ℕ
  result : Except ReadFault Bool
  after : List (Value Prototype)

/-- A call has pushed one value and returned 1, or nothing and returned 0 for the end marker of the
construct that is read, or it throws. The stack was never below its height at entry. -/
def Call.Right (call : Call Prototype) : Prop :=
  call.before.length ≤ call.lowest ∧
    match call.result with
    | .ok true => ∃ value, call.after = value :: call.before
    | .ok false => call.after = call.before ∧
        ∃ marker, call.place.endMarker = some marker ∧ call.bytes.head? = some marker
    | .error fault => fault.Throws

/-- The state of the decoder. -/
structure Decoding (Prototype : Type) where
  bytes : List UInt8
  stack : List (Value Prototype)
  lowest : ℕ
  calls : List (Call Prototype)

/-- All calls that have ended were right. -/
def Decoding.AllRight (state : Decoding Prototype) : Prop := ∀ call ∈ state.calls, call.Right

/-- Code that works on the link and on the stack. An error leaves the stack as it is. -/
abbrev Decoder (Prototype : Type) := EStateM ReadFault (Decoding Prototype)

/-- The state in which code ends. -/
def endState : EStateM.Result ReadFault (Decoding Prototype) α → Decoding Prototype
  | .ok _ state | .error _ state => state

/-- How code ends. -/
def ending : EStateM.Result ReadFault (Decoding Prototype) α → Except ReadFault α
  | .ok result _ => .ok result
  | .error fault _ => .error fault

/-- Reads a string to a buffer that `alloca` makes on the C stack, where so many bytes are free. -/
def readBuffer (link : Link Prototype) (free : ℕ) (bytes : List UInt8) :
    Except ReadFault (List UInt8 × List UInt8) := do
  let (len, _) ← transportReadU32 link.receiverTpt bytes
  if len < free then readString link bytes else .error .undefined

namespace Decoder

variable (link : Link Prototype) (limits : Limits)

/-- A function of the transport. -/
def fromTransport (read : List UInt8 → Except ReadFault (α × List UInt8)) : Decoder Prototype α :=
  fun state ↦
    match read state.bytes with
    | .ok (result, bytes) => .ok result { state with bytes := bytes }
    | .error fault => .error fault state

/-- There have to be some more slots on the Lua stack. -/
def reserve (slots : ℕ) : Decoder Prototype Unit := fun state ↦
  if state.stack.length + slots ≤ limits.room then .ok () state else .error .undefined state

/-- A call of a routine, where so many bytes are free on the C stack. -/
def enter (routine : Routine) (free : ℕ) (body : ℕ → Decoder Prototype α) : Decoder Prototype α :=
  if limits.frame routine ≤ free then body (free - limits.frame routine) else throw .undefined

/-- The functions `lua_pushnil` to `lua_newtable`. -/
def push (value : Value Prototype) : Decoder Prototype Unit := do
  reserve limits 1
  modify fun state ↦ { state with stack := value :: state.stack }

/-- `lua_gettop`. -/
def luaGettop : Decoder Prototype ℕ := fun state ↦ .ok state.stack.length state

/-- `lua_rawset`: sets the value on the top for the key below it in the table at an index, counted
from the bottom, and takes both off. -/
def luaRawset (index : ℕ) : Decoder Prototype Unit := fun state ↦
  let slot := state.stack.length - index
  match state.stack, state.stack[slot]? with
  | value :: key :: below, some (.table entries) =>
    if state.stack.length < index then .error .undefined state
    else
      match checkKey link.receiver.number key with
      | .ok () =>
        .ok () { state with
          stack := (state.stack.set slot (.table (entries ++ [(key, value)]))).drop 2
          lowest := min state.lowest below.length }
      | .error fault => .error fault state
  | _, _ => .error .undefined state

/-- The end of a pass of `read_function`: what is loaded from the string on the top is pushed, and
takes its place. -/
def loadTop : Decoder Prototype Unit := fun state ↦
  match state.stack with
  | [] => .error .undefined state
  | chunk :: below =>
    match chunkString link chunk with
    | some b =>
      if state.stack.length < limits.room then .ok () { state with stack := loadedChunk link b :: below }
      else .error .undefined state
    | none => .error .raised state

/-- `strtok` finds a part of a name between dots. Without one `lua_getglobal` gets no string. -/
def hasToken (name : List UInt8) : Bool := (name.takeWhile (· ≠ 0)).any (· ≠ 0x2E)

/-- The slots for a name: `lua_getfield` pushes a field before its table is removed. -/
def indexSlots (name : List UInt8) : ℕ :=
  if hasToken ((name.dropWhile (· = 0x2E)).dropWhile (· ∉ [0, 0x2E])) then 2 else 1

/-- `read_index`. -/
def readIndex (free : ℕ) : Decoder Prototype Unit := do
  let name ← fromTransport (readBuffer link free)
  if hasToken name then do
    reserve limits (indexSlots name)
    match link.index name with
    | some value => push limits value
    | none => throw .raised
  else throw .undefined

/-- A call as it is recorded at its end. -/
def ended (place : Place) (start : Decoding Prototype)
    (result : EStateM.Result ReadFault (Decoding Prototype) Bool) : Call Prototype where
  place := place
  bytes := start.bytes
  before := start.stack
  lowest := (endState result).lowest
  result := ending result
  after := (endState result).stack

/-- The state after a call that is added to the record. -/
def record (place : Place) (start : Decoding Prototype)
    (result : EStateM.Result ReadFault (Decoding Prototype) Bool) : Decoding Prototype :=
  { endState result with
    lowest := min start.lowest (endState result).lowest
    calls := (endState result).calls ++ [ended place start result] }

/-- A call of `read_variable` with its record. -/
def recorded (place : Place) (body : Decoder Prototype Bool) : Decoder Prototype Bool :=
  fun start ↦
    let result := body { start with lowest := start.stack.length }
    match result with
    | .ok returned _ => .ok returned (record place start result)
    | .error fault _ => .error fault (record place start result)

mutual

/-- `read_variable`. -/
def readVariable : ℕ → ℕ → Decoder Prototype Bool
  | 0, _ => throw .fuel
  | fuel + 1, free => enter limits .readVariable free fun free ↦ do
    let type ← fromTransport transportReadU8
    if type = rpcNil then do
      push limits .nil
      pure true
    else if type = rpcBoolean then do
      let byte ← fromTransport transportReadU8
      push limits (.boolean (byte ≠ 0))
      pure true
    else if type = rpcNumber then do
      let x ← fromTransport (readNumber link)
      push limits (.number x)
      pure true
    else if type = rpcString then do
      let s ← fromTransport (readBuffer link free)
      push limits (.string s)
      pure true
    else if type = rpcTable then do
      enter limits .readTable free fun free ↦ do
        push limits (.table [])
        let index ← luaGettop
        readTable fuel free index
      pure true
    else if type = rpcTableEnd then pure false
    else if type = rpcFunction then do
      enter limits .readFunction free fun free ↦ readFunction fuel free
      pure true
    else if type = rpcFunctionEnd then pure false
    else if type = rpcRemote then do
      enter limits .readIndex free (readIndex link limits)
      pure true
    else throw .protocol
termination_by structural fuel _ => fuel

/-- The loop of `read_table`. -/
def readTable : ℕ → ℕ → ℕ → Decoder Prototype Unit
  | 0, _, _ => throw .fuel
  | fuel + 1, free, index => do
    let more ← recorded .key (readVariable fuel free)
    if more then do
      let _ ← recorded .value (readVariable fuel free)
      luaRawset link index
      readTable fuel free index
    else pure ()
termination_by structural fuel _ _ => fuel

/-- `read_function`. -/
def readFunction : ℕ → ℕ → Decoder Prototype Unit
  | 0, _ => throw .fuel
  | fuel + 1, free => do
    let more ← recorded .chunk (readVariable fuel free)
    if more then do
      loadTop link limits
      readFunction fuel free
    else pure ()
termination_by structural fuel _ => fuel

end

/-- All calls of `read_variable` that reading one value leads to. Each call takes at least one byte,
so this fuel is not used up. -/
def calls (free : ℕ) (bytes : List UInt8) (stack : List (Value Prototype)) :
    List (Call Prototype) :=
  (endState (recorded .outside (readVariable link limits (2 * bytes.length + 1) free)
    ⟨bytes, stack, stack.length, []⟩)).calls

end Decoder

/-! ### How the bytes should be -/

section Expected

variable (link : Link Prototype) (limits : Limits)

/-- A value for which a slot should be left. -/
def expectSlot (left : ℕ) (value : Value Prototype) (bytes : List UInt8) :
    Except ReadFault (Option (Value Prototype) × List UInt8) :=
  if 1 ≤ left then pure (some value, bytes) else .error .undefined

/-- A call for which bytes should be free. -/
def expectCall (routine : Routine) (free : ℕ) (expected : ℕ → Except ReadFault α) :
    Except ReadFault α :=
  if limits.frame routine ≤ free then expected (free - limits.frame routine) else .error .undefined

mutual

/-- What a value or an end marker at a place should be, with so many bytes free on the C stack and
so many slots left on the Lua stack: `none` is the end marker of the construct that is being read,
and no other is expected. -/
def expectVariable : ℕ → ℕ → Place → ℕ → List UInt8 →
    Except ReadFault (Option (Value Prototype) × List UInt8)
  | 0, _, _, _, _ => .error .fuel
  | fuel + 1, free, place, left, bytes => expectCall limits .readVariable free fun free ↦ do
    let (type, bytes) ← transportReadU8 bytes
    if type = rpcNil then expectSlot left .nil bytes
    else if type = rpcBoolean then do
      let (byte, bytes) ← transportReadU8 bytes
      expectSlot left (.boolean (byte ≠ 0)) bytes
    else if type = rpcNumber then do
      let (x, bytes) ← readNumber link bytes
      expectSlot left (.number x) bytes
    else if type = rpcString then do
      let (s, bytes) ← readBuffer link free bytes
      expectSlot left (.string s) bytes
    else if type = rpcTable then do
      let (entries, bytes) ← expectCall limits .readTable free fun free ↦
        if 1 ≤ left then expectEntries fuel free (left - 1) bytes [] else .error .undefined
      pure (some (.table entries), bytes)
    else if type = rpcTableEnd then
      if place = .key then pure (none, bytes) else .error .undefined
    else if type = rpcFunction then do
      match ← expectCall limits .readFunction free fun free ↦
        expectChunks fuel free left bytes [] with
      | ([function], bytes) => pure (some function, bytes)
      | _ => .error .undefined
    else if type = rpcFunctionEnd then
      if place = .chunk then pure (none, bytes) else .error .undefined
    else if type = rpcRemote then
      expectCall limits .readIndex free fun free ↦ do
        let (name, bytes) ← readBuffer link free bytes
        if Decoder.hasToken name then
          if Decoder.indexSlots name ≤ left then
            match link.index name with
            | some value => expectSlot left value bytes
            | none => .error .raised
          else .error .undefined
        else .error .undefined
    else .error .protocol
termination_by structural fuel _ _ _ _ => fuel

/-- Keys and values up to the end of the table. A key stands on the stack below its value. -/
def expectEntries : ℕ → ℕ → ℕ → List UInt8 → List (Value Prototype × Value Prototype) →
    Except ReadFault (List (Value Prototype × Value Prototype) × List UInt8)
  | 0, _, _, _, _ => .error .fuel
  | fuel + 1, free, left, bytes, entries => do
    match ← expectVariable fuel free .key left bytes with
    | (none, bytes) => pure (entries, bytes)
    | (some key, bytes) =>
      match ← expectVariable fuel free .value (left - 1) bytes with
      | (some value, bytes) => do
        checkKey link.receiver.number key
        expectEntries fuel free left bytes (entries ++ [(key, value)])
      | (none, _) => .error .undefined
termination_by structural fuel _ _ _ _ => fuel

/-- Chunks up to the end of the function, each loaded above its string. -/
def expectChunks : ℕ → ℕ → ℕ → List UInt8 → List (Value Prototype) →
    Except ReadFault (List (Value Prototype) × List UInt8)
  | 0, _, _, _, _ => .error .fuel
  | fuel + 1, free, left, bytes, functions => do
    match ← expectVariable fuel free .chunk left bytes with
    | (none, bytes) => pure (functions, bytes)
    | (some chunk, bytes) =>
      match chunkString link chunk with
      | some b =>
        if 2 ≤ left then expectChunks fuel free (left - 1) bytes (loadedChunk link b :: functions)
        else .error .undefined
      | none => .error .raised
termination_by structural fuel _ _ _ _ => fuel

end

/-- Up to where reading ends, with a value or an error, each end marker stands where a key of its
table or a part of its function is read, each function has one part, each name of a global has a
part, each string is of a length that an `int` has, numbers are only sent in a width that holds one,
and the slots that are left on the Lua stack and the bytes that are free on the C stack are
enough. -/
def WellFormed (free left : ℕ) (bytes : List UInt8) : Prop :=
  expectVariable link limits (2 * bytes.length + 1) free .outside left bytes ≠ .error .undefined

end Expected

end Elua.LuaRpc
