import Elua.Foundation.CString
import Elua.LuaRpc.Negotiation

/-!
# Values on the link

`write_variable` and `read_variable` with the functions they call: a value is sent as a tag and what
belongs to it, a table as its keys and values up to a marker, a function as the string of its dump.
What the code under this leaves open is in a `Link`: the two endpoints, the dump of a function and
what loading a chunk gives, and what the globals of the receiver hold.

A table is the list of its entries in the order of `lua_next`, and one that is read is the list of
the entries that were set. Writing a rotable or a light function sends nothing at all. -/

set_option autoImplicit false
set_option relaxedAutoImplicit false

namespace Elua.LuaRpc

open Foundation

/-! ### Values -/

/-- A `Helper`, the userdata for something at the other end: the names of its parents, from the
outermost on, its own name, and whether it belongs to the link that is written to. -/
structure Helper where
  parents : List CString
  funcname : CString
  own : Bool

/-- The dotted name that `helper_remote_index` writes. -/
def Helper.name (helper : Helper) : List UInt8 :=
  (helper.parents.flatMap fun parent ↦ parent.bytes ++ [0x2E]) ++ helper.funcname.bytes

/-- A Lua value, with all type tags that there are. A number is given by its bits. A Lua function
has a prototype and upvalues, each of which is `nil` (`none`) or some object. -/
inductive Value (Prototype : Type)
  | nil
  | boolean (value : Bool)
  | number (bits : ℕ)
  | string (bytes : List UInt8)
  | table (entries : List (Value Prototype × Value Prototype))
  | closure (prototype : Prototype) (upvalues : List (Option ℕ))
  | cClosure
  | lightFunction
  | rotable
  | userdata (helper : Option Helper)
  | lightUserdata
  | thread

variable {Prototype : Type}

/-- The two endpoints, and what the code for values relies on. -/
structure Link (Prototype : Type) where
  sender : Endpoint
  receiver : Endpoint
  undefined : UndefinedCast
  /-- The dump of a function for the format. -/
  dump : Prototype → List UInt8
  /-- `luaL_loadbuffer`: a function, or a message. -/
  load : List UInt8 → Prototype ⊕ List UInt8
  /-- The number of upvalues of a function. -/
  nups : Prototype → ℕ
  /-- What the globals of the receiver hold under a dotted name, if looking it up raises no error.
  -/
  index : List UInt8 → Option (Value Prototype)
  /-- The string of a number. -/
  numberString : ℕ → List UInt8

variable (link : Link Prototype)

/-- The transport of the sender. -/
def Link.senderTpt : Transport := link.sender.transport (commonFormat link.sender link.receiver)

/-- The transport of the receiver. -/
def Link.receiverTpt : Transport := link.receiver.transport (commonFormat link.sender link.receiver)

/-! ### Tags -/

/-- `RPC_NIL`. -/
def rpcNil : UInt8 := 0

/-- `RPC_NUMBER`. -/
def rpcNumber : UInt8 := 1

/-- `RPC_BOOLEAN`. -/
def rpcBoolean : UInt8 := 2

/-- `RPC_STRING`. -/
def rpcString : UInt8 := 3

/-- `RPC_TABLE`. -/
def rpcTable : UInt8 := 4

/-- `RPC_TABLE_END`. -/
def rpcTableEnd : UInt8 := 5

/-- `RPC_FUNCTION`. -/
def rpcFunction : UInt8 := 6

/-- `RPC_FUNCTION_END`. -/
def rpcFunctionEnd : UInt8 := 7

/-- `RPC_REMOTE`. -/
def rpcRemote : UInt8 := 8

/-! ### Writing -/

/-- Why a value is not written: a Lua error with a message, or what the code does is not defined. -/
inductive Stop
  | raised (message : String)
  | undefined
  deriving DecidableEq, Repr

/-- `transport_write_u32`. -/
def transportWriteU32 (tpt : Transport) (x : ℕ) : List UInt8 :=
  tpt.swapBytes (inMemory tpt.locLittle 4 x)

/-- The length and the bytes of a string. The length goes through an `int`. -/
def writeString (bytes : List UInt8) : Except Stop (List UInt8) :=
  if bytes.length < 2 ^ 31 then .ok (transportWriteU32 link.senderTpt bytes.length ++ bytes)
  else .error .undefined

/-- A string with its tag, as `write_variable` sends it. -/
def writeLuaString (bytes : List UInt8) : Except Stop (List UInt8) :=
  (writeString link bytes).map (rpcString :: ·)

/-- The case of `write_variable` for numbers. -/
def writeNumber (x : ℕ) : Except Stop (List UInt8) :=
  match transportWriteNumber link.undefined link.sender.number link.senderTpt x with
  | .ok bytes => .ok (rpcNumber :: bytes)
  | .error _ => .error .undefined

/-- The case of `write_variable` for userdata. What a helper of another link is sent as goes to that
link. -/
def writeUserdata : Option Helper → Except Stop (List UInt8)
  | some helper =>
    if helper.own then (writeString link helper.name).map (rpcRemote :: ·) else .ok [rpcRemote]
  | none => .error (.raised "userdata transmission unsupported")

mutual

/-- `write_variable`: what it sends. `write_function` takes any function for a Lua function. -/
def writeVariable : Value Prototype → Except Stop (List UInt8)
  | .number x => writeNumber link x
  | .string bytes => writeLuaString link bytes
  | .table entries => do
    let bytes ← writeTable entries
    pure (rpcTable :: (bytes ++ [rpcTableEnd]))
  | .nil => .ok [rpcNil]
  | .boolean value => .ok [rpcBoolean, value.toUInt8]
  | .closure prototype _ => do
    let bytes ← writeLuaString link (link.dump prototype)
    pure (rpcFunction :: (bytes ++ [rpcFunctionEnd]))
  | .cClosure => .error .undefined
  | .userdata helper => writeUserdata link helper
  | .thread => .error (.raised "thread transmission unsupported")
  | .lightUserdata => .error (.raised "light userdata transmission unsupported")
  | .lightFunction | .rotable => .ok []

/-- `write_table`. -/
def writeTable : List (Value Prototype × Value Prototype) → Except Stop (List UInt8)
  | [] => .ok []
  | (key, value) :: rest => do
    let keyBytes ← writeVariable key
    let valueBytes ← writeVariable value
    let restBytes ← writeTable rest
    pure (keyBytes ++ (valueBytes ++ restBytes))

end

/-! ### Reading -/

/-- Why a value is not read: there are no more bytes, a Lua error is raised, the tag is not known,
or what the code does is not defined. The last reason is not one of the source: the fuel is used up.
-/
inductive ReadFault
  | noData | raised | protocol | undefined | fuel
  deriving DecidableEq, Repr

/-- `transport_read_u8`. -/
def transportReadU8 : List UInt8 → Except ReadFault (UInt8 × List UInt8)
  | [] => .error .noData
  | byte :: rest => .ok (byte, rest)

/-- `transport_read_u32`. -/
def transportReadU32 (tpt : Transport) (bytes : List UInt8) : Except ReadFault (ℕ × List UInt8) :=
  if bytes.length < 4 then .error .noData
  else .ok (fromMemory tpt.locLittle (tpt.swapBytes (bytes.take 4)), bytes.drop 4)

/-- The length and the bytes of a string. -/
def readString (bytes : List UInt8) : Except ReadFault (List UInt8 × List UInt8) := do
  let (len, bytes) ← transportReadU32 link.receiverTpt bytes
  if 2 ^ 31 ≤ len then .error .undefined
  else if bytes.length < len then .error .noData
  else .ok (bytes.take len, bytes.drop len)

/-- The case of `read_variable` for numbers. -/
def readNumber (bytes : List UInt8) : Except ReadFault (ℕ × List UInt8) :=
  match transportReadNumber link.receiver.number link.receiverTpt bytes with
  | .ok result => .ok result
  | .error .noData => .error .noData
  | .error .overAccess => .error .undefined

/-- The check of `lua_rawset`: a key is neither `nil` nor `nan`. -/
def checkKey (type : LuaNumber) : Value Prototype → Except ReadFault Unit
  | .nil => .error .raised
  | .number bits => if type.isNaN bits then .error .raised else .ok ()
  | _ => .ok ()

/-- The string that `luaL_checklstring` makes of a value. -/
def chunkString : Value Prototype → Option (List UInt8)
  | .string bytes => some bytes
  | .number bits => some (link.numberString bits)
  | _ => none

/-- What `luaL_loadbuffer` pushes: a function with new upvalues, or a message. -/
def loadedChunk (bytes : List UInt8) : Value Prototype :=
  match link.load bytes with
  | .inl prototype => .closure prototype (List.replicate (link.nups prototype) none)
  | .inr message => .string message

mutual

/-- `read_variable`: the values that it pushes, `none` for an end marker, and what is left. -/
def readVariable : ℕ → List UInt8 →
    Except ReadFault (Option (List (Value Prototype)) × List UInt8)
  | 0, _ => .error .fuel
  | fuel + 1, bytes => do
    let (type, bytes) ← transportReadU8 bytes
    if type = rpcNil then pure (some [.nil], bytes)
    else if type = rpcBoolean then do
      let (byte, bytes) ← transportReadU8 bytes
      pure (some [.boolean (byte ≠ 0)], bytes)
    else if type = rpcNumber then do
      let (x, bytes) ← readNumber link bytes
      pure (some [.number x], bytes)
    else if type = rpcString then do
      let (s, bytes) ← readString link bytes
      pure (some [.string s], bytes)
    else if type = rpcTable then do
      let (entries, bytes) ← readTable fuel bytes []
      pure (some [.table entries], bytes)
    else if type = rpcTableEnd then pure (none, bytes)
    else if type = rpcFunction then do
      let (functions, bytes) ← readFunction fuel bytes []
      pure (some functions, bytes)
    else if type = rpcFunctionEnd then pure (none, bytes)
    else if type = rpcRemote then do
      let (name, bytes) ← readString link bytes
      match link.index name with
      | some value => pure (some [value], bytes)
      | none => .error .raised
    else .error .protocol

/-- `read_table`, with the entries set so far. Where a value is missing, `lua_rawset` takes what is
below. -/
def readTable : ℕ → List UInt8 → List (Value Prototype × Value Prototype) →
    Except ReadFault (List (Value Prototype × Value Prototype) × List UInt8)
  | 0, _, _ => .error .fuel
  | fuel + 1, bytes, entries => do
    match ← readVariable fuel bytes with
    | (none, bytes) => pure (entries, bytes)
    | (some [key], bytes) =>
      match ← readVariable fuel bytes with
      | (some [value], bytes) => do
        checkKey link.receiver.number key
        readTable fuel bytes (entries ++ [(key, value)])
      | _ => .error .undefined
    | _ => .error .undefined

/-- `read_function`, with the functions pushed so far. -/
def readFunction : ℕ → List UInt8 → List (Value Prototype) →
    Except ReadFault (List (Value Prototype) × List UInt8)
  | 0, _, _ => .error .fuel
  | fuel + 1, bytes, functions => do
    match ← readVariable fuel bytes with
    | (none, bytes) => pure (functions, bytes)
    | (some [chunk], bytes) =>
      match chunkString link chunk with
      | some b => readFunction fuel bytes (functions ++ [loadedChunk link b])
      | none => .error .raised
    | _ => .error .undefined

end

end Elua.LuaRpc
