import Elua.Foundation.FloatFormat
import Elua.Lua.Dump
import Elua.Lua.Zio

/-!
# Loading precompiled chunks

`lundump.c`. A load runs over a `LoadState`: the stream, what the header said (`swap`, `numsize`,
`toflt`), the count `total` of bytes behind the header, and, for the record, the offsets at which
code and line information were found in direct mode. An error ends it with its message.
`luaUUndump` is the whole load. Memory is taken to be available.

In direct mode strings, code and line information are not copied: they are read where the base
address and the stream's offset point to.
-/

set_option autoImplicit false
set_option relaxedAutoImplicit false

namespace Elua.Lua

open Elua.Foundation

/-- `LUAI_MAXCCALLS`. -/
def luaiMaxccalls : ℕ := 200

/-- What changes in a load. -/
structure LoadState where
  zio : Zio
  swap : Bool
  numsize : ℕ
  toflt : Bool
  total : ℕ
  offsets : List ℕ

/-- What stays the same in a load: the machine, the name of the chunk, and the code verifier
`luaG_checkcode`. -/
structure Loader where
  machine : Machine
  name : String
  checkcode : Proto TargetNumber → Bool

/-- A part of a load, which an error ends with its message. -/
abbrev Load := StateT LoadState (Except String)

variable (L : Loader)

/-- `error`. -/
def loadError {α : Type} (why : String) : Load α :=
  throw (L.name ++ ": " ++ why ++ " in precompiled chunk")

/-- `LoadBlock`. -/
def loadBlock (size : ℕ) : Load (List UInt8) := do
  let S ← get
  match luaZRead S.zio size with
  | none => loadError L "unexpected end"
  | some (block, zio) =>
    set { S with zio := zio, total := S.total + size }
    pure block

/-- Reversing each of `n` groups of bytes. -/
def swapEach (size : ℕ) : ℕ → List UInt8 → List UInt8
  | 0, bytes => bytes
  | n + 1, bytes => (bytes.take size).reverse ++ swapEach size n (bytes.drop size)

/-- `LoadMem` into memory. -/
def loadMem (n size : ℕ) : Load (List UInt8) := do
  let block ← loadBlock L (n * size)
  let S ← get
  if S.swap then
    if size = 1 ∨ size = 2 ∨ size = 4 ∨ size = 8 then
      pure (swapEach size n block)
    else
      loadError L "bad size"
  else
    pure block

/-- `LoadChar`. -/
def loadChar : Load UInt8 := do
  let x ← loadMem L 1 1
  pure (UInt8.ofNat (fromMemory L.machine.littleEndian x))

/-- `Align4`, whose loop takes three turns at most. -/
def loadAlign4Loop : ℕ → Load Unit
  | 0 => pure ()
  | turns + 1 => do
    let S ← get
    if S.total % 4 = 0 then
      pure ()
    else
      let _ ← loadChar L
      loadAlign4Loop turns

/-- `Align4`. -/
def loadAlign4 : Load Unit := loadAlign4Loop L 3

/-- `LoadInt`. -/
def loadInt : Load ℤ := do
  let bytes ← loadMem L 1 4
  let x := signedValue 4 (fromMemory L.machine.littleEndian bytes)
  if x < 0 then loadError L "bad integer" else pure x

/-- The `lua_Number` that a machine has in memory. -/
def Machine.numberIn (m : Machine) (bytes : List UInt8) : TargetNumber :=
  match m.format with
  | .int8 | .int16 | .int32 | .int64 =>
    .integer (signedValue m.format.size (fromMemory m.littleEndian bytes))
  | .float => .float (UInt32.ofNat (fromMemory m.littleEndian bytes))
  | .double =>
    let bytes := if m.isArmFpa then swapHalves bytes else bytes
    .double (UInt64.ofNat (fromMemory m.littleEndian bytes))

/-- The cast of an integer to the `lua_Number` of a machine. Floating point numbers are rounded to
the nearest. -/
def Machine.ofInteger (m : Machine) (value : ℤ) : TargetNumber :=
  match m.format with
  | .float => .float (UInt32.ofNat (FloatFormat.binary32.ofInt value))
  | .double => .double (UInt64.ofNat (FloatFormat.binary64.ofInt value))
  | format => .integer (value.bmod (256 ^ format.size))

/-- `LoadNumber`. An integer of a size that no type has leaves the number undefined. -/
def loadNumber : Load TargetNumber := do
  let S ← get
  if S.toflt then
    if S.numsize = 1 ∨ S.numsize = 2 ∨ S.numsize = 4 ∨ S.numsize = 8 then
      let y ← loadMem L 1 S.numsize
      pure (L.machine.ofInteger (signedValue S.numsize (fromMemory L.machine.littleEndian y)))
    else
      pure (L.machine.ofInteger 0)
  else
    let x ← loadMem L 1 L.machine.format.size
    pure (L.machine.numberIn x)

/-- The largest string block there can be. The size is an `int32_t` that becomes a `size_t`: where
that has 64 bits, a size from `2 ^ 31` on is one that no buffer and no image has; where it has 32
bits, `newlstr` refuses what is above `MAX_SIZET - sizeof( TString )`. -/
def Machine.stringLimit (m : Machine) : ℕ := if m.wide then 2 ^ 31 - 1 else 2 ^ 32 - 3 - 16

/-- The memory in which `LoadString`, `LoadCode` and `LoadDebug` find what they do not copy: the
image from the current address on, `none` outside direct mode. -/
def Zio.crtMemory (z : Zio) : Option (List UInt8) := z.base.map (·.drop z.i)

/-- `LoadString`. -/
def loadString : Load TString := do
  let bytes ← loadMem L 1 4
  let size := fromMemory L.machine.littleEndian bytes
  if size = 0 then
    pure none
  else if L.machine.stringLimit < size then
    throw "memory allocation error: block too big"
  else do
    let S ← get
    let block ← loadBlock L size
    match S.zio.crtMemory with
    | none => pure (some (block.take (size - 1)))
    | some s => pure (some (s.take (size - 1)))

/-- The memory of an array of `n` elements of four bytes, and a note of its offset in direct
mode. -/
def loadArray (n : ℕ) : Load (List UInt8) := do
  let S ← get
  match S.zio.crtMemory with
  | none => loadMem L n 4
  | some memory =>
    let _ ← loadBlock L (n * 4)
    modify fun S' ↦ { S' with offsets := S'.offsets ++ [S.zio.i] }
    pure (memory.take (n * 4))

/-- The elements of an array of `n` numbers of four bytes in memory. -/
def Machine.elements (m : Machine) : ℕ → List UInt8 → List ℕ
  | 0, _ => []
  | n + 1, memory => fromMemory m.littleEndian (memory.take 4) :: m.elements n (memory.drop 4)

/-- `LoadCode`. -/
def loadCode : Load (List UInt32) := do
  let n ← loadInt L
  loadAlign4 L
  let memory ← loadArray L n.toNat
  pure ((L.machine.elements n.toNat memory).map UInt32.ofNat)

/-- A loop that loads `n` elements. -/
def loadEach {α : Type} (loadOne : Load α) : ℕ → Load (List α)
  | 0 => pure []
  | n + 1 => do
    let x ← loadOne
    let xs ← loadEach loadOne n
    pure (x :: xs)

/-- The part of `LoadConstants` for one constant. -/
def loadConstant : Load (Constant TargetNumber) := do
  let t ← loadChar L
  if t = luaTnil then
    pure .nil
  else if t = luaTboolean then do
    let b ← loadChar L
    pure (.boolean (b ≠ 0))
  else if t = luaTnumber then do
    let x ← loadNumber L
    pure (.number x)
  else if t = luaTstring then do
    let s ← loadString L
    pure (.string s)
  else
    loadError L "bad constant"

/-- `LoadConstants`: the constants, and the functions defined inside, each loaded by
`loadNested`. -/
def loadConstants (loadNested : Load (Proto TargetNumber)) :
    Load (List (Constant TargetNumber) × List (Proto TargetNumber)) := do
  let sizek ← loadInt L
  let k ← loadEach (loadConstant L) sizek.toNat
  let sizep ← loadInt L
  let fs ← loadEach loadNested sizep.toNat
  pure (k, fs)

/-- The part of `LoadDebug` for one local variable. -/
def loadLocVar : Load LocVar := do
  let varname ← loadString L
  let startpc ← loadInt L
  let endpc ← loadInt L
  pure { varname := varname, startpc := startpc, endpc := endpc }

/-- `LoadDebug`: the line information, the local variables and the names of the upvalues. -/
def loadDebug : Load (List ℤ × List LocVar × List TString) := do
  let sizelineinfo ← loadInt L
  loadAlign4 L
  let memory ← loadArray L sizelineinfo.toNat
  let sizelocvars ← loadInt L
  let locvars ← loadEach (loadLocVar L) sizelocvars.toNat
  let sizeupvalues ← loadInt L
  let upvalues ← loadEach (loadString L) sizeupvalues.toNat
  pure ((L.machine.elements sizelineinfo.toNat memory).map (signedValue 4), locvars, upvalues)

/-- `LoadFunction` behind the source; the functions defined inside are loaded by `loadNested`. -/
def loadFields (source : TString) (loadNested : Load (Proto TargetNumber)) :
    Load (Proto TargetNumber) := do
  let linedefined ← loadInt L
  let lastlinedefined ← loadInt L
  let nups ← loadChar L
  let numparams ← loadChar L
  let isVararg ← loadChar L
  let maxstacksize ← loadChar L
  let code ← loadCode L
  let (k, fs) ← loadConstants L loadNested
  let (lineinfo, locvars, upvalues) ← loadDebug L
  let f : Proto TargetNumber := .mk
    { source, linedefined, lastlinedefined, nups, numparams, isVararg, maxstacksize, code, k,
      lineinfo, locvars, upvalues } fs
  if L.checkcode f then pure f else loadError L "bad code"

/-- `LoadFunction`, with the number of levels by which `L->nCcalls` is below its bound. -/
def loadFunction : ℕ → TString → Load (Proto TargetNumber)
  | 0, _ => loadError L "code too deep"
  | levels + 1, p => do
    let s ← loadString L
    let source := if s = none then p else s
    loadFields L source (loadFunction levels source)

/-- `luaU_header`. -/
def luaUHeader (m : Machine) : List UInt8 := headerBytes m.target

/-- The value of a `char`. -/
def Machine.charValue (m : Machine) (c : UInt8) : ℤ :=
  if m.signedChar then signedValue 1 c.toNat else c.toNat

/-- `LoadHeader`. -/
def loadHeader : Load Unit := do
  let h := luaUHeader L.machine
  let intck := h.getD 11 0
  let s ← loadBlock L luacHeadersize
  let swap := s.getD 6 0 ≠ h.getD 6 0
  let s := s.set 6 (h.getD 6 0)
  let numsize := s.getD 10 0
  let h := h.set 10 numsize
  let toflt := L.machine.charValue (s.getD 11 0) > L.machine.charValue intck
  let s := if toflt then s.set 11 (h.getD 11 0) else s
  modify fun S ↦ { S with swap := swap, numsize := numsize.toNat, toflt := toflt }
  if h = s then pure () else loadError L "bad header"

/-- The name of a chunk in messages. -/
def chunkName (name : String) : String :=
  match name.toList with
  | '@' :: rest | '=' :: rest => String.ofList rest
  | '\x1b' :: _ => "binary string"
  | _ => name

/-- The source of a chunk that does not tell it, `"=?"`. -/
def unknownSource : TString := some [0x3D, 0x3F]

/-- `luaU_undump` at `nCcalls` nested calls: the prototype and the state that reading it leaves. -/
def luaUUndump (m : Machine) (checkcode : Proto TargetNumber → Bool) (name : String)
    (nCcalls : ℕ) (z : Zio) : Except String (Proto TargetNumber × LoadState) :=
  let L : Loader := { machine := m, name := chunkName name, checkcode := checkcode }
  let load : Load (Proto TargetNumber) := do
    loadHeader L
    modify fun S ↦ { S with total := 0 }
    loadFunction L (luaiMaxccalls - nCcalls) unknownSource
  load.run { zio := z, swap := false, numsize := 0, toflt := false, total := 0, offsets := [] }

end Elua.Lua
