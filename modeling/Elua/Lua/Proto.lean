import Elua.Foundation.ByteOrder

/-!
# Function prototypes, machines and number formats

The prototype of a Lua function (`lobject.h`) is a tree: `FunctionBody` holds what one function
has of its own and `Proto` adds the functions nested in it. Both are generic in the type of
numbers, so that the compiler's prototypes (`Host`) and those a target machine loads (`Machine`,
`TargetNumber`) are the same data. `Proto.map` converts one function after the other, `functions`
lists them and `depth` is how deep they are nested.
-/

set_option autoImplicit false
set_option relaxedAutoImplicit false

namespace Elua.Lua

open Elua.Foundation

/-! ### Prototypes -/

/-- A string by its bytes. `NULL` is `none`; strings are interned, so equal bytes are equal
pointers. -/
abbrev TString := Option (List UInt8)

/-- A constant of a function. -/
inductive Constant (Number : Type) where
  | nil
  | boolean (value : Bool)
  | number (value : Number)
  | string (value : TString)
  deriving DecidableEq

/-- Information about a local variable. -/
structure LocVar where
  varname : TString
  startpc : ℤ
  endpc : ℤ
  deriving DecidableEq

/-- What a prototype holds besides the functions defined inside it. -/
structure FunctionBody (Number : Type) where
  source : TString
  linedefined : ℤ
  lastlinedefined : ℤ
  nups : UInt8
  numparams : UInt8
  isVararg : UInt8
  maxstacksize : UInt8
  code : List UInt32
  k : List (Constant Number)
  lineinfo : List ℤ
  locvars : List LocVar
  upvalues : List TString
  deriving DecidableEq

/-- A prototype: a function and the functions `p` defined inside it. -/
inductive Proto (Number : Type) where
  | mk (body : FunctionBody Number) (p : List (Proto Number))

namespace Proto

variable {Number Other : Type}

/-- The function at the root of a prototype. -/
def body : Proto Number → FunctionBody Number
  | mk body _ => body

/-- The functions defined inside the one at the root. -/
def nested : Proto Number → List (Proto Number)
  | mk _ p => p

mutual

/-- The functions of a prototype: itself, and all that are nested in it at any depth. -/
def functions : Proto Number → List (Proto Number)
  | mk body p => mk body p :: functionsOf p

/-- The functions of several prototypes. -/
def functionsOf : List (Proto Number) → List (Proto Number)
  | [] => []
  | f :: fs => functions f ++ functionsOf fs

end

mutual

/-- How deep functions are nested in a prototype, itself counted. -/
def depth : Proto Number → ℕ
  | mk _ p => depthOf p + 1

/-- The greatest depth among prototypes. -/
def depthOf : List (Proto Number) → ℕ
  | [] => 0
  | f :: fs => max (depth f) (depthOf fs)

end

mutual

/-- A prototype with every function converted. -/
def map (convert : FunctionBody Number → FunctionBody Other) : Proto Number → Proto Other
  | mk body p => mk (convert body) (mapAll convert p)

/-- Prototypes with every function converted. -/
def mapAll (convert : FunctionBody Number → FunctionBody Other) :
    List (Proto Number) → List (Proto Other)
  | [] => []
  | f :: fs => map convert f :: mapAll convert fs

end

@[simp] theorem length_mapAll (convert : FunctionBody Number → FunctionBody Other)
    (fs : List (Proto Number)) : (mapAll convert fs).length = fs.length := by
  induction fs with
  | nil => rfl
  | cons f fs ih => rw [mapAll, List.length_cons, List.length_cons, ih]

@[simp] theorem body_map (convert : FunctionBody Number → FunctionBody Other)
    (f : Proto Number) : (f.map convert).body = convert f.body := by
  cases f
  rfl

@[simp] theorem nested_map (convert : FunctionBody Number → FunctionBody Other)
    (f : Proto Number) : (f.map convert).nested = mapAll convert f.nested := by
  cases f
  rfl

mutual

/-- Converting a prototype converts each of its functions. -/
theorem functions_map (convert : FunctionBody Number → FunctionBody Other) :
    ∀ f : Proto Number, (f.map convert).functions = f.functions.map (map convert)
  | mk body p => by
    rw [map, functions, functions, List.map_cons, functionsOf_mapAll convert p, map]

theorem functionsOf_mapAll (convert : FunctionBody Number → FunctionBody Other) :
    ∀ fs : List (Proto Number),
      functionsOf (mapAll convert fs) = (functionsOf fs).map (map convert)
  | [] => rfl
  | f :: fs => by
    rw [mapAll, functionsOf, functionsOf, List.map_append, functions_map convert f,
      functionsOf_mapAll convert fs]

end

mutual

/-- Converting a prototype keeps its depth. -/
theorem depth_map (convert : FunctionBody Number → FunctionBody Other) :
    ∀ f : Proto Number, (f.map convert).depth = f.depth
  | mk body p => by rw [map, depth, depth, depthOf_mapAll convert p]

theorem depthOf_mapAll (convert : FunctionBody Number → FunctionBody Other) :
    ∀ fs : List (Proto Number), depthOf (mapAll convert fs) = depthOf fs
  | [] => rfl
  | f :: fs => by
    rw [mapAll, depthOf, depthOf, depth_map convert f, depthOf_mapAll convert fs]

end

end Proto

/-! ### Numbers and machines -/

/-- The types a `lua_Number` can have. -/
inductive NumberFormat where
  | int8
  | int16
  | int32
  | int64
  | float
  | double
  deriving DecidableEq

/-- `sizeof( lua_Number )`. -/
def NumberFormat.size : NumberFormat → ℕ
  | int8 => 1
  | int16 => 2
  | int32 => 4
  | int64 => 8
  | float => 4
  | double => 8

/-- Whether one half is zero, `( ( lua_Number )0.5 ) == 0`. -/
def NumberFormat.integral : NumberFormat → Bool
  | int8 | int16 | int32 | int64 => true
  | float | double => false

/-- A value of the target's number type: an integer, or the bits of a floating point number. -/
inductive TargetNumber where
  | integer (value : ℤ)
  | float (bits : UInt32)
  | double (bits : UInt64)
  deriving DecidableEq

/-- The machine that dumps: its byte order, whether its numbers are integral
(`LUA_NUMBER_INTEGRAL` without `LUA_CROSS_COMPILER`), and the C conversions of its numbers.
`equalsFloatOfInt` is the test `( ( float )( int )x ) == x`. -/
structure Host (Number : Type) where
  littleEndian : Bool
  integral : Bool
  toInt : Number → ℤ
  toLongLong : Number → ℤ
  equalsFloatOfInt : Number → Bool
  toFloat : Number → UInt32
  toDouble : Number → UInt64

/-- Info about the target machine for cross-compilation (`lundump.h`). -/
structure DumpTargetInfo where
  littleEndian : Bool
  sizeofInt : ℕ
  sizeofStrsizeT : ℕ
  sizeofLuaNumber : ℕ
  luaNumberIntegral : Bool
  isArmFpa : Bool

/-- The machine that loads: its byte order and number format, whether it keeps the halves of a
double in the order of the ARM FPA, whether a `size_t` has 64 bits rather than 32, and whether
`char` is signed. Its `int` has 4 bytes. -/
structure Machine where
  littleEndian : Bool
  format : NumberFormat
  isArmFpa : Bool
  wide : Bool
  signedChar : Bool

/-- The target description of a machine. -/
def Machine.target (m : Machine) : DumpTargetInfo where
  littleEndian := m.littleEndian
  sizeofInt := 4
  sizeofStrsizeT := 4
  sizeofLuaNumber := m.format.size
  luaNumberIntegral := m.format.integral
  isArmFpa := m.isArmFpa

/-- A number of the host converted to the number type of a target. -/
def Host.convert {Number : Type} (host : Host Number) (format : NumberFormat) (x : Number) :
    TargetNumber :=
  match format with
  | .int8 => .integer ((host.toInt x).bmod (256 ^ 1))
  | .int16 => .integer ((host.toInt x).bmod (256 ^ 2))
  | .int32 => .integer ((host.toInt x).bmod (256 ^ 4))
  | .int64 => .integer (host.toLongLong x)
  | .float => .float (host.toFloat x)
  | .double => .double (host.toDouble x)

/-! ### The header -/

/-- `LUA_SIGNATURE`, `"\033Lua"`. -/
def luaSignature : List UInt8 := [0x1B, 0x4C, 0x75, 0x61]

/-- `LUAC_VERSION`. -/
def luacVersion : UInt8 := 0x51

/-- `LUAC_FORMAT`. -/
def luacFormat : UInt8 := 0

/-- `LUAC_HEADERSIZE`. -/
def luacHeadersize : ℕ := 12

/-- `sizeof( Instruction )`. -/
def sizeofInstruction : ℕ := 4

/-- `LUA_TNIL`. -/
def luaTnil : UInt8 := 0

/-- `LUA_TBOOLEAN`. -/
def luaTboolean : UInt8 := 1

/-- `LUA_TNUMBER`. -/
def luaTnumber : UInt8 := 5

/-- `LUA_TSTRING`. -/
def luaTstring : UInt8 := 6

/-- `ttype` of a constant. -/
def Constant.ttype {Number : Type} : Constant Number → UInt8
  | nil => luaTnil
  | boolean _ => luaTboolean
  | number _ => luaTnumber
  | string _ => luaTstring

end Elua.Lua
