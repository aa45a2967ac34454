import Elua.Foundation.ByteOrder
import Elua.Foundation.FloatFormat

/-!
# Numbers on the link

The types that `lua_Number` has in the builds of eLua, their values and their conversions, and the
two functions that write a number to the transport and read one from it (`transportWriteNumber`,
`transportReadNumber`). An access past the value that is written or the buffer that is read is a
fault.

In the memory of an endpoint a number is the bytes of its bits in the byte order of the endpoint. On
the link the bytes are in the order of the network (`transportWriteNumber_integer`,
`transportReadNumber_integer`). -/

set_option autoImplicit false
set_option relaxedAutoImplicit false

namespace Elua.LuaRpc

open Foundation

/-! ### The number types -/

/-- The types of `lua_Number`: integers and floating point numbers of four and eight bytes. -/
inductive LuaNumber
  | int32 | int64 | float32 | float64
  deriving DecidableEq, Repr

/-- `sizeof( lua_Number )`. -/
def LuaNumber.size : LuaNumber → ℕ
  | .int32 | .float32 => 4
  | .int64 | .float64 => 8

/-- `( ( lua_Number )0.5 ) == 0`. -/
def LuaNumber.integral : LuaNumber → Bool
  | .int32 | .int64 => true
  | .float32 | .float64 => false

/-- The integer that a number is equal to, if it is one. Numbers are given by their bits. -/
def LuaNumber.integerValue : LuaNumber → ℕ → Option ℤ
  | .int32, bits => some (signedValue 4 bits)
  | .int64, bits => some (signedValue 8 bits)
  | .float32, bits => FloatFormat.binary32.integerValue bits
  | .float64, bits => FloatFormat.binary64.integerValue bits

/-- Whether a number is `nan`. -/
def LuaNumber.isNaN : LuaNumber → ℕ → Bool
  | .int32, _ | .int64, _ => false
  | .float32, bits => FloatFormat.binary32.isNaN bits
  | .float64, bits => FloatFormat.binary64.isNaN bits

/-- The conversions that C leaves undefined, of floating point numbers out of the range of the
integer type. -/
abbrev UndefinedCast : Type := LuaNumber → ℕ → ℕ → ℕ

/-- The cast of a floating point number to an integer type of `width` bytes. -/
def castFloat (undefined : UndefinedCast) (type : LuaNumber) (format : FloatFormat)
    (width bits : ℕ) : ℕ :=
  match format.truncate bits with
  | some value =>
    if (value : ℤ).bmod (256 ^ width) = value then residue width value
    else undefined type width bits % 256 ^ width
  | none => undefined type width bits % 256 ^ width

/-- `( intN_t )x`: the bits of the integer. -/
def LuaNumber.castToInt (undefined : UndefinedCast) (type : LuaNumber) (width bits : ℕ) : ℕ :=
  match type with
  | .int32 => residue width (signedValue 4 bits)
  | .int64 => residue width (signedValue 8 bits)
  | .float32 => castFloat undefined type .binary32 width bits
  | .float64 => castFloat undefined type .binary64 width bits

/-- `( lua_Number )y`. -/
def LuaNumber.castFromInt (type : LuaNumber) (value : ℤ) : ℕ :=
  match type with
  | .int32 => residue 4 value
  | .int64 => residue 8 value
  | .float32 => FloatFormat.binary32.ofInt value
  | .float64 => FloatFormat.binary64.ofInt value

/-! ### Reading and writing -/

/-- The fields of `Transport` that tell how numbers are sent. -/
structure Transport where
  locLittle : Bool
  locIntnum : Bool
  netLittle : Bool
  netIntnum : Bool
  lnumBytes : ℕ
  deriving DecidableEq, Repr

/-- Why a number is not sent or received: there are no more bytes on the link, or memory is accessed
past the end of the value or the buffer. -/
inductive Fault
  | noData | overAccess
  deriving DecidableEq, Repr

/-- `swap_bytes`, if the network and the endpoint differ in their byte orders. -/
def Transport.swapBytes (tpt : Transport) (bytes : List UInt8) : List UInt8 :=
  if tpt.netLittle ≠ tpt.locLittle then bytes.reverse else bytes

/-- The sizes that the cases of both functions handle. -/
def integerWidths : List ℕ := [1, 2, 4, 8]

/-- `transport_write_number`: the bytes that are sent. -/
def transportWriteNumber (undefined : UndefinedCast) (type : LuaNumber) (tpt : Transport) (x : ℕ) :
    Except Fault (List UInt8) :=
  if tpt.netIntnum then
    if tpt.lnumBytes ∈ integerWidths then
      .ok (tpt.swapBytes (inMemory tpt.locLittle tpt.lnumBytes
        (type.castToInt undefined tpt.lnumBytes x)))
    else .ok []
  else if type.size < 8 then .error .overAccess
  else .ok (tpt.swapBytes ((inMemory tpt.locLittle type.size x).take 8))

/-- `transport_read_number`: the number, and what is left on the link. -/
def transportReadNumber (type : LuaNumber) (tpt : Transport) (link : List UInt8) :
    Except Fault (ℕ × List UInt8) :=
  if link.length < tpt.lnumBytes then .error .noData
  else
    let b := tpt.swapBytes (link.take tpt.lnumBytes)
    let rest := link.drop tpt.lnumBytes
    if tpt.netIntnum ≠ tpt.locIntnum then
      if tpt.lnumBytes ∈ integerWidths then
        .ok (type.castFromInt (signedValue tpt.lnumBytes (fromMemory tpt.locLittle b)), rest)
      else .ok (type.castFromInt 0, rest)
    else if tpt.lnumBytes < type.size then .error .overAccess
    else .ok (fromMemory tpt.locLittle (b.take type.size), rest)

/-! ### What is on the link -/

variable (undefined : UndefinedCast) (type : LuaNumber) {tpt : Transport}

theorem inMemory_swapped (tpt : Transport) (width value : ℕ) :
    tpt.swapBytes (inMemory tpt.locLittle width value) = inMemory tpt.netLittle width value := by
  unfold Transport.swapBytes
  split_ifs with hdiffer
  · rw [reverse_inMemory, ← Bool.eq_not_of_ne hdiffer]
  · rw [not_not.mp hdiffer]

theorem swapped_inMemory (tpt : Transport) (width value : ℕ) :
    tpt.swapBytes (inMemory tpt.netLittle width value) = inMemory tpt.locLittle width value := by
  unfold Transport.swapBytes
  split_ifs with hdiffer
  · rw [reverse_inMemory, ← Bool.eq_not_of_ne (Ne.symm hdiffer)]
  · rw [not_not.mp hdiffer]

/-- In an integer format, the bytes of the integer are sent. -/
theorem transportWriteNumber_integer (hnet : tpt.netIntnum = true)
    (hwidth : tpt.lnumBytes ∈ integerWidths) (x : ℕ) :
    transportWriteNumber undefined type tpt x =
      .ok (inMemory tpt.netLittle tpt.lnumBytes (type.castToInt undefined tpt.lnumBytes x)) := by
  unfold transportWriteNumber
  rw [if_pos hnet, if_pos hwidth, inMemory_swapped]

/-- In a floating point format, the eight bytes of the number are sent, if there are eight. -/
theorem transportWriteNumber_float (hnet : tpt.netIntnum = false) (x : ℕ) :
    transportWriteNumber undefined type tpt x =
      if type.size < 8 then .error .overAccess else .ok (inMemory tpt.netLittle type.size x) := by
  unfold transportWriteNumber
  rw [if_neg (Bool.eq_false_iff.mp hnet)]
  split_ifs with hshort
  · rfl
  · have hsize : type.size = 8 := by cases type <;> simp [LuaNumber.size] at hshort ⊢
    rw [List.take_of_length_le (by rw [length_inMemory, hsize]), inMemory_swapped]

theorem transportReadNumber_sent (bits : ℕ) (rest : List UInt8) :
    transportReadNumber type tpt (inMemory tpt.netLittle tpt.lnumBytes bits ++ rest) =
      if tpt.netIntnum ≠ tpt.locIntnum then
        if tpt.lnumBytes ∈ integerWidths then
          .ok (type.castFromInt (signedValue tpt.lnumBytes (bits % 256 ^ tpt.lnumBytes)), rest)
        else .ok (type.castFromInt 0, rest)
      else if tpt.lnumBytes < type.size then .error .overAccess
      else .ok (fromMemory tpt.locLittle
        ((inMemory tpt.locLittle tpt.lnumBytes bits).take type.size), rest) := by
  have hlength := length_inMemory tpt.netLittle tpt.lnumBytes bits
  unfold transportReadNumber
  rw [if_neg (by rw [List.length_append, hlength]; omega), List.take_left' hlength,
    List.drop_left' hlength]
  dsimp only
  rw [swapped_inMemory, fromMemory_inMemory]

/-- An endpoint of the other kind than the network reads an integer. -/
theorem transportReadNumber_integer (hdiffer : tpt.netIntnum ≠ tpt.locIntnum)
    (hwidth : tpt.lnumBytes ∈ integerWidths) (bits : ℕ) (rest : List UInt8) :
    transportReadNumber type tpt (inMemory tpt.netLittle tpt.lnumBytes bits ++ rest) =
      .ok (type.castFromInt (signedValue tpt.lnumBytes (bits % 256 ^ tpt.lnumBytes)), rest) := by
  rw [transportReadNumber_sent, if_pos hdiffer, if_pos hwidth]

/-- An endpoint of the same kind reads its own numbers, if they have the size of the format. -/
theorem transportReadNumber_native (hsame : tpt.netIntnum = tpt.locIntnum)
    (hsize : tpt.lnumBytes = type.size) (bits : ℕ) (rest : List UInt8) :
    transportReadNumber type tpt (inMemory tpt.netLittle tpt.lnumBytes bits ++ rest) =
      .ok (bits % 256 ^ type.size, rest) := by
  rw [transportReadNumber_sent, if_neg (not_not.mpr hsame), if_neg (by omega), hsize,
    List.take_of_length_le (Nat.le_of_eq (length_inMemory ..)), fromMemory_inMemory]

/-- It accesses memory past the buffer if they are larger. -/
theorem transportReadNumber_overAccess (hsame : tpt.netIntnum = tpt.locIntnum)
    (hsize : tpt.lnumBytes < type.size) {link : List UInt8} (hlink : tpt.lnumBytes ≤ link.length) :
    transportReadNumber type tpt link = .error .overAccess := by
  unfold transportReadNumber
  rw [if_neg (by omega)]
  dsimp only
  rw [if_neg (not_not.mpr hsame), if_pos hsize]

/-! ### Integers that are cast -/

theorem bmod_signedValue (width bits : ℕ) :
    (signedValue width bits).bmod (256 ^ width) = signedValue width bits :=
  Int.bmod_bmod ..

/-- The bits of a signed number of its own size. -/
theorem residue_signedValue {width bits : ℕ} (hbits : bits < 256 ^ width) :
    residue width (signedValue width bits) = bits := by
  unfold residue signedValue
  rw [Int.bmod_emod, ← Int.natCast_emod, Int.toNat_natCast, Nat.mod_eq_of_lt hbits]

/-- An integer that both an integral and a floating point type can represent is cast to the latter.
-/
theorem integerValue_castFromInt {value : ℤ} (hvalue : value.bmod (256 ^ 8) = value)
    (hfloat : type.integral = false) {bits : ℕ} (hbits : type.integerValue bits = some value) :
    type.integerValue (type.castFromInt value) = some value := by
  have hlog : Nat.log 2 value.natAbs ≤ 63 := by
    have hlow := Int.le_bmod (x := value) (m := 256 ^ 8) (by decide)
    have hhigh := Int.bmod_lt (x := value) (m := 256 ^ 8) (by decide)
    rw [hvalue] at hlow hhigh
    by_cases hzero : value.natAbs = 0
    · rw [hzero, Nat.log_zero_right]
      omega
    · exact Nat.le_of_lt_succ (Nat.log_lt_of_lt_pow hzero (by omega))
  cases type with
  | int32 => cases hfloat
  | int64 => cases hfloat
  | float32 =>
    exact FloatFormat.integerValue_ofInt (FloatFormat.exactIn_of_integerValue hbits) (by
      have hbias : FloatFormat.binary32.bias = 127 := rfl
      have hwidth : FloatFormat.binary32.exponentBits = 8 := rfl
      rw [hbias, hwidth]
      omega)
  | float64 =>
    exact FloatFormat.integerValue_ofInt (FloatFormat.exactIn_of_integerValue hbits) (by
      have hbias : FloatFormat.binary64.bias = 1023 := rfl
      have hwidth : FloatFormat.binary64.exponentBits = 11 := rfl
      rw [hbias, hwidth]
      omega)

end Elua.LuaRpc
