import Elua.Foundation.BitFields
import Elua.Foundation.ByteOrder
import Elua.Foundation.CString
import Elua.Foundation.Loop
import Elua.Foundation.Overwrite

/-!
# Storage of a bitarray

A bitarray keeps its elements in the bytes behind its header: several to a byte, the first one in
the high bits, if an element has fewer than 8 bits, and as numbers of the machine otherwise.
`bitarrayNew` computes the number of bytes in 32 bits, and every access computes its own position.
An access outside of the block that was allocated has the result `Failure.outside`. Elements of 16
and 32 bits lie at odd addresses: `Failure.misaligned` is an access to one on a machine that has no
numbers there.

`bitarrayNew_ok` says what an accepted array is: its element size is a power of two up to 32, and
its block has the bytes of the size modulo 2 ^ 32.
-/

set_option autoImplicit false
set_option relaxedAutoImplicit false

namespace Elua.Bitarray

open Foundation

/-! ### Arguments and arrays -/

/-- A string of Lua. Its length is a `size_t`. -/
abbrev LuaString : Type := { bytes : List UInt8 // bytes.length < 2 ^ 32 }

/-- A table or a rotable: its length, which is an `int`, and the integers that `lua_tointeger` gives
for its elements. -/
structure LuaArray where
  objlen : ℕ
  objlen_lt : objlen < 2 ^ 31
  geti : ℕ → Int32

/-- An argument as the module looks at it. -/
inductive Arg
  | number (n : Int32)
  | string (s : LuaString)
  | table (t : LuaArray)
  | other

/-- The strings that Lua takes for numbers, with their integers. Each has a character other than
zero. -/
structure Numerals where
  integer : List UInt8 → Option Int32
  nonzero : ∀ bytes n, integer bytes = some n → ∃ byte ∈ bytes, byte ≠ 0

/-- `lua_isnumber` with `luaL_checkinteger`. -/
def Arg.integer (numerals : Numerals) : Arg → Option Int32
  | .number n => some n
  | .string s => numerals.integer s.val
  | _ => none

/-- The order of the bytes of a number, and whether numbers may lie at any address. -/
structure Machine where
  littleEndian : Bool
  unaligned : Bool

/-- Why an operation has no result: an error with its message, an access outside of the block, or
one to a number at an address where the machine has none. -/
inductive Failure
  | luaError (message : String)
  | outside
  | misaligned
  deriving DecidableEq

/-- `bitarray_t`, with the bytes of the block from `values` on. -/
structure BitArray where
  capacity : UInt32
  elsize : UInt8
  values : List UInt8

/-- An array with other contents. -/
def BitArray.withValues (pa : BitArray) (values : List UInt8) : BitArray := { pa with values }

/-- `ROUND_SIZE`. -/
def roundSize (s : UInt32) : UInt32 := (s >>> 3) + (if s &&& 7 ≠ 0 then 1 else 0)

/-- The bytes that the elements take. -/
def BitArray.total (pa : BitArray) : UInt32 := roundSize (pa.capacity * pa.elsize.toUInt32)

/-- `bitarray_index_shift`. -/
def indexShift (elsize : UInt8) : UInt32 := [0, 3, 2, 0, 1].getD elsize.toNat 0

/-- `bitarray_index_mask`. -/
def indexMask (elsize : UInt8) : UInt32 := [0, 0x01, 0x03, 0, 0x0F].getD elsize.toNat 0

/-! ### Construction -/

/-- The block from `values` on: `sizeof( bitarray_t )` is 8 and `values` lies at 5, so there are two
bytes more than asked for. A new block holds anything. -/
def newBlock (fresh : ℕ → UInt8) (total : UInt32) : List UInt8 :=
  (List.range (total.toNat + 2)).map fresh

/-- The element size that is asked for. -/
def elementSize (numerals : Numerals) (arg : Arg) : UInt8 :=
  match arg.integer numerals with
  | some n => n.toUInt32.toUInt8
  | none => 8

/-- The capacity for `temp` bytes. -/
def capacityOf (elsize : UInt8) (temp : UInt32) : Except Failure UInt32 :=
  if elsize = 0 then .error (.luaError "length is zero.")
  else if (temp <<< 3) % elsize.toUInt32 ≠ 0 then
    .error (.luaError "length is not a multiple of element size.")
  else .ok ((temp <<< 3) / elsize.toUInt32)

/-- The end of `bitarray_new`, where `init` writes the first contents. -/
def create (fresh : ℕ → UInt8) (elsize : UInt8) (capacity : UInt32)
    (init : UInt32 → List UInt8 → List UInt8) : Except Failure BitArray :=
  if elsize = 0 ∨ 32 < elsize ∨ elsize &&& (elsize - 1) ≠ 0 then
    .error (.luaError "invalid element size.")
  else
    let total := roundSize (capacity * elsize.toUInt32)
    if total = 0 then .error (.luaError "invalid arguments.")
    else .ok ⟨capacity, elsize, init total (newBlock fresh total)⟩

/-- The loop that copies a table. What falls behind the block is not part of the array. -/
def copyArray (t : LuaArray) (values : List UInt8) : List UInt8 :=
  (List.range t.objlen).foldl
    (fun values i ↦ values.set i (t.geti (i + 1)).toUInt32.toUInt8) values

/-- `bitarray_new`. What `memcpy` writes behind the block is not part of the array. -/
def bitarrayNew (numerals : Numerals) (fresh : ℕ → UInt8) (arg1 arg2 arg3 : Arg) :
    Except Failure BitArray :=
  let elsize := elementSize numerals arg2
  match arg1.integer numerals with
  | some n =>
    let fill := match arg3.integer numerals with
      | some n => n.toUInt32.toUInt8
      | none => 0
    create fresh elsize n.toUInt32 fun total values ↦
      overwrite values 0 (List.replicate total.toNat fill)
  | none =>
    match arg1 with
    | .string s => do
      let capacity ← capacityOf elsize (.ofNat s.val.length)
      create fresh elsize capacity fun _ values ↦ overwrite values 0 s.val
    | .table t => do
      let capacity ← capacityOf elsize (.ofNat t.objlen)
      create fresh elsize capacity fun _ values ↦ copyArray t values
    | _ => .error (.luaError "invalid arguments.")

/-! ### Elements -/

/-- The number of elements in a byte: `mask` in `bitarray_getval` and `bitarray_set`. -/
def perByte (elsize : UInt8) : UInt8 := ((1 : UInt32) <<< indexShift elsize).toUInt8

/-- The distance of an element from bit 0 of its byte. -/
def elementShift (elsize : UInt8) (idx : UInt32) : UInt32 :=
  let mask := perByte elsize
  let rest := (idx &&& (mask - 1).toUInt32).toUInt8
  (mask - 1 - rest).toUInt32 * elsize.toUInt32

/-- An access to an element of `width` bytes. The block is aligned to 8 bytes and `values` lies at 5,
so no element of two or four bytes is aligned. -/
def access {α : Type} (machine : Machine) (width : ℕ) (values : List UInt8) (idx : UInt32)
    (result : α) : Except Failure α :=
  if idx.toNat * width + width ≤ values.length then
    if width = 1 ∨ machine.unaligned then .ok result else .error .misaligned
  else .error .outside

/-- The machine has numbers of the element size where the elements lie. -/
def Machine.Allows (machine : Machine) (elsize : UInt8) : Prop :=
  elsize < 16 ∨ machine.unaligned = true

/-- Reads an element of `width` bytes. -/
def loadElement (machine : Machine) (width : ℕ) (values : List UInt8) (idx : UInt32) :
    Except Failure UInt32 :=
  access machine width values idx
    (.ofNat (fromMemory machine.littleEndian (segment values (idx.toNat * width) width)))

/-- Writes an element of `width` bytes. -/
def storeElement (machine : Machine) (width : ℕ) (values : List UInt8) (idx newval : UInt32) :
    Except Failure (List UInt8) :=
  access machine width values idx
    (overwrite values (idx.toNat * width) (inMemory machine.littleEndian width newval.toNat))

/-- The byte at a position of the block. -/
def loadByte (values : List UInt8) (shift : UInt32) : Except Failure UInt8 :=
  match values[shift.toNat]? with
  | some byte => .ok byte
  | none => .error .outside

/-- `bitarray_getval`. -/
def bitarrayGetval (machine : Machine) (pa : BitArray) (idx : UInt32) : Except Failure UInt32 :=
  let idx := idx - 1
  if pa.elsize < 8 then do
    let val ← loadByte pa.values (idx >>> indexShift pa.elsize)
    .ok ((val.toUInt32 >>> elementShift pa.elsize idx) &&& indexMask pa.elsize)
  else if pa.elsize = 8 then loadElement machine 1 pa.values idx
  else if pa.elsize = 16 then loadElement machine 2 pa.values idx
  else if pa.elsize = 32 then loadElement machine 4 pa.values idx
  else .ok 0

/-- The bytes after `bitarray_set` of a valid index. -/
def setval (machine : Machine) (pa : BitArray) (idx newval : UInt32) :
    Except Failure (List UInt8) :=
  let idx := idx - 1
  if pa.elsize < 8 then do
    let shift := idx >>> indexShift pa.elsize
    let byte ← loadByte pa.values shift
    let val := byte.toUInt32 &&& ~~~(indexMask pa.elsize <<< elementShift pa.elsize idx)
    let val := val ||| newval <<< elementShift pa.elsize idx
    .ok (pa.values.set shift.toNat val.toUInt8)
  else if pa.elsize = 8 then storeElement machine 1 pa.values idx newval
  else if pa.elsize = 16 then storeElement machine 2 pa.values idx newval
  else if pa.elsize = 32 then storeElement machine 4 pa.values idx newval
  else .ok pa.values

/-- `bitarray_get`. -/
def bitarrayGet (machine : Machine) (pa : BitArray) (key : Int32) : Except Failure Int32 :=
  let idx := key.toUInt32
  if idx ≤ 0 ∨ pa.capacity < idx then .error (.luaError "invalid index.")
  else (bitarrayGetval machine pa idx).map UInt32.toInt32

/-- `bitarray_set`. -/
def bitarraySet (machine : Machine) (pa : BitArray) (key newval : Int32) :
    Except Failure BitArray :=
  let idx := key.toUInt32
  if idx ≤ 0 ∨ pa.capacity < idx then .error (.luaError "invalid index.")
  else (setval machine pa idx newval.toUInt32).map pa.withValues

/-- `bitarray_iter`: the next index with its value, if there is one. -/
def bitarrayIter (machine : Machine) (pa : BitArray) (key : Int32) :
    Except Failure (Option (Int32 × Int32)) :=
  let idx := key.toUInt32 + 1
  if idx ≤ pa.capacity then
    (bitarrayGetval machine pa idx).map fun val ↦ some (idx.toInt32, val.toInt32)
  else .ok none

/-! ### Conversions -/

/-- The text `raw`. -/
def rawText : List UInt8 := [114, 97, 119]

/-- The text `seq`. -/
def seqText : List UInt8 := [115, 101, 113]

/-- Whether the text of a mode asks for the raw bytes. -/
def unpackRaw (ptextmode : Option CString) : Except Failure Bool :=
  match ptextmode with
  | none => .ok false
  | some text =>
    if strcmp text.bytes rawText = 0 then .ok true
    else if strcmp text.bytes seqText = 0 then .ok false
    else .error (.luaError "invalid mode string.")

/-- The loop over the elements of `bitarray_tostring` and `bitarray_totable`, which gather what they
make of the values. -/
def seqBody {Item : Type} (machine : Machine) (pa : BitArray) (item : UInt32 → Item) :
    UInt32 × List Item → Option (UInt32 × List Item ⊕ Except Failure (List Item))
  | (idx, out) => some <|
    if idx ≤ pa.capacity then
      match bitarrayGetval machine pa idx with
      | .ok val => .inl (idx + 1, out ++ [item val])
      | .error failure => .inr (.error failure)
    else .inr (.ok out)

/-- The bytes of the elements. -/
def rawBytes (pa : BitArray) : Except Failure (List UInt8) :=
  if pa.total.toNat ≤ pa.values.length then .ok (pa.values.take pa.total.toNat)
  else .error .outside

/-- The result of a conversion: the elements one by one, or the raw bytes. -/
def unpack {Item : Type} (machine : Machine) (pa : BitArray) (ptextmode : Option CString)
    (item : UInt32 → Item) (byte : UInt8 → Item) (fuel : ℕ) :
    Option (Except Failure (List Item)) :=
  match unpackRaw ptextmode with
  | .error failure => some (.error failure)
  | .ok true => some ((rawBytes pa).map (List.map byte))
  | .ok false =>
    if 8 < pa.elsize then some (.error (.luaError "element size too large."))
    else runLoop (seqBody machine pa item) fuel (1, [])

/-- `bitarray_tostring`. -/
def bitarrayTostring (machine : Machine) (pa : BitArray) (ptextmode : Option CString) :
    ℕ → Option (Except Failure (List UInt8)) :=
  unpack machine pa ptextmode UInt32.toUInt8 id

/-- `bitarray_totable`: the values stored at 1, 2 and so on. -/
def bitarrayTotable (machine : Machine) (pa : BitArray) (ptextmode : Option CString) :
    ℕ → Option (Except Failure (List Int32)) :=
  unpack machine pa ptextmode UInt32.toInt32 fun byte ↦ byte.toUInt32.toInt32

/-! ### What is constructed -/

/-- The element sizes that are accepted. -/
def IsElementSize (elsize : UInt8) : Prop :=
  elsize = 1 ∨ elsize = 2 ∨ elsize = 4 ∨ elsize = 8 ∨ elsize = 16 ∨ elsize = 32

instance (elsize : UInt8) : Decidable (IsElementSize elsize) :=
  inferInstanceAs (Decidable (_ ∨ _))

/-- Several elements lie in a byte. -/
def IsPacked (elsize : UInt8) : Prop := elsize = 1 ∨ elsize = 2 ∨ elsize = 4

/-- A new array has an accepted element size, and a block for the bytes of the wrapped size. -/
structure BitArray.Made (pa : BitArray) : Prop where
  elementSize : IsElementSize pa.elsize
  total_ne_zero : pa.total ≠ 0
  length : pa.values.length = pa.total.toNat + 2

theorem IsElementSize.toNat_pos {elsize : UInt8} (hsize : IsElementSize elsize) :
    0 < elsize.toNat := by
  obtain rfl | rfl | rfl | rfl | rfl | rfl := hsize <;> decide

theorem isElementSize_of_accepted : ∀ elsize : UInt8,
    ¬ (elsize = 0 ∨ 32 < elsize ∨ elsize &&& (elsize - 1) ≠ 0) → IsElementSize elsize := by
  have hall : ∀ n : Fin 256, ¬ (UInt8.ofFin n = 0 ∨ 32 < UInt8.ofFin n ∨
      UInt8.ofFin n &&& (UInt8.ofFin n - 1) ≠ 0) → IsElementSize (UInt8.ofFin n) := by
    decide +kernel
  exact fun elsize ↦ hall elsize.toFin

theorem toNat_roundSize (s : UInt32) : (roundSize s).toNat = (s.toNat + 7) / 8 := by
  have hshift : (s >>> 3).toNat = s.toNat / 8 := by
    rw [UInt32.toNat_shiftRight, Nat.shiftRight_eq_div_pow]
    rfl
  have hrest : (s &&& 7).toNat = s.toNat % 8 := by
    rw [UInt32.toNat_and]
    exact Nat.and_two_pow_sub_one_eq_mod s.toNat 3
  have hzero : s &&& 7 ≠ 0 ↔ s.toNat % 8 ≠ 0 := by
    rw [← hrest]
    exact not_congr UInt32.toNat_inj.symm
  have hlt := s.toNat_lt
  unfold roundSize
  split_ifs with hodd
  · have hone : (1 : UInt32).toNat = 1 := rfl
    have hmod := hzero.mp hodd
    rw [UInt32.toNat_add, hshift, hone]
    omega
  · have hnone : (0 : UInt32).toNat = 0 := rfl
    have hmod := mt hzero.mpr hodd
    rw [UInt32.toNat_add, hshift, hnone]
    omega

/-- What `create` makes. -/
theorem create_ok {fresh : ℕ → UInt8} {elsize : UInt8} {capacity : UInt32}
    {init : UInt32 → List UInt8 → List UInt8} {pa : BitArray}
    (hinit : ∀ total values, (init total values).length = values.length)
    (hcreate : create fresh elsize capacity init = .ok pa) :
    pa.Made ∧ pa.capacity = capacity ∧ pa.elsize = elsize ∧
      pa.values = init pa.total (newBlock fresh pa.total) := by
  unfold create at hcreate
  dsimp only at hcreate
  split_ifs at hcreate with hsize htotal
  obtain rfl := Except.ok.inj hcreate
  refine ⟨⟨isElementSize_of_accepted elsize hsize, htotal, ?_⟩, rfl, rfl, rfl⟩
  refine (hinit _ _).trans ?_
  unfold newBlock
  rw [List.length_map, List.length_range]
  rfl

theorem length_copyArray (t : LuaArray) (values : List UInt8) :
    (copyArray t values).length = values.length := by
  unfold copyArray
  induction t.objlen with
  | zero => rfl
  | succ n ih => rw [List.range_succ, List.foldl_append, List.foldl_cons, List.foldl_nil,
      List.length_set, ih]

/-- A capacity that is computed from a length has no more bits than fit a word. -/
theorem capacityOf_ok {elsize : UInt8} {temp capacity : UInt32}
    (hcapacity : capacityOf elsize temp = .ok capacity) :
    capacity.toNat * elsize.toNat = temp.toNat * 8 % 2 ^ 32 := by
  unfold capacityOf at hcapacity
  split_ifs at hcapacity with hzero hrest
  obtain rfl := Except.ok.inj hcapacity
  have hmod : (temp <<< 3).toNat % elsize.toNat = 0 := by
    have hrest := congrArg UInt32.toNat (not_not.mp hrest)
    rwa [UInt32.toNat_mod, UInt8.toNat_toUInt32] at hrest
  rw [UInt32.toNat_div, UInt8.toNat_toUInt32, Nat.div_mul_cancel (Nat.dvd_of_mod_eq_zero hmod),
    UInt32.toNat_shiftLeft, Nat.shiftLeft_eq]
  rfl

/-- What `bitarray_new` makes: the capacity that is asked for, or one whose bits fit a word with
room to spare. -/
theorem bitarrayNew_ok {numerals : Numerals} {fresh : ℕ → UInt8} {arg1 arg2 arg3 : Arg}
    {pa : BitArray} (hnew : bitarrayNew numerals fresh arg1 arg2 arg3 = .ok pa) :
    pa.Made ∧ pa.elsize = elementSize numerals arg2 ∧
      match arg1.integer numerals with
      | some n => pa.capacity = n.toUInt32
      | none => pa.capacity.toNat * pa.elsize.toNat < 2 ^ 32 - 1 := by
  have hlength : ∀ {temp capacity : UInt32},
      capacityOf (elementSize numerals arg2) temp = .ok capacity →
      capacity.toNat * (elementSize numerals arg2).toNat < 2 ^ 32 - 1 := fun hcapacity ↦ by
    rw [capacityOf_ok hcapacity]
    omega
  unfold bitarrayNew at hnew
  dsimp only at hnew
  split at hnew
  · obtain ⟨hmade, hcapacity, hsize, -⟩ := create_ok (fun _ _ ↦ length_overwrite _ _ _) hnew
    exact ⟨hmade, hsize, hcapacity⟩
  · split at hnew
    · cases hcapacity : capacityOf (elementSize numerals arg2) _ with
      | error failure =>
        rw [hcapacity] at hnew
        cases hnew
      | ok capacity =>
        rw [hcapacity] at hnew
        obtain ⟨hmade, hstored, hsize, -⟩ := create_ok (fun _ _ ↦ length_overwrite _ _ _) hnew
        rw [hstored, hsize]
        exact ⟨hmade, rfl, hlength hcapacity⟩
    · cases hcapacity : capacityOf (elementSize numerals arg2) _ with
      | error failure =>
        rw [hcapacity] at hnew
        cases hnew
      | ok capacity =>
        rw [hcapacity] at hnew
        obtain ⟨hmade, hstored, hsize, -⟩ := create_ok (fun _ _ ↦ length_copyArray _ _) hnew
        rw [hstored, hsize]
        exact ⟨hmade, rfl, hlength hcapacity⟩
    · cases hnew

end Elua.Bitarray
