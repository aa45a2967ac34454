import Elua.Lua.UndumpReads

/-!
# What an accepted header promises

A chunk's header declares the byte order, the size and the kind of its numbers. `LoadHeader` derives
from it whether bytes are swapped and integers converted, and `LoadNumber` goes by that.
`HeaderSound` says that for an accepted header every number is then read from as many bytes as it
declares, and is the number that they stand for.

The size is accepted whatever it is, although only the conversion of integers heeds it, and so are
byte orders and kinds that there are not. Integers with more bits than a mantissa are rounded when
they are converted. `headerSound_iff` says for which headers this does no harm. -/

set_option autoImplicit false
set_option relaxedAutoImplicit false

namespace Elua.Lua

open Elua.Foundation

/-! ### What a header declares -/

/-- The sizes of integers. -/
def integerSizes : List ℕ := [1, 2, 4, 8]

/-- The sizes of integers that a floating point format can hold, all of them. -/
def NumberFormat.exactSizes : NumberFormat → List ℕ
  | .float => [1, 2]
  | .double => [1, 2, 4]
  | _ => []

/-- The byte of a header that tells the byte order. -/
def orderByte (s : List UInt8) : UInt8 := s.getD 6 0

/-- The byte of a header that tells `sizeof( lua_Number )`. -/
def sizeByte (s : List UInt8) : UInt8 := s.getD 10 0

/-- The byte of a header that tells whether `lua_Number` is integral. -/
def kindByte (s : List UInt8) : UInt8 := s.getD 11 0

/-- The byte order, as far as there is one: big or little endian. -/
def declaredOrder (s : List UInt8) : Option Bool :=
  if orderByte s = 0 then some false else if orderByte s = 1 then some true else none

/-- A number has the value of a declared one. It may be the floating point number that is equal to
a declared integer. -/
def TargetNumber.Denotes : TargetNumber → TargetNumber → Prop
  | .float bits, .integer value => FloatFormat.binary32.integerValue bits.toNat = some value
  | .double bits, .integer value => FloatFormat.binary64.integerValue bits.toNat = some value
  | x, declared => x = declared

/-- The number that bytes stand for by the format that a header declares, if it declares one. The
halves of a `double` are in the order in which the machine has them. -/
def declaredNumber (m : Machine) (s bytes : List UInt8) : Option TargetNumber :=
  (declaredOrder s).bind fun littleEndian ↦
    let size := (sizeByte s).toNat
    if kindByte s = 1 then
      if size ∈ integerSizes then
        some (.integer (signedValue size (fromMemory littleEndian bytes)))
      else none
    else if kindByte s = 0 then
      if size = 4 then some (.float (UInt32.ofNat (fromMemory littleEndian bytes)))
      else if size = 8 then
        let bytes := if m.isArmFpa then swapHalves bytes else bytes
        some (.double (UInt64.ofNat (fromMemory littleEndian bytes)))
      else none
    else none

/-- Wherever a load comes to a number, it reads the bytes that the header declares, no more and no
less, and gets a number with the value that they stand for. -/
def ReadsDeclared (L : Loader) (s : List UInt8) (S : LoadState) : Prop :=
  ∀ bytes rest, bytes.length = (sizeByte s).toNat → S.zio.content = bytes ++ rest →
    ∃ x declared after, loadNumber L S = .ok (x, after) ∧ after.zio.content = rest ∧
      declaredNumber L.machine s bytes = some declared ∧ x.Denotes declared

/-- Behind a header that is accepted, numbers are read as it declares. -/
def HeaderSound (L : Loader) (s : List UInt8) : Prop :=
  ∀ S rest after, S.zio.content = s ++ rest → loadHeader L S = .ok ((), after) →
    ∀ S', S'.swap = after.swap → S'.numsize = after.numsize → S'.toflt = after.toflt →
      ReadsDeclared L s S'

/-! ### The test of the code -/

/-- Whether integers are to be converted, as `LoadHeader` finds. -/
def converts (m : Machine) (s : List UInt8) : Bool :=
  m.charValue (kindByte s) > m.charValue (kindByte (luaUHeader m))

/-- The comparison of `LoadHeader` succeeds. -/
def accepts (m : Machine) (s : List UInt8) : Bool :=
  (luaUHeader m).set 10 (sizeByte s) =
    let ordered := s.set 6 (orderByte (luaUHeader m))
    if converts m s then ordered.set 11 (kindByte (luaUHeader m)) else ordered

/-- A header declares a format that is read as it should be: a byte order, and the machine's own
numbers, or integers that the floating point numbers of the machine can hold. -/
def Readable (m : Machine) (s : List UInt8) : Prop :=
  (orderByte s = 0 ∨ orderByte s = 1) ∧
    (kindByte s = kindByte (luaUHeader m) ∧ (sizeByte s).toNat = m.format.size ∨
      kindByte s = 1 ∧ (sizeByte s).toNat ∈ m.format.exactSizes)

section Header

variable {L : Loader} {s : List UInt8}

theorem kindByte_luaUHeader (m : Machine) :
    kindByte (luaUHeader m) = if m.format.integral then 1 else 0 := rfl

theorem orderByte_luaUHeader (m : Machine) :
    orderByte (luaUHeader m) = if m.littleEndian then 1 else 0 := rfl

/-- The machine's own kind of numbers calls for no conversion. -/
theorem converts_own {m : Machine} (hkind : kindByte s = kindByte (luaUHeader m)) :
    converts m s = false := by
  rw [converts, hkind]
  exact decide_eq_false (Int.lt_irrefl _)

/-- Integers are converted for a machine with floating point numbers only. -/
theorem converts_integer {m : Machine} (hkind : kindByte s = 1) :
    converts m s = !m.format.integral := by
  rw [converts, hkind, kindByte_luaUHeader, Machine.charValue, Machine.charValue]
  cases m.format.integral <;> cases m.signedChar <;> decide

/-- A header that calls for no conversion is accepted only if it has the machine's kind of
numbers. -/
theorem kindByte_of_accepts {m : Machine} (haccepts : accepts m s = true)
    (hconverts : converts m s = false) : kindByte s = kindByte (luaUHeader m) := by
  have hsame := of_decide_eq_true haccepts
  rw [hconverts] at hsame
  have hkind := congrArg kindByte hsame
  simpa [kindByte, List.getD_eq_getElem?_getD] using hkind.symm

/-- A header that does not convert numbers to integers has the machine's kind of numbers if its own
is 0. -/
theorem integral_of_accepts {m : Machine} (haccepts : accepts m s = true) (hkind : kindByte s = 0) :
    m.format.integral = false := by
  have hconverts : converts m s = false := by
    rw [converts, hkind, kindByte_luaUHeader, Machine.charValue, Machine.charValue]
    cases m.format.integral <;> cases m.signedChar <;> decide
  have hown := kindByte_of_accepts haccepts hconverts
  rw [hkind, kindByte_luaUHeader] at hown
  cases hintegral : m.format.integral with
  | false => rfl
  | true => simp [hintegral] at hown

/-- What `LoadHeader` does with a header. -/
theorem loadHeader_eq {S : LoadState} {rest : List UInt8} (hlength : s.length = luacHeadersize)
    (hcontent : S.zio.content = s ++ rest) :
    ∃ zio, zio.content = rest ∧ loadHeader L S =
      if accepts L.machine s then .ok ((), { S with
        zio := zio
        total := S.total + luacHeadersize
        swap := orderByte s ≠ orderByte (luaUHeader L.machine)
        numsize := (sizeByte s).toNat
        toflt := converts L.machine s })
      else .error (L.name ++ ": " ++ "bad header" ++ " in precompiled chunk") := by
  obtain ⟨zio, hread, hrest, -, -⟩ := luaZRead_of_content hcontent
  refine ⟨zio, hrest, ?_⟩
  have hblock := loadBlock_ok L hread
  rw [hlength] at hblock
  refine (load_bind_ok hblock).trans ?_
  have hsize : ∀ byte, (s.set 6 byte).getD 10 0 = sizeByte s := fun byte ↦ by
    simp [sizeByte, List.getD_eq_getElem?_getD]
  have hkind : ∀ byte, (s.set 6 byte).getD 11 0 = kindByte s := fun byte ↦ by
    simp [kindByte, List.getD_eq_getElem?_getD]
  have hown : ∀ byte, ((luaUHeader L.machine).set 10 byte).getD 11 0 =
      kindByte (luaUHeader L.machine) := fun _ ↦ rfl
  simp only [hsize, hkind, hown]
  have haccepts : accepts L.machine s = true ↔ (luaUHeader L.machine).set 10 (sizeByte s) =
      if L.machine.charValue (kindByte s) >
          L.machine.charValue ((luaUHeader L.machine).getD 11 0) then
        (s.set 6 ((luaUHeader L.machine).getD 6 0)).set 11 (kindByte (luaUHeader L.machine))
      else s.set 6 ((luaUHeader L.machine).getD 6 0) := by
    simp only [accepts, converts, decide_eq_true_iff]
    rfl
  refine (load_bind_ok rfl).trans ?_
  simp only [haccepts]
  split_ifs <;> rfl

/-! ### Numbers -/

/-- Bytes that are swapped if their order is not the machine's have their value by their own
order. -/
theorem fromMemory_swapped (own order : Bool) (bytes : List UInt8) :
    fromMemory own (if order = own then bytes else bytes.reverse) = fromMemory order bytes := by
  cases own <;> cases order <;> simp [fromMemory]

/-- A block of the size of a number is read, and swapped if need be. -/
theorem loadMem_number {S : LoadState} {size : ℕ} (hsize : size ∈ integerSizes)
    {bytes rest : List UInt8} (hlength : bytes.length = size)
    (hcontent : S.zio.content = bytes ++ rest) :
    ∃ after, loadMem L 1 size S = .ok (if S.swap then bytes.reverse else bytes, after) ∧
      after.zio.content = rest := by
  obtain ⟨zio, hread, hrest, -, -⟩ := luaZRead_of_content hcontent
  have hblock := loadBlock_ok L hread
  rw [hlength, ← Nat.one_mul size] at hblock
  refine ⟨{ S with zio := zio, total := S.total + 1 * size }, ?_, hrest⟩
  refine (load_bind_ok hblock).trans ?_
  change (if S.swap = true then _ else _ : Load _) _ = _
  cases hswap : S.swap with
  | false => rfl
  | true =>
    have hsizes : size = 1 ∨ size = 2 ∨ size = 4 ∨ size = 8 := by
      simpa [integerSizes] using hsize
    have hswapped : swapEach size 1 bytes = bytes.reverse := by
      rw [swapEach, swapEach, ← hlength, List.take_length, List.drop_length, List.append_nil]
    simp only [if_true, if_pos hsizes, hswapped]
    rfl

/-- What is read of a stream has the size of the number. -/
theorem content_of_loadMem {S after : LoadState} {size : ℕ} {bytes : List UInt8}
    (hload : loadMem L 1 size S = .ok (bytes, after)) :
    S.zio.content.length = size + after.zio.content.length := by
  cases hread : luaZRead S.zio (1 * size) with
  | none =>
    have herror : loadMem L 1 size S =
        .error (L.name ++ ": " ++ "unexpected end" ++ " in precompiled chunk") := by
      change (loadBlock L (1 * size) S >>= fun result ↦ _) = _
      have hblock : loadBlock L (1 * size) S =
          .error (L.name ++ ": " ++ "unexpected end" ++ " in precompiled chunk") := by
        unfold loadBlock
        rw [load_get_bind, hread]
        rfl
      rw [hblock]
      rfl
    rw [herror] at hload
    cases hload
  | some result =>
    obtain ⟨block, zio⟩ := result
    obtain ⟨hlength, hcontent, -, -⟩ := content_of_luaZRead hread
    have hrun := (load_bind_ok (loadBlock_ok L hread)).symm.trans hload
    change (if S.swap = true then _ else _ : Load _) _ = _ at hrun
    have hafter : after.zio = zio := by
      split_ifs at hrun <;> cases hrun <;> rfl
    rw [hcontent, List.length_append, hlength, hafter, Nat.one_mul]

theorem size_mem_integerSizes (format : NumberFormat) : format.size ∈ integerSizes := by
  cases format <;> decide

/-- A byte order that there is tells whether bytes are to be swapped. -/
theorem exists_declaredOrder (m : Machine) (horder : orderByte s = 0 ∨ orderByte s = 1) :
    ∃ order, declaredOrder s = some order ∧
      decide (orderByte s ≠ orderByte (luaUHeader m)) = decide (order ≠ m.littleEndian) := by
  rcases horder with horder | horder
  · refine ⟨false, by rw [declaredOrder, if_pos horder], ?_⟩
    rw [horder, orderByte_luaUHeader]
    cases m.littleEndian <;> decide
  · refine ⟨true, by rw [declaredOrder, horder]; rfl, ?_⟩
    rw [horder, orderByte_luaUHeader]
    cases m.littleEndian <;> decide

theorem TargetNumber.denotes_self (x : TargetNumber) : x.Denotes x := by
  cases x <;> rfl

/-- Only floating point numbers hold integers of other sizes. -/
theorem of_mem_exactSizes {format : NumberFormat} {size : ℕ} (hsize : size ∈ format.exactSizes) :
    format.integral = false ∧ size ∈ integerSizes := by
  cases format with
  | int8 | int16 | int32 | int64 => cases hsize
  | float => exact ⟨rfl, List.mem_of_mem_take (i := 2) hsize⟩
  | double => exact ⟨rfl, List.mem_of_mem_take (i := 3) hsize⟩

/-- Integers of a size that a machine can hold keep their values. -/
theorem denotes_ofInteger {m : Machine} {size : ℕ} (hsize : size ∈ m.format.exactSizes)
    (value : ℕ) :
    (m.ofInteger (signedValue size value)).Denotes (.integer (signedValue size value)) := by
  have hpow : 0 < 256 ^ size := Nat.pow_pos (by decide)
  have hlow := Int.le_bmod (x := value) hpow
  have hhigh := Int.bmod_lt (x := value) hpow
  rw [← signedValue] at hlow hhigh
  generalize signedValue size value = integer at hlow hhigh ⊢
  unfold Machine.ofInteger
  cases hformat : m.format with
  | int8 | int16 | int32 | int64 => rw [hformat] at hsize; cases hsize
  | float =>
    have hbound : integer.natAbs ≤ 2 ^ FloatFormat.binary32.mantissaBits := by
      rw [hformat] at hsize
      have hsizes : size = 1 ∨ size = 2 := by simpa [NumberFormat.exactSizes] using hsize
      have hmantissa : 2 ^ FloatFormat.binary32.mantissaBits = 8388608 := by decide
      obtain rfl | rfl := hsizes <;> omega
    obtain ⟨hlt, hkept⟩ := FloatFormat.ofInt_of_le (by decide) hbound
    show FloatFormat.binary32.integerValue (UInt32.ofNat _).toNat = _
    rw [UInt32.toNat_ofNat_of_lt' hlt]
    exact hkept
  | double =>
    have hbound : integer.natAbs ≤ 2 ^ FloatFormat.binary64.mantissaBits := by
      rw [hformat] at hsize
      have hsizes : size = 1 ∨ size = 2 ∨ size = 4 := by
        simpa [NumberFormat.exactSizes] using hsize
      have hmantissa : 2 ^ FloatFormat.binary64.mantissaBits = 4503599627370496 := by decide
      obtain rfl | rfl | rfl := hsizes <;> omega
    obtain ⟨hlt, hkept⟩ := FloatFormat.ofInt_of_le (by decide) hbound
    show FloatFormat.binary64.integerValue (UInt64.ofNat _).toNat = _
    rw [UInt64.toNat_ofNat_of_lt' hlt]
    exact hkept

/-- Among the integers of any other size there is one that is rounded. -/
theorem exists_rounded {m : Machine} {size : ℕ} (hsize : size ∈ integerSizes)
    (hfloat : m.format.integral = false) (hlarge : size ∉ m.format.exactSizes) :
    ∃ value : ℕ, value < 256 ^ size / 2 ∧
      ∀ integer, ¬(m.ofInteger integer).Denotes (.integer value) := by
  have hsizes : size = 1 ∨ size = 2 ∨ size = 4 ∨ size = 8 := by
    simpa [integerSizes] using hsize
  unfold Machine.ofInteger
  cases hformat : m.format with
  | int8 | int16 | int32 | int64 => rw [hformat] at hfloat; cases hfloat
  | float =>
    rw [hformat] at hlarge
    refine ⟨2 ^ 24 + 1, ?_, fun integer hdenotes ↦ ?_⟩
    · obtain rfl | rfl | rfl | rfl := hsizes
      · exact absurd (by decide) hlarge
      · exact absurd (by decide) hlarge
      all_goals norm_num
    · have hexact := FloatFormat.exactIn_of_integerValue hdenotes
      have hlog : Nat.log 2 (2 ^ 24 + 1) = 24 :=
        Nat.log_eq_of_pow_le_of_lt_pow (by norm_num) (by norm_num)
      rw [Int.natAbs_natCast, FloatFormat.ExactIn, hlog] at hexact
      exact absurd hexact (by decide)
  | double =>
    rw [hformat] at hlarge
    refine ⟨2 ^ 53 + 1, ?_, fun integer hdenotes ↦ ?_⟩
    · obtain rfl | rfl | rfl | rfl := hsizes
      · exact absurd (by decide) hlarge
      · exact absurd (by decide) hlarge
      · exact absurd (by decide) hlarge
      · norm_num
    · have hexact := FloatFormat.exactIn_of_integerValue hdenotes
      have hlog : Nat.log 2 (2 ^ 53 + 1) = 53 :=
        Nat.log_eq_of_pow_le_of_lt_pow (by norm_num) (by norm_num)
      rw [Int.natAbs_natCast, FloatFormat.ExactIn, hlog] at hexact
      exact absurd hexact (by decide)

/-- Bytes of the machine's own kind and size stand for the number that the machine has in memory
when they are there in its order. -/
theorem declaredNumber_own {m : Machine} {order : Bool} {bytes : List UInt8}
    (horder : declaredOrder s = some order) (hkind : kindByte s = kindByte (luaUHeader m))
    (hsize : (sizeByte s).toNat = m.format.size) (hlength : bytes.length = m.format.size) :
    declaredNumber m s bytes =
      some (m.numberIn (if order = m.littleEndian then bytes else bytes.reverse)) := by
  have hswapped := fromMemory_swapped m.littleEndian order
  unfold declaredNumber Machine.numberIn
  rw [horder, Option.bind_some, hkind, kindByte_luaUHeader, hsize]
  cases hformat : m.format with
  | double =>
    rw [hformat] at hlength
    have hhalves : (if m.isArmFpa then
        swapHalves (if order = m.littleEndian then bytes else bytes.reverse)
        else if order = m.littleEndian then bytes else bytes.reverse) =
          if order = m.littleEndian then (if m.isArmFpa then swapHalves bytes else bytes)
          else (if m.isArmFpa then swapHalves bytes else bytes).reverse := by
      split_ifs
      · rfl
      · exact (reverse_swapHalves hlength).symm
      · rfl
      · rfl
    dsimp only
    rw [hhalves, hswapped]
    rfl
  | float =>
    dsimp only
    rw [hswapped]
    rfl
  | int8 | int16 | int32 | int64 =>
    dsimp only
    rw [hswapped]
    rfl

/-- What integers are read as that are converted. -/
theorem loadNumber_converted {S : LoadState} {order : Bool} (hkind : kindByte s = 1)
    (hfloat : L.machine.format.integral = false) (hsize : (sizeByte s).toNat ∈ integerSizes)
    (hswap : S.swap = decide (order ≠ L.machine.littleEndian))
    (hnumsize : S.numsize = (sizeByte s).toNat) (htoflt : S.toflt = converts L.machine s)
    {bytes rest : List UInt8} (hlength : bytes.length = (sizeByte s).toNat)
    (hcontent : S.zio.content = bytes ++ rest) :
    ∃ after, loadNumber L S = .ok (L.machine.ofInteger
        (signedValue (sizeByte s).toNat (fromMemory order bytes)), after) ∧
      after.zio.content = rest := by
  obtain ⟨after, hload, hrest⟩ := loadMem_number (L := L) hsize hlength hcontent
  have hsizes : S.numsize = 1 ∨ S.numsize = 2 ∨ S.numsize = 4 ∨ S.numsize = 8 := by
    rw [hnumsize]
    simpa [integerSizes] using hsize
  have hbytes : (if S.swap then bytes.reverse else bytes) =
      if order = L.machine.littleEndian then bytes else bytes.reverse := by
    rw [hswap]
    by_cases hequal : order = L.machine.littleEndian <;> simp [hequal]
  refine ⟨after, ?_, hrest⟩
  change (if S.toflt = true then _ else _ : Load _) S = _
  rw [htoflt, converts_integer hkind, hfloat, Bool.not_false, if_pos rfl, if_pos hsizes, hnumsize]
  refine (load_bind_ok hload).trans ?_
  rw [hbytes, fromMemory_swapped]
  rfl

/-- Behind a readable header, numbers are read as it declares. -/
theorem readsDeclared_of_readable {S : LoadState} (hreadable : Readable L.machine s)
    (hswap : S.swap = decide (orderByte s ≠ orderByte (luaUHeader L.machine)))
    (hnumsize : S.numsize = (sizeByte s).toNat) (htoflt : S.toflt = converts L.machine s) :
    ReadsDeclared L s S := by
  intro bytes rest hlength hcontent
  obtain ⟨horder, hformat⟩ := hreadable
  obtain ⟨order, hdeclared, hsame⟩ := exists_declaredOrder L.machine horder
  rcases hformat with ⟨hkind, hsize⟩ | ⟨hkind, hexact⟩
  · obtain ⟨after, hload, hrest⟩ := loadMem_number (L := L) (size_mem_integerSizes _)
      (hlength.trans hsize) hcontent
    have hbytes : (if S.swap then bytes.reverse else bytes) =
        if order = L.machine.littleEndian then bytes else bytes.reverse := by
      rw [hswap, hsame]
      by_cases hequal : order = L.machine.littleEndian <;> simp [hequal]
    refine ⟨_, _, after, ?_, hrest,
      declaredNumber_own hdeclared hkind hsize (hlength.trans hsize), TargetNumber.denotes_self _⟩
    change (if S.toflt = true then _ else _ : Load _) S = _
    rw [htoflt, converts_own hkind, if_neg Bool.false_ne_true, ← hbytes]
    exact load_bind_ok hload
  · obtain ⟨hfloat, hsize⟩ := of_mem_exactSizes hexact
    obtain ⟨after, hload, hrest⟩ := loadNumber_converted hkind hfloat hsize (hswap.trans hsame)
      hnumsize htoflt hlength hcontent
    refine ⟨_, _, after, hload, hrest, ?_, denotes_ofInteger hexact _⟩
    unfold declaredNumber
    rw [hdeclared, Option.bind_some]
    dsimp only
    rw [if_pos hkind, if_pos hsize]

/-- A stream that delivers some bytes. -/
def Zio.ofBytes (bytes : List UInt8) : Zio := ⟨bytes, [], 0, none⟩

@[simp] theorem content_ofBytes (bytes : List UInt8) : (Zio.ofBytes bytes).content = bytes := by
  simp [Zio.content, Zio.ofBytes, delivered]

/-- A number that is not converted takes as many bytes as the machine's numbers have. -/
theorem content_of_loadNumber {S after : LoadState} {x : TargetNumber} (htoflt : S.toflt = false)
    (hload : loadNumber L S = .ok (x, after)) :
    S.zio.content.length = L.machine.format.size + after.zio.content.length := by
  change (if S.toflt = true then _ else _ : Load _) S = _ at hload
  rw [htoflt, if_neg Bool.false_ne_true] at hload
  cases hbytes : loadMem L 1 L.machine.format.size S with
  | error message =>
    have herror := congrArg (fun result ↦ result.bind fun result ↦
      pure (L.machine.numberIn result.1, result.2)) hbytes
    exact nomatch herror.symm.trans hload
  | ok result =>
    obtain ⟨bytes, between⟩ := result
    have hrun := (load_bind_ok hbytes).symm.trans hload
    cases hrun
    exact content_of_loadMem hbytes

/-- A format that a header declares has a byte order and a kind of numbers, and a size of that
kind. -/
theorem declared_of_some {m : Machine} {bytes : List UInt8} {x : TargetNumber}
    (hdeclared : declaredNumber m s bytes = some x) :
    (orderByte s = 0 ∨ orderByte s = 1) ∧
      (kindByte s = 1 ∧ (sizeByte s).toNat ∈ integerSizes ∨ kindByte s = 0) := by
  obtain ⟨order, horder, hnumber⟩ := Option.bind_eq_some_iff.1 hdeclared
  constructor
  · unfold declaredOrder at horder
    split_ifs at horder with hbig hlittle
    · exact .inl hbig
    · exact .inr hlittle
  · dsimp only at hnumber
    split_ifs at hnumber with hkind hsize hfloat
    · exact .inl ⟨hkind, hsize⟩
    all_goals exact .inr hfloat

/-- Only readable headers are read as they declare. -/
theorem readable_of_headerSound (hlength : s.length = luacHeadersize)
    (haccepts : accepts L.machine s = true) (hsound : HeaderSound L s) :
    Readable L.machine s := by
  have hstart : (LoadState.mk (.ofBytes s) false 0 false 0 []).zio.content = s ++ [] := by simp
  obtain ⟨zio, -, hload⟩ := loadHeader_eq (L := L) hlength hstart
  rw [if_pos haccepts] at hload
  -- a number of the declared size, and nothing behind it
  have hreads := fun bytes ↦ hsound _ _ _ hstart hload
    { zio := .ofBytes bytes
      swap := orderByte s ≠ orderByte (luaUHeader L.machine)
      numsize := (sizeByte s).toNat
      toflt := converts L.machine s
      total := 0
      offsets := [] } rfl rfl rfl bytes []
  obtain ⟨x, declared, after, hnumber, hrest, hdeclared, -⟩ :=
    hreads (List.replicate (sizeByte s).toNat 0) (by simp) (by simp)
  obtain ⟨horder, hkind⟩ := declared_of_some hdeclared
  refine ⟨horder, ?_⟩
  have hown : kindByte s = kindByte (luaUHeader L.machine) →
      (sizeByte s).toNat = L.machine.format.size := by
    intro hkind
    have hcount := content_of_loadNumber (converts_own hkind) hnumber
    simpa [hrest] using hcount
  rcases hkind with ⟨hone, hsize⟩ | hzero
  · cases hintegral : L.machine.format.integral with
    | true =>
      have hkind : kindByte s = kindByte (luaUHeader L.machine) := by
        rw [hone, kindByte_luaUHeader, hintegral]
        rfl
      exact .inl ⟨hkind, hown hkind⟩
    | false =>
      refine .inr ⟨hone, by_contra fun hlarge ↦ ?_⟩
      obtain ⟨value, hvalue, hrounded⟩ := exists_rounded hsize hintegral hlarge
      obtain ⟨order, horder', hsame⟩ := exists_declaredOrder L.machine horder
      have hlength' : (inMemory order (sizeByte s).toNat value).length = (sizeByte s).toNat :=
        length_inMemory _ _ _
      have hcontent : (Zio.ofBytes (inMemory order (sizeByte s).toNat value)).content =
          inMemory order (sizeByte s).toNat value ++ [] := by simp
      obtain ⟨x, declared, after, hnumber, -, hdeclared, hdenotes⟩ :=
        hreads (inMemory order (sizeByte s).toNat value) hlength' (by simp)
      obtain ⟨after', hconverted, -⟩ := loadNumber_converted (L := L)
        (S := ⟨.ofBytes (inMemory order (sizeByte s).toNat value), _, _, _, 0, []⟩)
        hone hintegral hsize hsame rfl rfl hlength' hcontent
      obtain ⟨rfl, -⟩ := Prod.mk.inj (Except.ok.inj (hnumber.symm.trans hconverted))
      unfold declaredNumber at hdeclared
      rw [horder', Option.bind_some] at hdeclared
      dsimp only at hdeclared
      rw [if_pos hone, if_pos hsize] at hdeclared
      obtain rfl := Option.some.inj hdeclared
      have hmod : value % 256 ^ (sizeByte s).toNat = value :=
        Nat.mod_eq_of_lt (hvalue.trans_le (Nat.div_le_self _ _))
      rw [fromMemory_inMemory, hmod, signedValue, Int.bmod_eq_of_le (by omega) (by omega)]
        at hdenotes
      exact hrounded _ hdenotes
  · have hkind : kindByte s = kindByte (luaUHeader L.machine) := by
      rw [hzero, kindByte_luaUHeader, integral_of_accepts haccepts hzero]
      rfl
    exact .inl ⟨hkind, hown hkind⟩

/-- Numbers are read as a header declares exactly if it is not accepted, or declares a byte order,
and either the machine's own numbers or integers that its floating point numbers can hold. -/
theorem headerSound_iff (L : Loader) {s : List UInt8} (hlength : s.length = luacHeadersize) :
    HeaderSound L s ↔ (accepts L.machine s = true → Readable L.machine s) := by
  constructor
  · exact fun hsound haccepts ↦ readable_of_headerSound hlength haccepts hsound
  · intro hreadable S rest after hcontent hload S' hswap hnumsize htoflt
    obtain ⟨zio, -, hheader⟩ := loadHeader_eq (L := L) hlength hcontent
    rw [hheader] at hload
    split_ifs at hload with haccepts
    cases hload
    exact readsDeclared_of_readable (hreadable haccepts) hswap hnumsize htoflt

end Header

/-- A little endian machine with numbers of type `double`. -/
def doubleLoader : Loader where
  machine :=
    { littleEndian := true
      format := .double
      isArmFpa := false
      wide := false
      signedChar := false }
  name := "chunk"
  checkcode := fun _ ↦ true

/-- The header of a big endian machine with integral numbers of four bytes is accepted, and its
numbers are converted as they should be. -/
theorem headerSound_double :
    accepts doubleLoader.machine (luaUHeader ⟨false, .int32, false, false, false⟩) = true ∧
      HeaderSound doubleLoader (luaUHeader ⟨false, .int32, false, false, false⟩) :=
  ⟨by decide, (headerSound_iff doubleLoader rfl).2 fun _ ↦ ⟨.inl rfl, .inr ⟨rfl, by decide⟩⟩⟩

/-- The header of a chunk with numbers of type `float` is accepted, and its numbers are not read as
it declares. -/
theorem not_headerSound_float :
    accepts doubleLoader.machine ((luaUHeader doubleLoader.machine).set 10 4) = true ∧
      ¬HeaderSound doubleLoader ((luaUHeader doubleLoader.machine).set 10 4) := by
  have haccepts : accepts doubleLoader.machine
      ((luaUHeader doubleLoader.machine).set 10 4) = true := by decide
  refine ⟨haccepts, fun hsound ↦ ?_⟩
  obtain ⟨-, ⟨-, hsize⟩ | ⟨hkind, -⟩⟩ := readable_of_headerSound rfl haccepts hsound
  · exact absurd hsize (by decide)
  · exact absurd hkind (by decide)

end Elua.Lua
