import Elua.Config.Modules
import Elua.Foundation.PatternScan
import Mathlib.Data.Rat.Floor

/-!
# Addresses in the board configuration

`_validate_ip` scans a string for words of letters and digits that are followed by a dot, converts
them by `tonumber`, and checks that four octets are left. What stands between the words is skipped,
and words that are no number are dropped.

`IpRight` says that exactly the dotted quads are accepted, as the table of their four numbers.
`ipRight_iff` is the exact condition: the string consists of decimal numbers with a dot between two
of them, or the numbers at the ends of its parts are not four octets. Every address is accepted as it
is written (`validateIp_toDigits`). -/

set_option autoImplicit false
set_option relaxedAutoImplicit false

namespace Elua.Config

open Foundation

/-! ### Numbers -/

/-- A number of Lua. The value of a word is not rounded to a double: only numbers up to 255 are
kept, and these are exact. -/
inductive Number
  | finite (q : ℚ)
  | infinite (negative : Bool)
  | nan
  deriving DecidableEq

/-- The number of a natural. -/
def ofNat (n : ℕ) : Number := .finite n

/-- `isxdigit`. -/
def isxdigit (c : Char) : Bool := c.isDigit || ('a' ≤ c.toLower && c.toLower ≤ 'f')

/-- The value of a digit of base sixteen. -/
def digitValue (c : Char) : ℕ :=
  if c.isDigit then c.toNat - '0'.toNat else c.toLower.toNat - 'a'.toNat + 10

/-- The value of digits of base sixteen. -/
def hexValue (digits : Name) : ℕ := digits.foldl (fun value c ↦ 16 * value + digitValue c) 0

/-- What stands behind `0x`, if there is a digit. -/
def hexBody : Name → Option Name
  | '0' :: x :: body =>
    if x.toLower = 'x' ∧ body.takeWhile isxdigit ≠ [] then some body else none
  | _ => none

/-- An exponent with its mark, and the rest. Without digits there is none. -/
def exponent (mark : Char) : Name → ℕ × Name
  | [] => (0, [])
  | c :: s =>
    if c.toLower = mark ∧ s.takeWhile Char.isDigit ≠ [] then
      (Nat.ofDigitChars 10 (s.takeWhile Char.isDigit) 0, s.dropWhile Char.isDigit)
    else (0, c :: s)

/-- `strtod`, of a word of letters and digits: the number at its beginning, and the rest. Binary
numbers, infinity and what is no number are read since C99. -/
def strtod (c99 : Bool) (s : Name) : Option (Number × Name) :=
  match if c99 then hexBody s else none with
  | some body =>
    let (power, rest) := exponent 'p' (body.dropWhile isxdigit)
    some (ofNat (hexValue (body.takeWhile isxdigit) * 2 ^ power), rest)
  | none =>
    if c99 && "infinity".toList.isPrefixOf (lower s) then some (.infinite false, s.drop 8)
    else if c99 && "inf".toList.isPrefixOf (lower s) then some (.infinite false, s.drop 3)
    else if c99 && "nan".toList.isPrefixOf (lower s) then some (.nan, s.drop 3)
    else
      let digits := s.takeWhile Char.isDigit
      let (power, rest) := exponent 'e' (s.dropWhile Char.isDigit)
      if digits = [] then none
      else some (ofNat (Nat.ofDigitChars 10 digits 0 * 10 ^ power), rest)

/-- `strtoul( s, &endptr, 16 )`: the number and the rest. -/
def strtoul16 (s : Name) : Number × Name :=
  let body := (hexBody s).getD s
  (ofNat (hexValue (body.takeWhile isxdigit)), body.dropWhile isxdigit)

/-- `tonumber`, of a word of letters and digits. -/
def tonumber (c99 : Bool) (s : Name) : Option Number :=
  match strtod c99 s with
  | none => none
  | some (result, rest) =>
    let (result, rest) := if rest.head?.map Char.toLower = some 'x' then strtoul16 s
      else (result, rest)
    if rest = [] then some result else none

/-! ### The validator -/

/-- A value of an attribute. A table is given by its items up to its length. -/
inductive LuaValue
  | string (s : Name)
  | number (n : Number)
  | table (items : List LuaValue)
  | other

/-- `'attr' of element 'el' in section 'sect'`. -/
def place (aname elname sectname : Name) : Name :=
  "'".toList ++ aname ++ "' of element '".toList ++ elname ++ "' in section '".toList ++ sectname ++
    "'".toList

/-- The number is an octet. -/
def isOctet : LuaValue → Bool
  | .number (.finite q) => !(decide ((⌊q⌋ : ℚ) ≠ q) || decide (q < 0) || decide (q > 255))
  | _ => false

/-- The checks of a table. -/
def checkIp (aname elname sectname : Name) (items : List LuaValue) : Except Name LuaValue :=
  if items.length ≠ 4 then
    .error ("invalid IP for attribute ".toList ++ place aname elname sectname)
  else if (items.take 4).all isOctet then .ok (.table items)
  else .error ("invalid IP for attribute ".toList ++ place aname elname sectname)

/-- A dot is added if there is none at the end. -/
def withFinalDot (aval : Name) : Name :=
  if aval.getLast? = some '.' then aval else aval ++ ['.']

/-- The numbers that the scan finds. -/
def scannedNumbers (c99 : Bool) (aval : Name) : List Number :=
  (gmatch Char.isAlphanum '.' 0 (withFinalDot aval)).filterMap (tonumber c99)

/-- `_validate_ip`. -/
def validateIpValue (c99 : Bool) (aname : Name) (aval : LuaValue) (elname sectname : Name) :
    Except Name LuaValue :=
  match aval with
  | .string s => checkIp aname elname sectname ((scannedNumbers c99 s).map .number)
  | .table items => checkIp aname elname sectname items
  | _ => .error ("attribute ".toList ++ place aname elname sectname ++
      " must be a string or a table".toList)

/-- The array fields of the description of an attribute. -/
structure ArrayFields where
  isArray : Bool
  allowSingle : Bool

/-- `ip_attr`, which sets neither. -/
def ipAttr : ArrayFields := ⟨false, false⟩

/-- The loop over the items of an array. -/
def validateItems (realvname : LuaValue → Except Name LuaValue) :
    ℕ → List LuaValue → Except Name (List LuaValue)
  | _, [] => .ok []
  | i, item :: items =>
    match realvname item with
    | .error err =>
      .error ("error at index ".toList ++ Nat.toDigits 10 i ++ ": ".toList ++ err)
    | .ok res => (validateItems realvname (i + 1) items).map (res :: ·)

/-- `build_validator`. -/
def buildValidator (realvname : Name → LuaValue → Name → Name → Except Name LuaValue)
    (adesc : ArrayFields) (aname : Name) (aval : LuaValue) (elname sectname : Name) :
    Except Name LuaValue :=
  let one := fun item ↦ realvname aname item elname sectname
  if !adesc.isArray then one aval
  else
    match aval with
    | .table items => (validateItems one 1 items).map .table
    | _ =>
      if adesc.allowSingle then (validateItems one 1 [aval]).map .table
      else .error ("value of attribute '".toList ++ aname ++ "' for element '".toList ++ elname ++
        "' in section '".toList ++ sectname ++ "' must be an array".toList)

/-- `validate_ip`. -/
def validateIp (c99 : Bool) : ArrayFields → Name → LuaValue → Name → Name → Except Name LuaValue :=
  buildValidator (validateIpValue c99)

/-! ### What the validator owes -/

/-- A decimal number: its digits and its value. -/
structure IsDecimal (digits : Name) (n : ℕ) : Prop where
  ne_nil : digits ≠ []
  isDigit : ∀ c ∈ digits, c.isDigit = true
  value : Nat.ofDigitChars 10 digits 0 = n

/-- Decimal numbers with one dot between two of them. -/
def IsDotted (s : Name) (numbers : List ℕ) : Prop :=
  ∃ pieces, pieces ≠ [] ∧ s = ['.'].intercalate pieces ∧ List.Forall₂ IsDecimal pieces numbers

/-- Four octets. -/
structure IsQuad (quad : List ℕ) : Prop where
  length_eq : quad.length = 4
  le : ∀ n ∈ quad, n ≤ 255

/-- The table of naturals. -/
def tableOf (numbers : List ℕ) : LuaValue := .table ((numbers.map ofNat).map .number)

/-- A string is accepted exactly if it is a dotted quad, and then as the table of its numbers. -/
structure IpRight (c99 : Bool) (aname elname sectname s : Name) : Prop where
  accepts_iff : (∃ aval, validateIp c99 ipAttr aname (.string s) elname sectname = .ok aval) ↔
    ∃ quad, IsQuad quad ∧ IsDotted s quad
  numbers : ∀ aval, validateIp c99 ipAttr aname (.string s) elname sectname = .ok aval →
    ∃ quad, IsQuad quad ∧ IsDotted s quad ∧ aval = tableOf quad

/-- The parts of a string between its dots. A dot at the end counts for nothing. -/
def partsOf (s : Name) : List Name :=
  (if s.getLast? = some '.' then s.dropLast else s).splitOn '.'

/-- The number at the end of a part, of the letters and digits there. -/
def numberAt (c99 : Bool) (part : Name) : Option Number :=
  (lastRun Char.isAlphanum part).bind (tonumber c99)

/-- The numbers at the ends of the parts are four octets. -/
def ReadsQuad (c99 : Bool) (s : Name) : Prop :=
  ∃ quad, IsQuad quad ∧ (partsOf s).filterMap (numberAt c99) = quad.map ofNat

/-! ### The scan -/

section Scan

variable {c99 : Bool} {s : Name}

/-- The scan finds the numbers at the ends of the parts. -/
theorem scannedNumbers_eq (c99 : Bool) (s : Name) :
    scannedNumbers c99 s = (partsOf s).filterMap (numberAt c99) := by
  have hfinal : withFinalDot s =
      (if s.getLast? = some '.' then s.dropLast else s) ++ '.' :: [] := by
    unfold withFinalDot
    split_ifs with hlast
    · exact (List.dropLast_append_getLast? '.' hlast).symm
    · rfl
  have hstop : Char.isAlphanum '.' = false := by decide
  rw [scannedNumbers, gmatch_eq hstop, hfinal, List.splitOn_append_cons_self, List.splitOn_nil,
    List.dropLast_concat, List.filterMap_filterMap]
  rfl

end Scan

/-! ### Decimal numbers -/

section Decimals

variable {c99 : Bool} {c : Char} {digits s : Name} {n : ℕ} {pieces : List Name} {numbers : List ℕ}

theorem toLower_of_isDigit (hdigit : c.isDigit = true) : c.toLower = c := by
  have hrange : 48 ≤ c.toNat ∧ c.toNat ≤ 57 := by
    simpa [Char.isDigit, UInt32.le_iff_toNat_le] using hdigit
  refine dif_neg fun hupper ↦ ?_
  have hlow : 65 ≤ c.toNat := UInt32.le_iff_toNat_le.mp hupper.1
  omega

theorem isAlphanum_of_isDigit (hdigit : c.isDigit = true) : c.isAlphanum = true := by
  rw [Char.isAlphanum, hdigit, Bool.or_true]

theorem exponent_nil (mark : Char) : exponent mark [] = (0, []) := rfl

/-- Digits are no number of base sixteen. -/
theorem hexBody_of_digits (hdigits : ∀ c ∈ digits, c.isDigit = true) : hexBody digits = none := by
  unfold hexBody
  split
  · next x body =>
    refine if_neg fun hmark ↦ ?_
    have hx := hdigits x (List.mem_cons_of_mem _ List.mem_cons_self)
    rw [← toLower_of_isDigit hx, hmark.1] at hx
    exact absurd hx (by decide)
  · rfl

/-- A text that begins with a letter does not begin digits. -/
theorem isPrefixOf_lower {word : Name} {first : Char} (hfirst : first.isDigit = false)
    (hne : digits ≠ []) (hdigits : ∀ c ∈ digits, c.isDigit = true) :
    (first :: word).isPrefixOf (lower digits) = false := by
  obtain ⟨c, rest, rfl⟩ := List.exists_cons_of_ne_nil hne
  have hc := hdigits c List.mem_cons_self
  have hdiffer : (first == c.toLower) = false := by
    rw [toLower_of_isDigit hc, beq_eq_false_iff_ne]
    rintro rfl
    exact Bool.noConfusion (hfirst.symm.trans hc)
  change (first == c.toLower && _) = false
  rw [hdiffer, Bool.false_and]

/-- A decimal number is converted to its value. -/
theorem tonumber_of_isDecimal (hdecimal : IsDecimal digits n) :
    tonumber c99 digits = some (ofNat n) := by
  obtain ⟨hne, hdigits, hvalue⟩ := hdecimal
  have htake : digits.takeWhile Char.isDigit = digits := List.takeWhile_eq_self_iff.mpr hdigits
  have hdrop : digits.dropWhile Char.isDigit = [] := List.dropWhile_eq_nil_iff.mpr hdigits
  have hhex : (if c99 = true then hexBody digits else none) = none := by
    rw [hexBody_of_digits hdigits, ite_self]
  have hstrtod : strtod c99 digits = some (ofNat n, []) := by
    have hword : ∀ word : Name, word.head?.map Char.isDigit = some false →
        (c99 && word.isPrefixOf (lower digits)) = false := by
      intro word hhead
      cases word with
      | nil => exact absurd hhead (by decide)
      | cons first word =>
        rw [isPrefixOf_lower (Option.some.inj hhead) hne hdigits, Bool.and_false]
    unfold strtod
    rw [hhex]
    dsimp only
    rw [hword "infinity".toList rfl, hword "inf".toList rfl, hword "nan".toList rfl, htake, hdrop,
      exponent_nil, if_neg hne, hvalue]
    simp only [Bool.false_eq_true, if_false, pow_zero, mul_one]
  unfold tonumber
  rw [hstrtod]
  rfl

theorem dot_notMem_of_digits (hdigits : ∀ c ∈ digits, c.isDigit = true) : '.' ∉ digits :=
  fun hmem ↦ absurd (hdigits '.' hmem) (by decide)

/-- The number of a part that is a decimal number. -/
theorem numberAt_of_isDecimal (hdecimal : IsDecimal digits n) :
    numberAt c99 digits = some (ofNat n) := by
  have hself : digits.rtakeWhile Char.isAlphanum = digits :=
    List.rtakeWhile_eq_self_iff.mpr fun c hmem ↦ isAlphanum_of_isDigit (hdecimal.isDigit c hmem)
  rw [numberAt, lastRun, hself, if_neg hdecimal.ne_nil]
  exact tonumber_of_isDecimal hdecimal

theorem filterMap_numberAt (hdecimals : List.Forall₂ IsDecimal pieces numbers) :
    pieces.filterMap (numberAt c99) = numbers.map ofNat := by
  induction hdecimals with
  | nil => rfl
  | cons hdecimal _ ih =>
    rw [List.filterMap_cons, numberAt_of_isDecimal hdecimal, ih, List.map_cons]

theorem mem_isDecimal (hdecimals : List.Forall₂ IsDecimal pieces numbers) :
    ∀ piece ∈ pieces, ∃ n, IsDecimal piece n := by
  induction hdecimals with
  | nil => exact fun piece hmem ↦ absurd hmem List.not_mem_nil
  | @cons piece n _ _ hdecimal _ ih =>
    exact List.forall_mem_cons.mpr ⟨⟨n, hdecimal⟩, ih⟩

/-- The parts of decimal numbers with dots between them. -/
theorem partsOf_intercalate (hne : pieces ≠ [])
    (hdecimals : List.Forall₂ IsDecimal pieces numbers) :
    partsOf (['.'].intercalate pieces) = pieces := by
  have hpieces := mem_isDecimal hdecimals
  have hsplit : (['.'].intercalate pieces).splitOn '.' = pieces := by
    refine List.splitOn_intercalate '.' (fun piece hmem ↦ ?_) hne
    obtain ⟨n, hdecimal⟩ := hpieces piece hmem
    exact dot_notMem_of_digits hdecimal.isDigit
  have hlast : (['.'].intercalate pieces).getLast? ≠ some '.' := by
    intro hlast
    have hdot := List.dropLast_append_getLast? '.' hlast
    rw [← hdot, List.splitOn_append_cons_self, List.splitOn_nil] at hsplit
    obtain ⟨n, hdecimal⟩ := hpieces [] (hsplit ▸ List.mem_append_right _ List.mem_cons_self)
    exact hdecimal.ne_nil rfl
  rw [partsOf, if_neg hlast, hsplit]

/-- The numbers of a dotted string are those at the ends of its parts. -/
theorem IsDotted.filterMap_partsOf (hdotted : IsDotted s numbers) :
    (partsOf s).filterMap (numberAt c99) = numbers.map ofNat := by
  obtain ⟨pieces, hne, rfl, hdecimals⟩ := hdotted
  rw [partsOf_intercalate hne hdecimals, filterMap_numberAt hdecimals]

theorem ofNat_injective : Function.Injective ofNat :=
  fun _ _ heq ↦ Nat.cast_injective (Number.finite.inj heq)

end Decimals

/-! ### The validator -/

section Validator

variable {c99 : Bool} {aname elname sectname s : Name} {items : List LuaValue} {aval : LuaValue}
  {quad numbers : List ℕ}

/-- An octet is a natural up to 255. -/
theorem isOctet_iff : isOctet aval = true ↔ ∃ n ≤ 255, aval = .number (ofNat n) := by
  constructor
  · intro hoctet
    unfold isOctet at hoctet
    split at hoctet
    · next q =>
      simp only [Bool.not_eq_true', Bool.or_eq_false_iff, decide_eq_false_iff_not, not_not,
        not_lt] at hoctet
      obtain ⟨⟨hfloor, hnonneg⟩, hle⟩ := hoctet
      obtain ⟨n, hn⟩ := Int.eq_ofNat_of_zero_le (Int.floor_nonneg.mpr hnonneg)
      have hq : q = n := by
        rw [← hfloor, hn]
        rfl
      refine ⟨n, ?_, congrArg (LuaValue.number ∘ Number.finite) hq⟩
      rw [hq] at hle
      exact_mod_cast hle
    · exact Bool.noConfusion hoctet
  · rintro ⟨n, hle, rfl⟩
    have hfloor : (⌊(n : ℚ)⌋ : ℚ) = n := by rw [Int.floor_natCast, Int.cast_natCast]
    have hq : (n : ℚ) ≤ 255 := by exact_mod_cast hle
    have hnonneg : ¬(n : ℚ) < 0 := not_lt.mpr (Nat.cast_nonneg n)
    change (!(decide ((⌊(n : ℚ)⌋ : ℚ) ≠ n) || decide ((n : ℚ) < 0) || decide ((n : ℚ) > 255))) =
      true
    rw [decide_eq_false (not_not.mpr hfloor), decide_eq_false hnonneg,
      decide_eq_false (not_lt.mpr hq)]
    rfl

/-- Octets are the numbers of naturals up to 255. -/
theorem exists_octets (hoctets : ∀ item ∈ items, isOctet item = true) :
    ∃ numbers : List ℕ, (∀ n ∈ numbers, n ≤ 255) ∧ items = (numbers.map ofNat).map .number := by
  induction items with
  | nil => exact ⟨[], fun n hmem ↦ absurd hmem List.not_mem_nil, rfl⟩
  | cons item items ih =>
    obtain ⟨hitem, hrest⟩ := List.forall_mem_cons.mp hoctets
    obtain ⟨n, hle, rfl⟩ := isOctet_iff.mp hitem
    obtain ⟨numbers, hnumbers, rfl⟩ := ih hrest
    exact ⟨n :: numbers, List.forall_mem_cons.mpr ⟨hle, hnumbers⟩, rfl⟩

/-- A table passes the checks exactly if it holds four octets. -/
theorem checkIp_eq_ok_iff : checkIp aname elname sectname items = .ok aval ↔
    ∃ quad, IsQuad quad ∧ items = (quad.map ofNat).map .number ∧ aval = tableOf quad := by
  unfold checkIp
  constructor
  · intro hok
    split_ifs at hok with hlength hoctets
    rw [not_not] at hlength
    rw [← hlength, List.take_length, List.all_eq_true] at hoctets
    obtain ⟨quad, hle, rfl⟩ := exists_octets hoctets
    rw [List.length_map, List.length_map] at hlength
    exact ⟨quad, ⟨hlength, hle⟩, rfl, (Except.ok.inj hok).symm⟩
  · rintro ⟨quad, hquad, rfl, rfl⟩
    have hlength : ((quad.map ofNat).map LuaValue.number).length = 4 := by
      rw [List.length_map, List.length_map, hquad.length_eq]
    have hoctets : (((quad.map ofNat).map LuaValue.number).take 4).all isOctet = true := by
      rw [List.all_eq_true]
      intro item hmem
      obtain ⟨number, hnumber, rfl⟩ := List.mem_map.mp (List.mem_of_mem_take hmem)
      obtain ⟨n, hn, rfl⟩ := List.mem_map.mp hnumber
      exact isOctet_iff.mpr ⟨n, hquad.le n hn, rfl⟩
    rw [if_neg (not_not.mpr hlength), if_pos hoctets]
    rfl

/-- A string is accepted exactly if four octets are read, as their table. -/
theorem validateIp_string_iff :
    validateIp c99 ipAttr aname (.string s) elname sectname = .ok aval ↔
      ∃ quad, IsQuad quad ∧ (partsOf s).filterMap (numberAt c99) = quad.map ofNat ∧
        aval = tableOf quad := by
  have hinjective : Function.Injective LuaValue.number := fun _ _ ↦ LuaValue.number.inj
  change checkIp aname elname sectname ((scannedNumbers c99 s).map .number) = .ok aval ↔ _
  rw [checkIp_eq_ok_iff, scannedNumbers_eq]
  simp only [(List.map_injective_iff.mpr hinjective).eq_iff]

theorem accepts_iff_readsQuad (c99 : Bool) (aname elname sectname s : Name) :
    (∃ aval, validateIp c99 ipAttr aname (.string s) elname sectname = .ok aval) ↔
      ReadsQuad c99 s := by
  constructor
  · rintro ⟨aval, hok⟩
    obtain ⟨quad, hquad, hreads, -⟩ := validateIp_string_iff.mp hok
    exact ⟨quad, hquad, hreads⟩
  · rintro ⟨quad, hquad, hreads⟩
    exact ⟨tableOf quad, validateIp_string_iff.mpr ⟨quad, hquad, hreads, rfl⟩⟩

/-- A dotted string that is accepted is a dotted quad, and its numbers are those of the table. -/
theorem IsDotted.of_accepted (hdotted : IsDotted s numbers)
    (hok : validateIp c99 ipAttr aname (.string s) elname sectname = .ok aval) :
    IsQuad numbers ∧ aval = tableOf numbers := by
  obtain ⟨quad, hquad, hreads, rfl⟩ := validateIp_string_iff.mp hok
  rw [hdotted.filterMap_partsOf] at hreads
  obtain rfl : numbers = quad := List.map_injective_iff.mpr ofNat_injective hreads
  exact ⟨hquad, rfl⟩

/-- A dotted quad is read. -/
theorem readsQuad_of_isDotted (hquad : IsQuad quad) (hdotted : IsDotted s quad) :
    ReadsQuad c99 s := ⟨quad, hquad, hdotted.filterMap_partsOf⟩

/-- The validator is right about a string exactly if it consists of decimal numbers with a dot
between two of them, or the numbers at the ends of its parts are not four octets. -/
theorem ipRight_iff (c99 : Bool) (aname elname sectname s : Name) :
    IpRight c99 aname elname sectname s ↔
      (∃ numbers, IsDotted s numbers) ∨ ¬ReadsQuad c99 s := by
  constructor
  · intro hright
    by_cases hreads : ReadsQuad c99 s
    · have haccepted := (accepts_iff_readsQuad c99 aname elname sectname s).mpr hreads
      obtain ⟨quad, -, hdotted⟩ := hright.accepts_iff.mp haccepted
      exact .inl ⟨quad, hdotted⟩
    · exact .inr hreads
  · intro hcondition
    have hnumbers : ∀ aval, validateIp c99 ipAttr aname (.string s) elname sectname = .ok aval →
        ∃ quad, IsQuad quad ∧ IsDotted s quad ∧ aval = tableOf quad := by
      intro aval hok
      rcases hcondition with ⟨numbers, hdotted⟩ | hreads
      · obtain ⟨hquad, hvalue⟩ := hdotted.of_accepted hok
        exact ⟨numbers, hquad, hdotted, hvalue⟩
      · exact absurd ((accepts_iff_readsQuad ..).mp ⟨aval, hok⟩) hreads
    refine ⟨⟨?_, ?_⟩, hnumbers⟩
    · rintro ⟨aval, hok⟩
      obtain ⟨quad, hquad, hdotted, -⟩ := hnumbers aval hok
      exact ⟨quad, hquad, hdotted⟩
    · rintro ⟨quad, hquad, hdotted⟩
      exact (accepts_iff_readsQuad ..).mpr (readsQuad_of_isDotted hquad hdotted)

theorem isDotted_nil_notMem (hdotted : IsDotted s numbers) : [] ∉ partsOf s := by
  obtain ⟨pieces, hne, rfl, hdecimals⟩ := hdotted
  rw [partsOf_intercalate hne hdecimals]
  intro hmem
  obtain ⟨n, hdecimal⟩ := mem_isDecimal hdecimals [] hmem
  exact hdecimal.ne_nil rfl

/-- `10..0.0.1`. -/
def emptyPart : Name := ['1', '0', '.', '.', '0', '.', '0', '.', '1']

/-- An address with an empty part is accepted. -/
theorem not_ipRight_emptyPart :
    ¬IpRight true "ip".toList "tcpip".toList "config".toList emptyPart := by
  have hreads : ReadsQuad true emptyPart := ⟨[10, 0, 0, 1], ⟨rfl, by decide⟩, by decide⟩
  intro hright
  obtain ⟨quad, -, hdotted⟩ := hright.accepts_iff.mp ((accepts_iff_readsQuad ..).mpr hreads)
  exact isDotted_nil_notMem hdotted (by decide)

end Validator

/-! ### Addresses as they are written -/

section Written

variable {c99 : Bool} {aname elname sectname : Name} {quad : List ℕ}

theorem isDecimal_toDigits (n : ℕ) : IsDecimal (Nat.toDigits 10 n) n where
  ne_nil := Nat.toDigits_ne_nil
  isDigit := fun _ hmem ↦ Nat.isDigit_of_mem_toDigits (by norm_num) le_rfl hmem
  value := Nat.ofDigitChars_ten_toDigits

/-- Numbers that are written with dots between them. -/
theorem isDotted_toDigits {numbers : List ℕ} (hne : numbers ≠ []) :
    IsDotted (['.'].intercalate (numbers.map (Nat.toDigits 10))) numbers := by
  refine ⟨_, fun hnil ↦ hne (List.map_eq_nil_iff.mp hnil), rfl, ?_⟩
  rw [List.forall₂_map_left_iff, List.forall₂_same]
  exact fun n _ ↦ isDecimal_toDigits n

/-- Every address is accepted as it is written. -/
theorem validateIp_toDigits (hquad : IsQuad quad) : validateIp c99 ipAttr aname
    (.string (['.'].intercalate (quad.map (Nat.toDigits 10)))) elname sectname =
      .ok (tableOf quad) := by
  have hne : quad ≠ [] := List.ne_nil_of_length_eq_add_one hquad.length_eq
  exact validateIp_string_iff.mpr
    ⟨quad, hquad, (isDotted_toDigits hne).filterMap_partsOf, rfl⟩

end Written

end Elua.Config
