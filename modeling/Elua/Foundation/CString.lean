import Mathlib.Data.Int.Notation
import Mathlib.Data.List.Basic
import Mathlib.Data.List.TakeWhile
import Mathlib.Tactic.Common

/-!
# C strings and the comparison that ignores case

A C string is the list of its bytes without the terminating zero, so it holds no zero itself
(`CString`). `strncasecmp` compares at most a number of bytes after `tolower`, the end of a string
counting as a zero byte. It returns zero exactly when the folded prefixes are equal
(`strncasecmp_eq_zero_iff`), which makes `SameName`, equality of names up to a length and up to
case, an equivalence. `strcasecmp` compares whole strings, and comparing with all bytes of a name
tells whether the name begins a string. `strcmp` returns zero exactly for equal strings.
-/

set_option autoImplicit false
set_option relaxedAutoImplicit false

namespace Elua.Foundation

/-- A string of C: its bytes, without the terminating zero. -/
structure CString where
  /-- The bytes before the terminating zero. -/
  bytes : List UInt8
  /-- None of them ends the string. -/
  zero_notMem : (0 : UInt8) ∉ bytes
  deriving DecidableEq

/-- The number of bytes before the terminating zero. -/
def CString.strlen (string : CString) : ℕ := string.bytes.length

/-- The string `a` holds no zero. -/
theorem zero_notMem_a : (0 : UInt8) ∉ [0x61] := by decide

/-- The string at the start of a buffer: what comes before its first zero. -/
def CString.ofBuffer (buffer : List UInt8) : CString where
  bytes := buffer.takeWhile (· ≠ 0)
  zero_notMem := fun hmem ↦ absurd (List.mem_takeWhile_imp hmem) (by decide)

/-- A buffer that holds bytes without a zero, ended by one. -/
theorem CString.bytes_ofBuffer_append {bytes : List UInt8} (hzero : (0 : UInt8) ∉ bytes)
    (rest : List UInt8) : (CString.ofBuffer (bytes ++ 0 :: rest)).bytes = bytes := by
  have hall : ∀ byte ∈ bytes, (decide (byte ≠ 0)) = true := fun byte hmem ↦
    decide_eq_true fun heq ↦ hzero (heq ▸ hmem)
  change (bytes ++ 0 :: rest).takeWhile (· ≠ 0) = bytes
  rw [List.takeWhile_append_of_pos hall, List.takeWhile_cons_of_neg (by decide), List.append_nil]

theorem CString.bytes_ofBuffer {bytes : List UInt8} (hzero : (0 : UInt8) ∉ bytes) :
    (CString.ofBuffer (bytes ++ [0])).bytes = bytes := bytes_ofBuffer_append hzero []

/-- Compares two strings: zero, or the difference of the first two bytes that differ, the end of a
string counting as a zero byte. -/
def strcmp : List UInt8 → List UInt8 → ℤ
  | [], [] => 0
  | [], byte :: _ => 0 - (byte.toNat : ℤ)
  | byte :: _, [] => byte.toNat
  | first :: firsts, second :: seconds =>
    if first = second then strcmp firsts seconds else (first.toNat : ℤ) - second.toNat

/-- The comparison returns zero exactly for equal strings. -/
theorem strcmp_eq_zero_iff {first second : List UInt8} (hfirst : (0 : UInt8) ∉ first)
    (hsecond : (0 : UInt8) ∉ second) : strcmp first second = 0 ↔ first = second := by
  fun_induction strcmp first second with
  | case1 => simp
  | case2 byte rest =>
    have hbyte : byte.toNat ≠ (0 : UInt8).toNat := fun hzero ↦
      hsecond (UInt8.toNat_inj.mp hzero ▸ List.mem_cons_self)
    rw [UInt8.toNat_zero] at hbyte
    simp only [reduceCtorEq, iff_false]
    omega
  | case3 byte rest =>
    have hbyte : byte.toNat ≠ (0 : UInt8).toNat := fun hzero ↦
      hfirst (UInt8.toNat_inj.mp hzero ▸ List.mem_cons_self)
    rw [UInt8.toNat_zero] at hbyte
    simp only [reduceCtorEq, iff_false]
    omega
  | case4 firsts second seconds ih =>
    simp only [List.mem_cons, not_or] at hfirst hsecond
    simp only [List.cons.injEq, true_and]
    exact ih hfirst.2 hsecond.2
  | case5 first firsts second seconds hdiffer =>
    have hnat : first.toNat ≠ second.toNat := fun heq ↦ hdiffer (UInt8.toNat_inj.mp heq)
    simp only [List.cons.injEq, hdiffer, false_and, iff_false]
    omega

/-- The lower case of an upper case letter, every other byte unchanged. -/
def tolower (byte : UInt8) : UInt8 :=
  if 65 ≤ byte.toNat ∧ byte.toNat ≤ 90 then byte + 32 else byte

/-- Compares at most `count` bytes of two strings, ignoring case. The result is zero, or the
difference of the first two folded bytes that differ. -/
def strncasecmp : ℕ → List UInt8 → List UInt8 → ℤ
  | 0, _, _ => 0
  | _ + 1, [], [] => 0
  | _ + 1, [], byte :: _ => 0 - ((tolower byte).toNat : ℤ)
  | _ + 1, byte :: _, [] => (tolower byte).toNat
  | count + 1, first :: firsts, second :: seconds =>
    if tolower first = tolower second then strncasecmp count firsts seconds
    else ((tolower first).toNat : ℤ) - (tolower second).toNat

/-- The first `count` bytes of a name, folded to lower case. -/
def foldedPrefix (count : ℕ) (name : List UInt8) : List UInt8 := (name.take count).map tolower

/-- Two names agree in their first `count` bytes, ignoring case. -/
def SameName (count : ℕ) (first second : List UInt8) : Prop :=
  foldedPrefix count first = foldedPrefix count second

instance (count : ℕ) (first second : List UInt8) : Decidable (SameName count first second) :=
  inferInstanceAs (Decidable (_ = _))

theorem SameName.rfl {count : ℕ} {name : List UInt8} : SameName count name name := Eq.refl _

theorem SameName.symm {count : ℕ} {first second : List UInt8}
    (hsame : SameName count first second) : SameName count second first := Eq.symm hsame

theorem SameName.trans {count : ℕ} {first second third : List UInt8}
    (hfirst : SameName count first second) (hsecond : SameName count second third) :
    SameName count first third := Eq.trans hfirst hsecond

/-- Only the zero byte folds to zero. -/
theorem tolower_eq_zero {byte : UInt8} (hfold : (tolower byte).toNat = 0) : byte = 0 := by
  unfold tolower at hfold
  split_ifs at hfold with hupper
  · rw [UInt8.toNat_add] at hfold
    have hsum : (32 : UInt8).toNat = 32 := rfl
    omega
  · exact UInt8.toNat_inj.mp hfold

/-- The comparison returns zero exactly when the folded prefixes are equal. -/
theorem strncasecmp_eq_zero_iff {count : ℕ} {first second : List UInt8}
    (hfirst : (0 : UInt8) ∉ first) (hsecond : (0 : UInt8) ∉ second) :
    strncasecmp count first second = 0 ↔ SameName count first second := by
  unfold SameName foldedPrefix
  fun_induction strncasecmp count first second with
  | case1 => simp
  | case2 => simp
  | case3 count byte rest =>
    have hbyte : (tolower byte).toNat ≠ 0 := fun hfold ↦
      hsecond (tolower_eq_zero hfold ▸ List.mem_cons_self)
    simp only [List.take_nil, List.map_nil, List.take_succ_cons, List.map_cons]
    constructor
    · omega
    · simp
  | case4 count byte rest =>
    have hbyte : (tolower byte).toNat ≠ 0 := fun hfold ↦
      hfirst (tolower_eq_zero hfold ▸ List.mem_cons_self)
    simp only [List.take_nil, List.map_nil, List.take_succ_cons, List.map_cons]
    constructor
    · omega
    · simp
  | case5 count first firsts second seconds hsame ih =>
    simp only [List.mem_cons, not_or] at hfirst hsecond
    simp only [List.take_succ_cons, List.map_cons, List.cons.injEq, hsame, true_and]
    exact ih hfirst.2 hsecond.2
  | case6 count first firsts second seconds hdiffer =>
    have hnat : (tolower first).toNat ≠ (tolower second).toNat := fun heq ↦
      hdiffer (UInt8.toNat_inj.mp heq)
    simp only [List.take_succ_cons, List.map_cons, List.cons.injEq, hdiffer, false_and, iff_false]
    omega

/-- A name folded to lower case. -/
def folded (name : List UInt8) : List UInt8 := name.map tolower

/-- Compares two whole strings, ignoring case. -/
def strcasecmp (first second : List UInt8) : ℤ :=
  strncasecmp (max first.length second.length) first second

/-- Whole strings compare equal exactly when they agree up to case. -/
theorem strcasecmp_eq_zero_iff {first second : List UInt8} (hfirst : (0 : UInt8) ∉ first)
    (hsecond : (0 : UInt8) ∉ second) : strcasecmp first second = 0 ↔ folded first = folded second := by
  unfold strcasecmp
  rw [strncasecmp_eq_zero_iff hfirst hsecond, SameName, foldedPrefix, foldedPrefix,
    List.take_of_length_le (Nat.le_max_left ..), List.take_of_length_le (Nat.le_max_right ..)]
  exact Iff.rfl

/-- A string compares equal to a name over the length of the name exactly when the name begins it,
up to case. -/
theorem strncasecmp_length_eq_zero_iff {path name : List UInt8} (hpath : (0 : UInt8) ∉ path)
    (hname : (0 : UInt8) ∉ name) :
    strncasecmp name.length path name = 0 ↔ folded name <+: folded path := by
  rw [strncasecmp_eq_zero_iff hpath hname, SameName, foldedPrefix, foldedPrefix, List.take_length,
    folded, folded, List.prefix_iff_eq_take, List.length_map, List.map_take]
  exact eq_comm

end Elua.Foundation
