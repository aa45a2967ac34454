import Mathlib.Data.Nat.Log
import Mathlib.Tactic.Common
import Mathlib.Tactic.Ring

/-!
# Integers in binary floating point formats

A floating point number is given by its bits: a sign, a biased exponent and a mantissa, whose
leading one is left out of normal numbers (`FloatFormat`). `truncate` cuts off the fraction of a
finite number, `integerValue` is the integer that a number is equal to, if any, and `ofInt` converts
an integer, rounding to the nearest number and to the even one of two.

An integer that is equal to a number of the format is converted to a number equal to it
(`integerValue_ofInt`).
-/

set_option autoImplicit false
set_option relaxedAutoImplicit false

namespace Elua.Foundation

/-- The numbers of bits of the mantissa and of the exponent. -/
structure FloatFormat where
  mantissaBits : ℕ
  exponentBits : ℕ
  exponentBits_gt : 1 < exponentBits

namespace FloatFormat

/-- Single precision. -/
def binary32 : FloatFormat := ⟨23, 8, by decide⟩

/-- Double precision. -/
def binary64 : FloatFormat := ⟨52, 11, by decide⟩

variable (format : FloatFormat)

/-- The exponent field of the number one. -/
def bias : ℕ := 2 ^ (format.exponentBits - 1) - 1

/-- The exponent field. -/
def exponentField (bits : ℕ) : ℕ := bits / 2 ^ format.mantissaBits % 2 ^ format.exponentBits

/-- Whether the number is negative. -/
def negative (bits : ℕ) : Bool :=
  decide (bits / 2 ^ (format.mantissaBits + format.exponentBits) % 2 = 1)

/-- The mantissa, with the leading one of normal numbers. -/
def significand (bits : ℕ) : ℕ :=
  bits % 2 ^ format.mantissaBits +
    if format.exponentField bits = 0 then 0 else 2 ^ format.mantissaBits

/-- The exponent of the last place, as far as it is positive. -/
def scaleUp (bits : ℕ) : ℕ :=
  max (format.exponentField bits) 1 - (format.bias + format.mantissaBits)

/-- The exponent of the last place, as far as it is negative. -/
def scaleDown (bits : ℕ) : ℕ :=
  format.bias + format.mantissaBits - max (format.exponentField bits) 1

/-- Neither infinite nor not a number. -/
def finite (bits : ℕ) : Prop := format.exponentField bits ≠ 2 ^ format.exponentBits - 1

instance (bits : ℕ) : Decidable (format.finite bits) := inferInstanceAs (Decidable (_ ≠ _))

/-- Not a number. -/
def isNaN (bits : ℕ) : Bool :=
  decide (¬ format.finite bits ∧ bits % 2 ^ format.mantissaBits ≠ 0)

/-- An absolute value with the sign of the number. -/
def signed (bits magnitude : ℕ) : ℤ := if format.negative bits then -magnitude else magnitude

/-- A finite number without its fraction. -/
def truncate (bits : ℕ) : Option ℤ :=
  if format.finite bits then
    some (format.signed bits
      (format.significand bits * 2 ^ format.scaleUp bits / 2 ^ format.scaleDown bits))
  else none

/-- The integer that a number is equal to. -/
def integerValue (bits : ℕ) : Option ℤ :=
  if 2 ^ format.scaleDown bits ∣ format.significand bits * 2 ^ format.scaleUp bits then
    format.truncate bits
  else none

/-- The quotient by a power of two, rounded to the nearest integer, and to the even one of two. -/
def roundHalfEven (value shift : ℕ) : ℕ :=
  let quotient := value / 2 ^ shift
  let rest := value % 2 ^ shift
  if 2 ^ shift < 2 * rest ∨ 2 ^ shift = 2 * rest ∧ quotient % 2 = 1 then quotient + 1 else quotient

/-- The mantissa of a positive integer, with its leading one. -/
def mantissaOf (value : ℕ) : ℕ :=
  if Nat.log 2 value ≤ format.mantissaBits then
    value * 2 ^ (format.mantissaBits - Nat.log 2 value)
  else roundHalfEven value (Nat.log 2 value - format.mantissaBits)

/-- The bits of the number next to a positive integer. Rounding up may carry into the exponent. -/
def ofPositive (value : ℕ) : ℕ :=
  (Nat.log 2 value + format.bias - 1) * 2 ^ format.mantissaBits + format.mantissaOf value

/-- The bits of the number next to an integer. -/
def ofInt (value : ℤ) : ℕ :=
  if value = 0 then 0
  else (if value < 0 then 2 ^ (format.mantissaBits + format.exponentBits) else 0) +
    format.ofPositive value.natAbs

variable {format}

/-- Nothing is rounded: the last place of the integer is within the mantissa. -/
def ExactIn (format : FloatFormat) (value : ℕ) : Prop :=
  2 ^ (Nat.log 2 value - format.mantissaBits) ∣ value

theorem truncate_of_integerValue {bits : ℕ} {value : ℤ}
    (hvalue : format.integerValue bits = some value) : format.truncate bits = some value := by
  unfold integerValue at hvalue
  split_ifs at hvalue
  exact hvalue

/-- A number that is equal to an integer is a number. -/
theorem isNaN_of_integerValue {bits : ℕ} {value : ℤ}
    (hvalue : format.integerValue bits = some value) : format.isNaN bits = false := by
  have htruncate := truncate_of_integerValue hvalue
  unfold truncate at htruncate
  split_ifs at htruncate with hfinite
  unfold isNaN
  exact decide_eq_false fun hboth ↦ hboth.1 hfinite

theorem significand_lt (bits : ℕ) : format.significand bits < 2 ^ (format.mantissaBits + 1) := by
  have hmantissa := Nat.mod_lt bits (Nat.two_pow_pos format.mantissaBits)
  unfold significand
  rw [pow_succ]
  split_ifs <;> omega

/-- Only such integers are equal to a number of the format. -/
theorem exactIn_of_integerValue {bits : ℕ} {value : ℤ}
    (hvalue : format.integerValue bits = some value) : format.ExactIn value.natAbs := by
  have htruncate := truncate_of_integerValue hvalue
  unfold truncate at htruncate
  split_ifs at htruncate with hfinite
  have hmagnitude : value.natAbs =
      format.significand bits * 2 ^ format.scaleUp bits / 2 ^ format.scaleDown bits := by
    rw [← Option.some.inj htruncate]
    unfold signed
    split_ifs <;> simp only [Int.natAbs_neg, Int.natAbs_natCast]
  have hdivides : 2 ^ format.scaleDown bits ∣
      format.significand bits * 2 ^ format.scaleUp bits := by
    unfold integerValue at hvalue
    split_ifs at hvalue with hdivides
    exact hdivides
  have hsignificand := format.significand_lt bits
  unfold ExactIn
  by_cases hzero : value.natAbs = 0
  · rw [hzero]
    exact dvd_zero _
  by_cases hdown : format.scaleDown bits = 0
  · rw [hdown, pow_zero, Nat.div_one] at hmagnitude
    have hlog : Nat.log 2 value.natAbs < format.mantissaBits + 1 + format.scaleUp bits := by
      refine Nat.log_lt_of_lt_pow hzero ?_
      rw [hmagnitude, pow_add]
      exact Nat.mul_lt_mul_of_pos_right hsignificand (Nat.two_pow_pos _)
    rw [hmagnitude] at hlog ⊢
    exact (Nat.pow_dvd_pow 2 (by omega)).trans (Nat.dvd_mul_left _ _)
  · have hup : format.scaleUp bits = 0 := by
      unfold scaleDown at hdown
      unfold scaleUp
      omega
    have hlog : Nat.log 2 value.natAbs < format.mantissaBits + 1 := by
      refine Nat.log_lt_of_lt_pow hzero (Nat.lt_of_le_of_lt ?_ hsignificand)
      rw [hmagnitude, hup, pow_zero, Nat.mul_one]
      exact Nat.div_le_self _ _
    rw [Nat.sub_eq_zero_of_le (by omega), pow_zero]
    exact one_dvd _

/-- The mantissa of an integer that is not rounded. -/
theorem mantissaOf_spec {value : ℕ} (hpositive : value ≠ 0) (hexact : format.ExactIn value) :
    format.mantissaOf value * 2 ^ (Nat.log 2 value - format.mantissaBits) =
        value * 2 ^ (format.mantissaBits - Nat.log 2 value) ∧
      2 ^ format.mantissaBits ≤ format.mantissaOf value ∧
      format.mantissaOf value < 2 ^ (format.mantissaBits + 1) := by
  have hlow := Nat.pow_log_le_self 2 hpositive
  have hhigh := Nat.lt_pow_succ_log_self (b := 2) (by decide) value
  unfold mantissaOf
  split_ifs with hsmall
  · have hsum : 2 ^ Nat.log 2 value * 2 ^ (format.mantissaBits - Nat.log 2 value) =
        2 ^ format.mantissaBits := by
      rw [← pow_add, Nat.add_sub_cancel' hsmall]
    have hscale := Nat.two_pow_pos (format.mantissaBits - Nat.log 2 value)
    refine ⟨by rw [Nat.sub_eq_zero_of_le hsmall, pow_zero, Nat.mul_one], ?_, ?_⟩
    · rw [← hsum]
      exact Nat.mul_le_mul_right _ hlow
    · calc value * 2 ^ (format.mantissaBits - Nat.log 2 value)
          < 2 ^ (Nat.log 2 value + 1) * 2 ^ (format.mantissaBits - Nat.log 2 value) :=
            Nat.mul_lt_mul_of_pos_right hhigh hscale
        _ = 2 ^ (format.mantissaBits + 1) := by
            rw [pow_succ, Nat.mul_right_comm, hsum, pow_succ]
  · obtain ⟨quotient, hquotient⟩ := hexact
    generalize hshift : Nat.log 2 value - format.mantissaBits = shift at hquotient ⊢
    have hunit := Nat.two_pow_pos shift
    have hround : roundHalfEven value shift = quotient := by
      unfold roundHalfEven
      dsimp only
      rw [hquotient, Nat.mul_mod_right, Nat.mul_div_cancel_left _ hunit, if_neg (by omega)]
    have hlog : Nat.log 2 value = shift + format.mantissaBits := by omega
    rw [hround]
    refine ⟨?_, ?_, ?_⟩
    · rw [Nat.sub_eq_zero_of_le (Nat.le_of_not_le hsmall), pow_zero, Nat.mul_one, hquotient,
        Nat.mul_comm]
    · refine Nat.le_of_mul_le_mul_left ?_ hunit
      rw [← hquotient, ← pow_add, ← hlog]
      exact hlow
    · refine Nat.lt_of_mul_lt_mul_left (a := 2 ^ shift) ?_
      rw [← hquotient, ← pow_add, ← Nat.add_assoc, ← hlog]
      exact hhigh

/-- The fields of a number that is put together. -/
theorem fields_of_parts {sign exponent mantissa : ℕ} (hsign : sign < 2)
    (hexponent : exponent < 2 ^ format.exponentBits)
    (hmantissa : mantissa < 2 ^ format.mantissaBits) {bits : ℕ} (hbits : bits = (sign * 2 ^ format.exponentBits + exponent) *
      2 ^ format.mantissaBits + mantissa) :
    bits % 2 ^ format.mantissaBits = mantissa ∧ format.exponentField bits = exponent ∧
      format.negative bits = decide (sign = 1) := by
  have hunit := Nat.two_pow_pos format.mantissaBits
  have hquotient : bits / 2 ^ format.mantissaBits = sign * 2 ^ format.exponentBits + exponent := by
    rw [hbits, Nat.mul_comm, Nat.mul_add_div hunit, Nat.div_eq_of_lt hmantissa, Nat.add_zero]
  refine ⟨?_, ?_, ?_⟩
  · rw [hbits, Nat.mul_comm, Nat.mul_add_mod, Nat.mod_eq_of_lt hmantissa]
  · unfold exponentField
    rw [hquotient, Nat.mul_comm, Nat.mul_add_mod, Nat.mod_eq_of_lt hexponent]
  · unfold negative
    rw [pow_add, ← Nat.div_div_eq_div_mul, hquotient, Nat.mul_comm,
      Nat.mul_add_div (Nat.two_pow_pos _), Nat.div_eq_of_lt hexponent, Nat.add_zero,
      Nat.mod_eq_of_lt hsign]

theorem bias_pos : 0 < format.bias := by
  have hexponent := format.exponentBits_gt
  have hpow : 2 ^ 1 ≤ 2 ^ (format.exponentBits - 1) := Nat.pow_le_pow_right (by decide) (by omega)
  unfold bias
  omega

theorem integerValue_zero : format.integerValue 0 = some 0 := by
  have hexponent := format.exponentBits_gt
  have hpow : 2 ^ 2 ≤ 2 ^ format.exponentBits := Nat.pow_le_pow_right (by decide) hexponent
  have hfield : format.exponentField 0 = 0 := by simp [exponentField]
  have hsignificand : format.significand 0 = 0 := by simp [significand, hfield]
  have hfinite : format.finite 0 := by
    unfold finite
    rw [hfield]
    omega
  unfold integerValue truncate
  rw [hsignificand, Nat.zero_mul, if_pos (dvd_zero _), if_pos hfinite, Nat.zero_div]
  simp [signed]

/-- The number that is put together from a sign and a positive integer. -/
theorem integerValue_ofPositive (sign : ℕ) {value : ℕ} (hsign : sign < 2) (hpositive : value ≠ 0)
    (hexact : format.ExactIn value)
    (hrange : Nat.log 2 value + format.bias < 2 ^ format.exponentBits - 1) :
    format.integerValue
        (sign * 2 ^ (format.mantissaBits + format.exponentBits) + format.ofPositive value) =
      some (if sign = 1 then -(value : ℤ) else value) := by
  obtain ⟨hscaled, hlow, hhigh⟩ := mantissaOf_spec hpositive hexact
  have hbias := format.bias_pos
  have hunit := Nat.two_pow_pos format.mantissaBits
  have hmantissa : format.mantissaOf value - 2 ^ format.mantissaBits < 2 ^ format.mantissaBits := by
    rw [pow_succ] at hhigh
    omega
  -- the leading one of the mantissa goes to the exponent
  have hbits : sign * 2 ^ (format.mantissaBits + format.exponentBits) + format.ofPositive value =
      (sign * 2 ^ format.exponentBits + (Nat.log 2 value + format.bias)) *
        2 ^ format.mantissaBits + (format.mantissaOf value - 2 ^ format.mantissaBits) := by
    obtain ⟨exponent, hexponent⟩ : ∃ exponent, Nat.log 2 value + format.bias = exponent + 1 :=
      ⟨Nat.log 2 value + format.bias - 1, by omega⟩
    unfold ofPositive
    rw [hexponent, Nat.add_sub_cancel, pow_add]
    have hsplit : format.mantissaOf value =
        2 ^ format.mantissaBits + (format.mantissaOf value - 2 ^ format.mantissaBits) := by omega
    generalize format.mantissaOf value - 2 ^ format.mantissaBits = rest at hsplit ⊢
    rw [hsplit]
    ring
  obtain ⟨hlast, hfield, hnegative⟩ := fields_of_parts hsign (by omega) hmantissa hbits
  generalize sign * 2 ^ (format.mantissaBits + format.exponentBits) + format.ofPositive value =
    bits at hlast hfield hnegative ⊢
  have hfinite : format.finite bits := by
    unfold finite
    rw [hfield]
    omega
  have hsignificand : format.significand bits = format.mantissaOf value := by
    unfold significand
    rw [hlast, hfield, if_neg (by omega)]
    omega
  have hup : format.scaleUp bits = Nat.log 2 value - format.mantissaBits := by
    unfold scaleUp
    rw [hfield]
    omega
  have hdown : format.scaleDown bits = format.mantissaBits - Nat.log 2 value := by
    unfold scaleDown
    rw [hfield]
    omega
  unfold integerValue truncate signed
  rw [hsignificand, hup, hdown, hscaled, if_pos (Nat.dvd_mul_left _ _), if_pos hfinite,
    Nat.mul_div_cancel _ (Nat.two_pow_pos _), hnegative]
  simp only [decide_eq_true_eq]

/-- An integer that needs no rounding and is within the range of the format is converted to a number
equal to it. -/
theorem integerValue_ofInt {value : ℤ} (hexact : format.ExactIn value.natAbs)
    (hrange : Nat.log 2 value.natAbs + format.bias < 2 ^ format.exponentBits - 1) :
    format.integerValue (format.ofInt value) = some value := by
  unfold ofInt
  split_ifs with hzero hnegative
  · rw [hzero]
    exact integerValue_zero
  · have hvalue := integerValue_ofPositive 1 (by decide) (by omega) hexact hrange
    rw [Nat.one_mul, if_pos rfl] at hvalue
    rw [hvalue]
    congr 1
    omega
  · have hvalue := integerValue_ofPositive 0 (by decide) (by omega) hexact hrange
    rw [Nat.zero_mul, if_neg (by decide)] at hvalue
    rw [hvalue]
    congr 1
    omega

/-- The bits of such an integer are within the width of the format. -/
theorem ofInt_lt {value : ℤ} (hexact : format.ExactIn value.natAbs)
    (hrange : Nat.log 2 value.natAbs + format.bias < 2 ^ format.exponentBits - 1) :
    format.ofInt value < 2 ^ (format.mantissaBits + format.exponentBits + 1) := by
  have hbias := format.bias_pos
  have hunit := Nat.two_pow_pos (format.mantissaBits + format.exponentBits)
  unfold ofInt
  rw [pow_succ]
  split_ifs with hzero
  · omega
  all_goals
    obtain ⟨-, -, hhigh⟩ := mantissaOf_spec (Int.natAbs_ne_zero.mpr hzero) hexact
    have hpositive : format.ofPositive value.natAbs <
        2 ^ (format.mantissaBits + format.exponentBits) := by
      calc format.ofPositive value.natAbs
          < (Nat.log 2 value.natAbs + format.bias - 1) * 2 ^ format.mantissaBits +
              2 ^ (format.mantissaBits + 1) := Nat.add_lt_add_left hhigh _
        _ = (Nat.log 2 value.natAbs + format.bias - 1 + 2) * 2 ^ format.mantissaBits := by ring
        _ ≤ 2 ^ format.exponentBits * 2 ^ format.mantissaBits :=
            Nat.mul_le_mul_right _ (by omega)
        _ = 2 ^ (format.mantissaBits + format.exponentBits) := by rw [← pow_add, Nat.add_comm]
    omega

/-- An integer that is not larger than a mantissa keeps its value. -/
theorem ofInt_of_le {value : ℤ}
    (hformat : format.mantissaBits + format.bias < 2 ^ format.exponentBits - 1)
    (hvalue : value.natAbs ≤ 2 ^ format.mantissaBits) :
    format.ofInt value < 2 ^ (format.mantissaBits + format.exponentBits + 1) ∧
      format.integerValue (format.ofInt value) = some value := by
  have hlog : Nat.log 2 value.natAbs ≤ format.mantissaBits := by
    rw [← Nat.log_pow (by decide : 1 < 2) format.mantissaBits]
    exact Nat.log_mono_right hvalue
  have hexact : format.ExactIn value.natAbs := by
    rw [ExactIn, Nat.sub_eq_zero_of_le hlog, pow_zero]
    exact one_dvd _
  have hrange := (Nat.add_le_add_right hlog _).trans_lt hformat
  exact ⟨ofInt_lt hexact hrange, integerValue_ofInt hexact hrange⟩

end FloatFormat

end Elua.Foundation
