import Mathlib.Algebra.Polynomial.Div
import Mathlib.Algebra.Field.ZMod
import Mathlib.Algebra.CharP.Two

/-!
# Cyclic redundancy checks

The bits of a word are the coefficients of a polynomial over the field of two elements. A check of
width `w` is given by the word of its generator without the leading term. Shifting the check by one
bit and reducing it multiplies by `X` modulo the generator (`wordPolynomial_crcShift`), so the check
of a message that is computed byte by byte is the remainder of the message shifted by `w` bits
(`wordPolynomial_crc`), and it is the only word that is (`crc_eq_iff`). -/

set_option autoImplicit false
set_option relaxedAutoImplicit false

namespace Elua.Foundation

open Polynomial

/-! ### The check -/

section Check

variable {width : ℕ}

/-- Shifts a check by one bit. -/
def crcShift (generator check : BitVec width) : BitVec width :=
  if check.msb then check <<< 1 ^^^ generator else check <<< 1

/-- Adds a byte to a check. -/
def crcByte (generator check : BitVec width) (byte : UInt8) : BitVec width :=
  (crcShift generator)^[8] (check ^^^ byte.toBitVec.setWidth width <<< (width - 8))

/-- The check of a message, with the initial value zero. -/
def crc (generator : BitVec width) (message : List UInt8) : BitVec width :=
  message.foldl (crcByte generator) 0

end Check

/-! ### Words as polynomials -/

noncomputable section

variable {width : ℕ}

/-- The polynomial of a word. -/
def wordPolynomial (word : BitVec width) : (ZMod 2)[X] :=
  ∑ i ∈ Finset.range width, if word.getLsbD i then X ^ i else 0

/-- The polynomial of a message, whose first byte has the highest degree. -/
def messagePolynomial (message : List UInt8) : (ZMod 2)[X] :=
  message.foldl (fun polynomial byte ↦ X ^ 8 * polynomial + wordPolynomial byte.toBitVec) 0

/-- The generator with its leading term. -/
def generatorPolynomial (generator : BitVec width) : (ZMod 2)[X] :=
  X ^ width + wordPolynomial generator

theorem coeff_wordPolynomial (word : BitVec width) (n : ℕ) :
    (wordPolynomial word).coeff n = if word.getLsbD n then 1 else 0 := by
  rw [wordPolynomial, finsetSum_coeff]
  by_cases hn : n < width
  · rw [Finset.sum_eq_single_of_mem n (Finset.mem_range.mpr hn)]
    · split_ifs
      · rw [coeff_X_pow_self]
      · rw [coeff_zero]
    · intro i _ hne
      split_ifs
      · rw [coeff_X_pow, if_neg (Ne.symm hne)]
      · rw [coeff_zero]
  · rw [BitVec.getLsbD_of_ge word n (Nat.le_of_not_lt hn), if_neg Bool.false_ne_true]
    refine Finset.sum_eq_zero fun i hi ↦ ?_
    have hlt := Finset.mem_range.mp hi
    split_ifs
    · rw [coeff_X_pow, if_neg (by omega)]
    · rw [coeff_zero]

/-- A word is determined by its polynomial. -/
theorem wordPolynomial_injective : Function.Injective (@wordPolynomial width) := by
  intro first second heq
  refine BitVec.eq_of_getLsbD_eq fun i _ ↦ ?_
  have hcoeff := congrArg (coeff · i) heq
  simp only [coeff_wordPolynomial] at hcoeff
  cases hfirst : first.getLsbD i <;> cases hsecond : second.getLsbD i <;> simp_all

@[simp] theorem wordPolynomial_zero : wordPolynomial (0 : BitVec width) = 0 := by
  ext n
  simp [coeff_wordPolynomial]

/-- Exclusive or adds. -/
theorem wordPolynomial_xor (first second : BitVec width) :
    wordPolynomial (first ^^^ second) = wordPolynomial first + wordPolynomial second := by
  ext n
  simp only [coeff_add, coeff_wordPolynomial, BitVec.getLsbD_xor]
  cases first.getLsbD n <;> cases second.getLsbD n <;> decide

theorem degree_wordPolynomial_lt (word : BitVec width) : (wordPolynomial word).degree < width := by
  rw [degree_lt_iff_coeff_zero]
  intro n hn
  rw [coeff_wordPolynomial, BitVec.getLsbD_of_ge word n hn, if_neg Bool.false_ne_true]

/-- A short word that is shifted within a longer one. -/
theorem wordPolynomial_setWidth_shiftLeft {short : ℕ} (word : BitVec short) {amount : ℕ}
    (hfits : short + amount ≤ width) :
    wordPolynomial (word.setWidth width <<< amount) = X ^ amount * wordPolynomial word := by
  ext n
  rw [coeff_X_pow_mul', coeff_wordPolynomial, coeff_wordPolynomial, BitVec.getLsbD_shiftLeft,
    BitVec.getLsbD_setWidth]
  by_cases hamount : amount ≤ n
  · by_cases hn : n < width
    · simp [hamount, hn, Nat.not_lt.mpr hamount, show n - amount < width by omega]
    · rw [BitVec.getLsbD_of_ge word (n - amount) (by omega)]
      simp
  · simp [hamount, Nat.lt_of_not_le hamount]

/-- The leading bit leaves the word when it is shifted. -/
theorem X_mul_wordPolynomial (word : BitVec width) :
    X * wordPolynomial word =
      wordPolynomial (word <<< 1) + if word.msb then X ^ width else 0 := by
  ext n
  have hleading : (if word.msb then X ^ width else 0 : (ZMod 2)[X]).coeff n =
      if word.msb ∧ n = width then 1 else 0 := by
    by_cases hmsb : word.msb
    · rw [if_pos hmsb, coeff_X_pow]
      simp only [hmsb, true_and]
    · rw [if_neg hmsb, coeff_zero, if_neg fun hboth ↦ hmsb hboth.1]
  rw [coeff_add, coeff_wordPolynomial, hleading, BitVec.getLsbD_shiftLeft,
    BitVec.msb_eq_getLsbD_last]
  cases n with
  | zero =>
    rw [coeff_X_mul_zero]
    cases width with
    | zero => simp
    | succ width => simp
  | succ n =>
    rw [coeff_X_mul, coeff_wordPolynomial, Nat.add_sub_cancel]
    rcases lt_trichotomy (n + 1) width with hlt | heq | hgt
    · simp [hlt, hlt.ne]
    · subst heq
      simp
    · rw [BitVec.getLsbD_of_ge word n (by omega)]
      simp [hgt.ne', show ¬ n + 1 < width by omega]

/-! ### Remainders -/

variable (generator : BitVec width)

theorem monic_generatorPolynomial : (generatorPolynomial generator).Monic :=
  monic_X_pow_add (degree_wordPolynomial_lt generator)

theorem degree_generatorPolynomial : (generatorPolynomial generator).degree = width := by
  have hleading : (X ^ width : (ZMod 2)[X]).degree = width := degree_X_pow width
  rw [generatorPolynomial, degree_add_eq_left_of_degree_lt, hleading]
  rw [hleading]
  exact degree_wordPolynomial_lt generator

/-- Equal up to a multiple of the generator. -/
theorem wordPolynomial_eq_modByMonic {word : BitVec width} {polynomial : (ZMod 2)[X]}
    (quotient : (ZMod 2)[X])
    (heq : wordPolynomial word + generatorPolynomial generator * quotient = polynomial) :
    wordPolynomial word = polynomial %ₘ generatorPolynomial generator := by
  have hdegree : (wordPolynomial word).degree < (generatorPolynomial generator).degree := by
    rw [degree_generatorPolynomial]
    exact degree_wordPolynomial_lt word
  exact (div_modByMonic_unique quotient _ (monic_generatorPolynomial generator)
    ⟨heq, hdegree⟩).2.symm

/-- A factor may be reduced before the product. -/
theorem mul_modByMonic_right (factor polynomial : (ZMod 2)[X]) :
    (factor * (polynomial %ₘ generatorPolynomial generator)) %ₘ generatorPolynomial generator =
      (factor * polynomial) %ₘ generatorPolynomial generator := by
  refine modByMonic_eq_of_dvd_sub (monic_generatorPolynomial generator) ?_
  rw [← mul_sub]
  exact Dvd.dvd.mul_left (dvd_modByMonic_sub _ _) factor

/-- One shift multiplies by `X`. -/
theorem wordPolynomial_crcShift (check : BitVec width) :
    wordPolynomial (crcShift generator check) =
      (X * wordPolynomial check) %ₘ generatorPolynomial generator := by
  unfold crcShift
  by_cases hmsb : check.msb
  · refine wordPolynomial_eq_modByMonic generator 1 ?_
    rw [if_pos hmsb, X_mul_wordPolynomial, if_pos hmsb, wordPolynomial_xor, generatorPolynomial,
      mul_one]
    calc wordPolynomial (check <<< 1) + wordPolynomial generator +
          (X ^ width + wordPolynomial generator)
        = wordPolynomial (check <<< 1) + X ^ width +
          (wordPolynomial generator + wordPolynomial generator) := by ring
      _ = wordPolynomial (check <<< 1) + X ^ width := by
          rw [CharTwo.add_self_eq_zero, add_zero]
  · refine wordPolynomial_eq_modByMonic generator 0 ?_
    rw [if_neg hmsb, X_mul_wordPolynomial, if_neg hmsb, mul_zero]

/-- Some shifts multiply by a power of `X`. -/
theorem wordPolynomial_iterate_crcShift (check : BitVec width) (count : ℕ) :
    wordPolynomial ((crcShift generator)^[count] check) =
      (X ^ count * wordPolynomial check) %ₘ generatorPolynomial generator := by
  induction count with
  | zero =>
    refine wordPolynomial_eq_modByMonic generator 0 ?_
    rw [Function.iterate_zero_apply, mul_zero, add_zero, pow_zero, one_mul]
  | succ count ih =>
    rw [Function.iterate_succ_apply', wordPolynomial_crcShift, ih, mul_modByMonic_right,
      ← mul_assoc, ← pow_succ']

/-- The check of a message is the remainder of the message that is followed by `width` zeros. -/
theorem wordPolynomial_crc (hwidth : 8 ≤ width) (message : List UInt8) :
    wordPolynomial (crc generator message) =
      (X ^ width * messagePolynomial message) %ₘ generatorPolynomial generator := by
  induction message using List.reverseRecOn with
  | nil =>
    rw [crc, messagePolynomial, List.foldl_nil, List.foldl_nil, mul_zero, zero_modByMonic,
      wordPolynomial_zero]
  | append_singleton message byte ih =>
    have hcheck : crc generator (message ++ [byte]) =
        crcByte generator (crc generator message) byte := by
      rw [crc, List.foldl_append]
      rfl
    have hmessage : messagePolynomial (message ++ [byte]) =
        X ^ 8 * messagePolynomial message + wordPolynomial byte.toBitVec := by
      rw [messagePolynomial, List.foldl_append]
      rfl
    rw [hcheck, crcByte, wordPolynomial_iterate_crcShift, wordPolynomial_xor,
      wordPolynomial_setWidth_shiftLeft _ (by omega), ih, hmessage]
    have hpower : (X : (ZMod 2)[X]) ^ 8 * X ^ (width - 8) = X ^ width := by
      rw [← pow_add, Nat.add_sub_of_le hwidth]
    calc (X ^ 8 * ((X ^ width * messagePolynomial message) %ₘ generatorPolynomial generator +
            X ^ (width - 8) * wordPolynomial byte.toBitVec)) %ₘ generatorPolynomial generator
        = (X ^ 8 * ((X ^ width * messagePolynomial message) %ₘ generatorPolynomial generator)) %ₘ
              generatorPolynomial generator +
            (X ^ 8 * (X ^ (width - 8) * wordPolynomial byte.toBitVec)) %ₘ
              generatorPolynomial generator := by rw [mul_add, add_modByMonic]
      _ = (X ^ 8 * (X ^ width * messagePolynomial message)) %ₘ generatorPolynomial generator +
            (X ^ width * wordPolynomial byte.toBitVec) %ₘ generatorPolynomial generator := by
          rw [mul_modByMonic_right, ← mul_assoc (X ^ 8) (X ^ (width - 8)), hpower]
      _ = (X ^ width * (X ^ 8 * messagePolynomial message + wordPolynomial byte.toBitVec)) %ₘ
            generatorPolynomial generator := by
          rw [← add_modByMonic]
          congr 1
          ring

/-- The check of a message is the only word that is its remainder. -/
theorem crc_eq_iff (hwidth : 8 ≤ width) (message : List UInt8) (word : BitVec width) :
    crc generator message = word ↔
      wordPolynomial word =
        (X ^ width * messagePolynomial message) %ₘ generatorPolynomial generator := by
  rw [← wordPolynomial_crc generator hwidth message]
  exact ⟨fun heq ↦ heq ▸ rfl, fun heq ↦ (wordPolynomial_injective heq).symm⟩

end

end Elua.Foundation
