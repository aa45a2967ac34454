import Mathlib.Data.Rat.Cast.Order
import Mathlib.Tactic.Common

/-!
# Lua numbers

The type `lua_Number` is an integral type of 32 or 64 bits, or `double`. `NumberType` holds what the
code for tables does with numbers: it compares them, and it converts them from and to `int`. The
conversion to `int` may round in any way, and gives anything for a number outside of its range.
-/

set_option autoImplicit false
set_option relaxedAutoImplicit false

namespace Elua.Lua

/-- A type `lua_Number`, with its comparison and its conversions. -/
structure NumberType where
  Number : Type
  /-- `luai_numeq`. -/
  numeq : Number → Number → Bool
  /-- `cast_num`, of an `int`. -/
  castNum : Int32 → Number
  /-- `lua_number2int`. -/
  number2int : Number → Int32
  /-- The cast to `luaR_numkey`, which is `int`. -/
  toNumkey : Number → Int32
  /-- Different integers are different numbers. -/
  numeq_castNum : ∀ first second, numeq (castNum first) (castNum second) = true ↔ first = second
  /-- A number equal to an integer is converted to it. -/
  number2int_of_numeq : ∀ integer number, numeq (castNum integer) number = true →
    number2int number = integer
  toNumkey_castNum : ∀ integer, toNumkey (castNum integer) = integer

/-- Integral numbers of type `long`. -/
def longNumber : NumberType where
  Number := Int32
  numeq := (· == ·)
  castNum := id
  number2int := id
  toNumkey := id
  numeq_castNum := fun _ _ ↦ beq_iff_eq
  number2int_of_numeq := fun _ _ hequal ↦ (beq_iff_eq.mp hequal).symm
  toNumkey_castNum := fun _ ↦ rfl

/-- The values of type `double`: among the finite ones zero has a sign. Every `double` is one of
these. -/
inductive Double
  | finite (value : ℚ)
  | negativeZero
  | infinite (negative : Bool)
  | nan
  deriving DecidableEq

/-- The value of a finite number. -/
def Double.value : Double → Option ℚ
  | .finite value => some value
  | .negativeZero => some 0
  | .infinite _ | .nan => none

/-- The comparison of type `double`: the two zeros are equal, and `nan` is not equal to itself. -/
def Double.eq : Double → Double → Bool
  | .infinite first, .infinite second => first == second
  | first, second => match first.value, second.value with
    | some first, some second => first == second
    | _, _ => false

/-- The cast of type `double` to `int`, which cuts off the fraction. It has no defined result for
numbers outside of the range of `int`. -/
def Double.toInt (undefined : Double → Int32) (number : Double) : Int32 :=
  match number.value with
  | some value =>
    let integer := value.num.tdiv value.den
    if -2 ^ 31 ≤ integer ∧ integer < 2 ^ 31 then .ofInt integer else undefined number
  | none => undefined number

theorem Double.toInt_of_value {undefined : Double → Int32} {number : Double} {integer : Int32}
    (hvalue : number.value = some (integer.toInt : ℚ)) : number.toInt undefined = integer := by
  have hlow := integer.le_toInt
  have hhigh := integer.toInt_lt
  unfold Double.toInt
  rw [hvalue]
  dsimp only
  rw [Rat.num_intCast, Rat.den_intCast, Nat.cast_one, Int.tdiv_one, if_pos ⟨hlow, hhigh⟩]
  exact Int32.ofInt_toInt integer

theorem Double.value_of_eq {number : Double} {value : ℚ}
    (hequal : Double.eq (.finite value) number = true) : number.value = some value := by
  cases number with
  | finite other => exact congrArg some (beq_iff_eq.mp hequal).symm
  | negativeZero => exact congrArg some (beq_iff_eq.mp hequal).symm
  | infinite negative => cases hequal
  | nan => cases hequal

/-- Numbers of type `double`. -/
def doubleNumber (undefined : Double → Int32) : NumberType where
  Number := Double
  numeq := Double.eq
  castNum := fun integer ↦ .finite integer.toInt
  number2int := Double.toInt undefined
  toNumkey := Double.toInt undefined
  numeq_castNum := fun first second ↦ by
    constructor
    · intro hequal
      have hvalue := Option.some.inj (Double.value_of_eq hequal)
      exact Int32.toInt_inj.mp (by exact_mod_cast hvalue.symm)
    · rintro rfl
      exact beq_self_eq_true _
  number2int_of_numeq := fun _ _ hequal ↦ Double.toInt_of_value (Double.value_of_eq hequal)
  toNumkey_castNum := fun _ ↦ Double.toInt_of_value rfl

end Elua.Lua
