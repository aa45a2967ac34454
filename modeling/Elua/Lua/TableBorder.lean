import Elua.Foundation.Loop
import Elua.Lua.TableMap

/-!
# The length of a table

`luaH_getn` looks for a border: an index whose value is not nil, or zero, such that the next value
is nil. If the array ends with nil, a border is found in it by bisection. Otherwise the search goes
on behind the array with doubled indices, and once it has found an index without a value, there is a
border before it. Should the indices become too great, the search starts again from one.

`Brackets` is the invariant of the bisection. The doubling ends because indices grow, and the linear
search because a table has only so many nodes (`Sound.le_of_present`).
-/

set_option autoImplicit false
set_option relaxedAutoImplicit false

namespace Elua.Lua.Tables

open Foundation Links TransitionSystem

variable {N : KeyNumbers} {V : Type*} {t : Table N V}

/-! ### The search -/

/-- An `unsigned int`, as the parameter of `luaH_getnum` gets it. -/
def signed (j : ℕ) : ℤ := Int.bmod j (2 ^ 32)

/-- There is no value at an index. -/
def absent (t : Table N V) (j : ℕ) : Bool := ((luaHGetnum t (signed j)).bind t.read).isNone

/-- There is no value at an index of the array. -/
def absentInArray (t : Table N V) (j : ℕ) : Bool := (t.array.getD (j - 1) none).isNone

/-- A pass of the binary searches. -/
def bisectBody (absent : ℕ → Bool) : ℕ × ℕ → Option ((ℕ × ℕ) ⊕ ℕ)
  | (i, j) =>
    if 1 < j - i then
      let m := (i + j) % 2 ^ 32 / 2
      some (.inl (if absent m then (i, m) else (m, j)))
    else some (.inr i)

/-- A pass of the loop that doubles `j`. It leaves with both indices, or with none when `j` becomes
too great. -/
def doubleBody (t : Table N V) : ℕ × ℕ → Option ((ℕ × ℕ) ⊕ Option (ℕ × ℕ))
  | (i, j) =>
    if absent t j then some (.inr (some (i, j)))
    else if Interning.maxInt < j * 2 % 2 ^ 32 then some (.inr none)
    else some (.inl (j, j * 2 % 2 ^ 32))

/-- A pass of the linear search. -/
def linearBody (t : Table N V) (i : ℕ) : Option (ℕ ⊕ ℕ) :=
  if absent t i then some (.inr (i - 1)) else some (.inl (i + 1))

/-- `unbound_search`. -/
def unboundSearch (t : Table N V) (fuel j : ℕ) : Option ℕ :=
  (runLoop (doubleBody t) fuel (j, (j + 1) % 2 ^ 32)).bind fun
    | some (i, j) => runLoop (bisectBody (absent t)) fuel (i, j)
    | none => runLoop (linearBody t) fuel 1

/-- `luaH_getn`. -/
def luaHGetn (t : Table N V) (fuel : ℕ) : Option ℕ :=
  let j := t.sizearray
  if 0 < j ∧ absentInArray t j = true then runLoop (bisectBody (absentInArray t)) fuel (0, j)
  else if t.dummy then some j
  else unboundSearch t fuel j

/-- The border of a table. -/
def Border (t : Table N V) (n : ℕ) : Prop :=
  (n = 0 ∨ t.get (intKey n) ≠ none) ∧ t.get (intKey (n + 1)) = none

/-! ### Bisection -/

/-- There is a value at the lower index, or it is zero, and none at the upper one. -/
def Brackets (absent : ℕ → Bool) (top : ℕ) (bounds : ℕ × ℕ) : Prop :=
  bounds.1 < bounds.2 ∧ bounds.2 ≤ top ∧ (bounds.1 = 0 ∨ absent bounds.1 = false) ∧
    absent bounds.2 = true

theorem exists_bisect {absent : ℕ → Bool} {top : ℕ} (htop : top ≤ intMax) {bounds : ℕ × ℕ}
    (hbrackets : Brackets absent top bounds) {fuel : ℕ} (hfuel : top < fuel) :
    ∃ n, runLoop (bisectBody absent) fuel bounds = some n ∧ n < top ∧
      (n = 0 ∨ absent n = false) ∧ absent (n + 1) = true := by
  refine exists_runLoop_of_invariant (Brackets absent top) _ (fun bounds ↦ bounds.2 - bounds.1) ?_
    hbrackets ?_
  · rintro ⟨i, j⟩ ⟨hless, hle, hlow, hhigh⟩
    dsimp only at hless hle hlow hhigh
    have hmax : intMax = 2 ^ 31 - 1 := rfl
    rw [bisectBody]
    by_cases hwide : 1 < j - i
    · have hwrap : (i + j) % 2 ^ 32 = i + j := Nat.mod_eq_of_lt (by omega)
      rw [if_pos hwide, hwrap]
      refine .inr ⟨_, rfl, ?_⟩
      rcases hmiddle : absent ((i + j) / 2) with - | -
      · rw [if_neg Bool.false_ne_true]
        exact ⟨⟨by dsimp only; omega, hle, .inr hmiddle, hhigh⟩, by dsimp only; omega⟩
      · rw [if_pos rfl]
        exact ⟨⟨by dsimp only; omega, by dsimp only; omega, hlow, hmiddle⟩, by dsimp only; omega⟩
    · rw [if_neg hwide]
      obtain rfl : j = i + 1 := by omega
      exact .inl ⟨i, rfl, hle, hlow, hhigh⟩
  · have hle := hbrackets.2.1
    omega

/-! ### Indices and keys -/

theorem signed_of_le {j : ℕ} (hj : j ≤ intMax) : signed j = j := by
  have hmax : intMax = 2147483647 := by decide
  have hwidth : ((2 ^ 32 : ℕ) : ℤ) = 4294967296 := by decide
  exact Int.bmod_eq_of_le (by rw [hwidth]; omega) (by rw [hwidth]; omega)

theorem absent_iff {j : ℕ} (hj : j ≤ intMax) : absent t j = true ↔ t.get (intKey j) = none := by
  have hget : luaHGet t (intKey j) = luaHGetnum t j := by
    rw [intKey, luaHGet, N.number2int_castNum j (by omega) (by omega), if_pos rfl]
  rw [absent, signed_of_le hj, Option.isNone_iff_eq_none, Table.get, hget]

theorem absentInArray_iff {j : ℕ} (hsound : Sound t) (hone : 1 ≤ j) (hj : j ≤ t.sizearray) :
    absentInArray t j = true ↔ t.get (intKey j) = none := by
  have hmax := hsound.sizearray
  have hindex : arrayindex (intKey j : Key N) = j := arrayindex_intKey (by omega)
  have hget : luaHGet t (intKey j) = some (.array (j - 1)) := by
    rw [luaHGet_of_inArray ⟨by omega, by omega⟩, hindex]
    congr 2
    omega
  rw [absentInArray, Option.isNone_iff_eq_none, Table.get, hget]
  rfl

/-- If there is a value at every index up to one, it is not greater than the number of elements and
nodes. -/
theorem Sound.le_of_present (hsound : Sound t) {m : ℕ} (hm : m ≤ intMax)
    (hpresent : ∀ j, 1 ≤ j → j ≤ m → t.get (intKey j) ≠ none) : m ≤ t.sizearray + t.sizenode := by
  have hnode : ∀ j ∈ Finset.Ioc t.sizearray m, ∃ i ∈ Finset.range t.sizenode,
      (t.node i).key = .key (intKey j) := by
    intro j hj
    obtain ⟨hlow, hhigh⟩ := Finset.mem_Ioc.1 hj
    obtain ⟨v, hv⟩ := Option.ne_none_iff_exists'.1 (hpresent j (by omega) hhigh)
    rcases hsound.get_eq_some_iff.1 hv with ⟨hin, -⟩ | ⟨i, hi, hkey, -⟩
    · rw [InArray, arrayindex_intKey (by omega)] at hin
      omega
    · exact ⟨i, Finset.mem_range.2 hi, hkey⟩
  choose! place hplace hkey using hnode
  have hinjective : Set.InjOn place (Finset.Ioc t.sizearray m : Set ℕ) := by
    intro a ha b hb heq
    have hkeys : (intKey a : Key N) = intKey b :=
      NodeKey.key.inj ((hkey a ha).symm.trans (heq ▸ hkey b hb))
    have hindex := congrArg arrayindex hkeys
    have hma := (Finset.mem_Ioc.1 (Finset.mem_coe.1 ha)).2
    have hmb := (Finset.mem_Ioc.1 (Finset.mem_coe.1 hb)).2
    rw [arrayindex_intKey (by omega), arrayindex_intKey (by omega)] at hindex
    omega
  have hcard := Finset.card_le_card_of_injOn place hplace hinjective
  rw [Nat.card_Ioc, Finset.card_range] at hcard
  omega

/-! ### The search behind the array -/

section Unbound

variable {fuel : ℕ}

theorem Sound.exists_linear (hsound : Sound t) (hsize : t.sizearray < 2 ^ 29)
    (hfuel : 2 ^ 31 ≤ fuel) : ∃ n, runLoop (linearBody t) fuel 1 = some n ∧ n < intMax ∧
      Border t n := by
  have hmax : intMax = 2 ^ 31 - 1 := rfl
  have hnodes : t.sizenode ≤ 2 ^ 26 := Nat.pow_le_pow_right Nat.two_pos hsound.lsizenode
  refine exists_runLoop_of_invariant
    (fun i ↦ 1 ≤ i ∧ i ≤ 2 ^ 30 ∧ ∀ j, 1 ≤ j → j < i → t.get (intKey j) ≠ none) _
    (fun i ↦ 2 ^ 30 - i) ?_ ⟨Nat.le_refl 1, by omega, fun j hone hless ↦ by omega⟩ (by omega)
  rintro i ⟨hone, hle, hpresent⟩
  have hbound : i - 1 ≤ t.sizearray + t.sizenode :=
    hsound.le_of_present (by omega) fun j hj hji ↦ hpresent j hj (by omega)
  rw [linearBody]
  by_cases habsent : absent t i = true
  · rw [if_pos habsent]
    refine .inl ⟨i - 1, rfl, by omega, ?_, ?_⟩
    · rcases Nat.eq_or_lt_of_le hone with rfl | hmore
      · exact .inl rfl
      · exact .inr (hpresent (i - 1) (by omega) (by omega))
    · rw [Nat.sub_add_cancel hone]
      exact (absent_iff (by omega)).1 habsent
  · rw [if_neg habsent]
    refine .inr ⟨i + 1, rfl, ⟨by omega, by omega, fun j hj hji ↦ ?_⟩, by omega⟩
    rcases Nat.eq_or_lt_of_le (Nat.le_of_lt_succ hji) with rfl | hless
    · exact fun hnone ↦ habsent ((absent_iff (by omega)).2 hnone)
    · exact hpresent j hj hless

theorem exists_double (t : Table N V) {j : ℕ} (hj : j < intMax)
    (hpresent : j = 0 ∨ absent t j = false) (hfuel : 2 ^ 31 < fuel) :
    ∃ result, runLoop (doubleBody t) fuel (j, (j + 1) % 2 ^ 32) = some result ∧
      ∀ bounds, result = some bounds → Brackets (absent t) intMax bounds := by
  have hmax : intMax = 2 ^ 31 - 1 := rfl
  have hwrap : (j + 1) % 2 ^ 32 = j + 1 := Nat.mod_eq_of_lt (by omega)
  rw [hwrap]
  refine exists_runLoop_of_invariant
    (fun bounds : ℕ × ℕ ↦ bounds.1 < bounds.2 ∧ bounds.2 ≤ intMax ∧
      (bounds.1 = 0 ∨ absent t bounds.1 = false)) _ (fun bounds ↦ intMax - bounds.2) ?_
    ⟨Nat.lt_succ_self j, Nat.succ_le_of_lt hj, hpresent⟩ (by dsimp only; omega)
  rintro ⟨i, j⟩ ⟨hless, hle, hlow⟩
  dsimp only at hless hle hlow
  rw [doubleBody]
  rcases habsent : absent t j with - | -
  · rw [if_neg Bool.false_ne_true]
    have hdouble : j * 2 % 2 ^ 32 = j * 2 := Nat.mod_eq_of_lt (by omega)
    rw [hdouble]
    have hsafe : Interning.maxInt < intMax := by decide
    by_cases hover : Interning.maxInt < j * 2
    · rw [if_pos hover]
      exact .inl ⟨none, rfl, fun bounds hbounds ↦ by cases hbounds⟩
    · rw [if_neg hover]
      exact .inr ⟨(j, j * 2), rfl, ⟨by dsimp only; omega, by dsimp only; omega, .inr habsent⟩,
        by dsimp only; omega⟩
  · rw [if_pos rfl]
    refine .inl ⟨some (i, j), rfl, fun bounds hbounds ↦ ?_⟩
    obtain rfl := Option.some.inj hbounds
    exact ⟨hless, hle, hlow, habsent⟩

theorem Sound.exists_unboundSearch (hsound : Sound t) (hsize : t.sizearray < 2 ^ 29) {j : ℕ}
    (hj : j < intMax) (hpresent : j = 0 ∨ absent t j = false) (hfuel : 2 ^ 31 < fuel) :
    ∃ n, unboundSearch t fuel j = some n ∧ n < intMax ∧ Border t n := by
  obtain ⟨result, hresult, hbrackets⟩ := exists_double t hj hpresent hfuel
  rw [unboundSearch, hresult, Option.bind_some]
  rcases result with - | ⟨low, high⟩
  · exact hsound.exists_linear hsize (Nat.le_of_lt hfuel)
  · have hmax : intMax = 2 ^ 31 - 1 := rfl
    have henough : intMax < fuel := by omega
    obtain ⟨n, hn, hless, hlow, hhigh⟩ :=
      exists_bisect (Nat.le_refl intMax) (hbrackets _ rfl) henough
    refine ⟨n, hn, hless, hlow.imp_right fun hfalse hnone ↦ ?_, (absent_iff (by omega)).1 hhigh⟩
    rw [(absent_iff (by omega)).2 hnone] at hfalse
    cases hfalse

end Unbound

/-! ### The length -/

theorem Sound.exists_luaHGetn (hsound : Sound t) (hsize : t.sizearray < 2 ^ 29) {fuel : ℕ}
    (hfuel : 2 ^ 31 < fuel) : ∃ n, luaHGetn t fuel = some n ∧ n < intMax ∧ Border t n := by
  have hmax : intMax = 2 ^ 31 - 1 := rfl
  rw [luaHGetn]
  by_cases hinside : 0 < t.sizearray ∧ absentInArray t t.sizearray = true
  · rw [if_pos hinside]
    have hbrackets : Brackets (absentInArray t) t.sizearray (0, t.sizearray) :=
      ⟨hinside.1, Nat.le_refl _, .inl rfl, hinside.2⟩
    have henough : t.sizearray < fuel := by omega
    obtain ⟨n, hn, hless, hlow, hhigh⟩ := exists_bisect (by omega) hbrackets henough
    refine ⟨n, hn, by omega, ?_, ?_⟩
    · rcases Nat.eq_zero_or_pos n with rfl | hpos
      · exact .inl rfl
      · refine .inr fun hnone ↦ ?_
        rw [(absentInArray_iff hsound hpos (Nat.le_of_lt hless)).2 hnone] at hlow
        rcases hlow with rfl | hfalse
        · exact absurd hpos (Nat.lt_irrefl 0)
        · cases hfalse
    · exact (absentInArray_iff hsound (Nat.succ_pos n) hless).1 hhigh
  · rw [if_neg hinside]
    have hlast : t.sizearray = 0 ∨ t.get (intKey t.sizearray) ≠ none := by
      rcases Nat.eq_zero_or_pos t.sizearray with hzero | hpos
      · exact .inl hzero
      · refine .inr fun hnone ↦ hinside ⟨hpos, ?_⟩
        exact (absentInArray_iff hsound hpos (Nat.le_refl _)).2 hnone
    rcases hdummy : t.dummy with - | -
    · rw [if_neg Bool.false_ne_true]
      refine hsound.exists_unboundSearch hsize (by omega) (hlast.imp_right fun hne ↦ ?_) hfuel
      rcases habsent : absent t t.sizearray with - | -
      · rfl
      · exact absurd ((absent_iff (by omega)).1 habsent) hne
    · rw [if_pos rfl]
      refine ⟨_, rfl, by omega, hlast, ?_⟩
      by_contra hvalue
      obtain ⟨v, hv⟩ := Option.ne_none_iff_exists'.1 hvalue
      rcases hsound.get_eq_some_iff.1 hv with ⟨hin, -⟩ | ⟨i, hi, hkey, -⟩
      · rw [InArray, arrayindex_intKey (by omega)] at hin
        omega
      · rw [(hsound.dummy hdummy).2 i] at hkey
        cases hkey

theorem fuelMono_luaHGetn (t : Table N V) : FuelMono (luaHGetn t) := by
  refine .ite _ (fuelMono_runLoop _ _) (.ite _ (fuelMono_const _) ?_)
  refine .bind (fuelMono_runLoop _ _) fun result ↦ ?_
  rcases result with - | ⟨low, high⟩
  · exact fuelMono_runLoop _ _
  · exact fuelMono_runLoop _ _

/-- In every run, `luaH_getn` comes to an end with a border. An array of 2 ^ 29 elements is more
than `luaM_reallocv` allocates. -/
theorem luaHGetn_border (hreach : (tables N V).Reachable t) (hsize : t.sizearray < 2 ^ 29) :
    ∃ n, (∀ fuel, 2 ^ 31 < fuel → luaHGetn t fuel = some n) ∧ n < intMax ∧ Border t n := by
  obtain ⟨n, hn, hless, hborder⟩ :=
    (sound_of_reachable hreach).exists_luaHGetn hsize (Nat.lt_succ_self _)
  exact ⟨n, fun fuel hfuel ↦ fuelMono_luaHGetn t hfuel hn, hless, hborder⟩

/-- The search goes on behind the array. -/
theorem luaHGetn_border_twoKeys : ∃ n, (∀ fuel, 2 ^ 31 < fuel → luaHGetn twoKeys fuel = some n) ∧
    n < intMax ∧ Border twoKeys n :=
  luaHGetn_border reachable_twoKeys (by decide)

end Elua.Lua.Tables
