import Elua.Lua.TableStores
import Mathlib.Data.Nat.Count
import Mathlib.Order.Interval.Finset.Nat

/-!
# The sizes that `rehash` finds

`computesizes` finds the greatest power of two such that the array up to it is more than half full
and has a key in its upper half: `Optimal` says so of a set of keys, and there is only one such size
(`Optimal.unique`). Leaving out keys that do not go to the array does not change it
(`Optimal.subset`).

The keys that `rehash` counts are those of `countedKeys`, which are the integer keys that the table
holds, and the new one. So a table that holds the same has the same sizes (`rehashSizes_eq`).
-/

set_option autoImplicit false
set_option relaxedAutoImplicit false

namespace Elua.Lua.Tables

open Foundation Links

/-! ### The size of the array -/

theorem ceillog2_le_iff {a b : ℕ} : ceillog2 a ≤ b ↔ a ≤ 2 ^ b := by
  have hpos := Nat.two_pow_pos b
  rw [ceillog2]
  split_ifs with ha
  · omega
  · rw [Nat.succ_le_iff, Nat.log2_lt (by omega)]
    omega

/-- How many of the keys are in a slice. -/
def sliceCount (keys : Finset ℕ) (i : ℕ) : ℕ := (keys.filter fun a ↦ ceillog2 a = i).card

/-- How many of the keys are not greater than a size. -/
def keysUpTo (keys : Finset ℕ) (n : ℕ) : ℕ := (keys.filter (· ≤ n)).card

/-- How many of the keys are greater than a size. -/
def keysBeyond (keys : Finset ℕ) (n : ℕ) : ℕ := (keys.filter (n < ·)).card

/-- An array up to this power of two is worth while. -/
def Worthwhile (keys : Finset ℕ) (i : ℕ) : Prop :=
  0 < sliceCount keys i ∧ 2 ^ i / 2 < keysUpTo keys (2 ^ i)

/-- The best size among the powers of two below the given one. -/
structure OptimalBelow (keys : Finset ℕ) (bits n : ℕ) : Prop where
  worthwhile : n = 0 ∨ ∃ i < bits, n = 2 ^ i ∧ Worthwhile keys i
  greatest : ∀ i < bits, n < 2 ^ i → ¬ Worthwhile keys i

/-- The best size. -/
def Optimal (keys : Finset ℕ) (n : ℕ) : Prop := OptimalBelow keys (maxBits + 1) n

section Optimal

variable {keys keys' : Finset ℕ} {bits n n' : ℕ}

theorem OptimalBelow.not_lt (hn : OptimalBelow keys bits n) (hn' : OptimalBelow keys bits n') :
    ¬ n < n' := by
  intro hless
  rcases hn'.worthwhile with rfl | ⟨i, hi, rfl, hworth⟩
  · exact Nat.not_lt_zero n hless
  · exact hn.greatest i hi hless hworth

theorem Optimal.unique (hn : Optimal keys n) (hn' : Optimal keys n') : n = n' :=
  Nat.le_antisymm (Nat.le_of_not_lt (hn'.not_lt hn)) (Nat.le_of_not_lt (hn.not_lt hn'))

theorem keysUpTo_mono (hsubset : keys' ⊆ keys) (n : ℕ) : keysUpTo keys' n ≤ keysUpTo keys n :=
  Finset.card_le_card (Finset.filter_subset_filter _ hsubset)

theorem sliceCount_mono (hsubset : keys' ⊆ keys) (i : ℕ) :
    sliceCount keys' i ≤ sliceCount keys i :=
  Finset.card_le_card (Finset.filter_subset_filter _ hsubset)

theorem keysUpTo_add_keysBeyond (keys : Finset ℕ) (n : ℕ) :
    keysUpTo keys n + keysBeyond keys n = keys.card := by
  have hsplit : keysUpTo keys n + (keys.filter fun a ↦ ¬ a ≤ n).card = keys.card :=
    Finset.card_filter_add_card_filter_not _
  simp only [not_le] at hsplit
  exact hsplit

/-- The keys beyond the size do not matter. -/
theorem Optimal.subset (hn : Optimal keys n) (hsubset : keys' ⊆ keys)
    (hkept : ∀ a ∈ keys, a ≤ n → a ∈ keys') : Optimal keys' n := by
  constructor
  · refine hn.worthwhile.imp_right ?_
    rintro ⟨i, hi, rfl, hslice, hhalf⟩
    refine ⟨i, hi, rfl, ?_, ?_⟩
    · have hsame : sliceCount keys i ≤ sliceCount keys' i := by
        refine Finset.card_le_card fun a ha ↦ ?_
        obtain ⟨hmem, hlog⟩ := Finset.mem_filter.1 ha
        exact Finset.mem_filter.2 ⟨hkept a hmem (ceillog2_le_iff.1 hlog.le), hlog⟩
      exact Nat.lt_of_lt_of_le hslice hsame
    · have hsame : keysUpTo keys (2 ^ i) ≤ keysUpTo keys' (2 ^ i) := by
        refine Finset.card_le_card fun a ha ↦ ?_
        obtain ⟨hmem, hle⟩ := Finset.mem_filter.1 ha
        exact Finset.mem_filter.2 ⟨hkept a hmem hle, hle⟩
      exact Nat.lt_of_lt_of_le hhalf hsame
  · rintro i hi hless ⟨hslice, hhalf⟩
    exact hn.greatest i hi hless ⟨Nat.lt_of_lt_of_le hslice (sliceCount_mono hsubset i),
      Nat.lt_of_lt_of_le hhalf (keysUpTo_mono hsubset _)⟩

theorem Optimal.le (hn : Optimal keys n) : n ≤ maxAsize := by
  rcases hn.worthwhile with rfl | ⟨i, hi, rfl, -⟩
  · exact Nat.zero_le _
  · exact Nat.pow_le_pow_right Nat.two_pos (Nat.le_of_lt_succ hi)

end Optimal

/-- How many of the keys are in the slices below a given one. -/
def keysBelow (keys : Finset ℕ) (i : ℕ) : ℕ := (keys.filter fun a ↦ ceillog2 a < i).card

section Sizes

variable {keys : Finset ℕ} {nums : ℕ → ℕ}

theorem keysBelow_succ (keys : Finset ℕ) (i : ℕ) :
    keysBelow keys (i + 1) = keysBelow keys i + sliceCount keys i := by
  have hsplit : keys.filter (fun a ↦ ceillog2 a < i + 1) =
      keys.filter (fun a ↦ ceillog2 a < i) ∪ keys.filter fun a ↦ ceillog2 a = i := by
    rw [← Finset.filter_or]
    exact Finset.filter_congr fun a _ ↦ Nat.lt_succ_iff_lt_or_eq
  rw [keysBelow, hsplit, Finset.card_union_of_disjoint]
  · rfl
  · refine Finset.disjoint_filter.2 fun a _ hless heq ↦ ?_
    omega

theorem keysUpTo_two_pow (keys : Finset ℕ) (i : ℕ) :
    keysUpTo keys (2 ^ i) = keysBelow keys (i + 1) := by
  rw [keysUpTo, keysBelow]
  refine congrArg Finset.card (Finset.filter_congr fun a _ ↦ ?_)
  rw [Nat.lt_succ_iff, ceillog2_le_iff]

theorem keysBelow_le (keys : Finset ℕ) (i : ℕ) : keysBelow keys i ≤ keys.card :=
  Finset.card_filter_le _ _

/-- No greater slice is worth while when half of it is more than all keys. -/
theorem OptimalBelow.of_half {i n : ℕ} (hbelow : OptimalBelow keys i n) (hi : i ≤ maxBits + 1)
    (hhalf : keys.card ≤ 2 ^ i / 2) : Optimal keys n := by
  refine ⟨hbelow.worthwhile.imp_right fun ⟨j, hj, hn⟩ ↦ ⟨j, by omega, hn⟩,
    fun j hj hless hworth ↦ ?_⟩
  rcases Nat.lt_or_ge j i with hji | hij
  · exact hbelow.greatest j hji hless hworth
  · have hcount := hworth.2
    rw [keysUpTo_two_pow] at hcount
    have hle := keysBelow_le keys (j + 1)
    have hmono : 2 ^ i ≤ 2 ^ j := Nat.pow_le_pow_right Nat.two_pos hij
    omega

/-- No greater slice has a key when all keys have been counted. -/
theorem OptimalBelow.of_counted {i n : ℕ} (hbelow : OptimalBelow keys i n) (hi : i ≤ maxBits + 1)
    (hall : keysBelow keys i = keys.card) : Optimal keys n := by
  refine ⟨hbelow.worthwhile.imp_right fun ⟨j, hj, hn⟩ ↦ ⟨j, by omega, hn⟩,
    fun j hj hless hworth ↦ ?_⟩
  rcases Nat.lt_or_ge j i with hji | hij
  · exact hbelow.greatest j hji hless hworth
  · obtain ⟨a, ha⟩ := Finset.card_pos.1 hworth.1
    obtain ⟨hmem, hlog⟩ := Finset.mem_filter.1 ha
    have heq := Finset.card_filter_eq_iff.1 hall
    have hlow := heq a hmem
    omega

theorem OptimalBelow.succ_worthwhile {i : ℕ} (hworth : Worthwhile keys i) :
    OptimalBelow keys (i + 1) (2 ^ i) := by
  refine ⟨.inr ⟨i, Nat.lt_succ_self i, rfl, hworth⟩, fun j hj hless ↦ ?_⟩
  have hij := (Nat.pow_lt_pow_iff_right Nat.one_lt_two).1 hless
  omega

theorem OptimalBelow.succ_not_worthwhile {i n : ℕ} (hbelow : OptimalBelow keys i n)
    (hworth : ¬ Worthwhile keys i) : OptimalBelow keys (i + 1) n := by
  refine ⟨hbelow.worthwhile.imp_right fun ⟨j, hj, hn⟩ ↦ ⟨j, Nat.lt_succ_of_lt hj, hn⟩,
    fun j hj hless ↦ ?_⟩
  rcases Nat.lt_succ_iff_lt_or_eq.1 hj with hji | rfl
  · exact hbelow.greatest j hji hless
  · exact hworth

theorem computesizesLoop_eq (hnums : ∀ j ≤ maxBits, nums j = sliceCount keys j) (turns i n : ℕ)
    (hturns : turns + i = maxBits + 1) (hbelow : OptimalBelow keys i n) :
    ∃ best, Optimal keys best ∧
      computesizesLoop nums keys.card turns i (keysBelow keys i) (keysUpTo keys n) n =
        (keysUpTo keys best, best) := by
  induction turns generalizing i n with
  | zero =>
    obtain rfl : i = maxBits + 1 := by omega
    exact ⟨n, hbelow, rfl⟩
  | succ turns ih =>
    have hcount : (if 0 < nums i then keysBelow keys i + nums i else keysBelow keys i) =
        keysBelow keys (i + 1) := by
      rw [keysBelow_succ, hnums i (by omega)]
      split_ifs with hslice
      · rfl
      · omega
    have hbetter : (0 < nums i ∧ 2 ^ i / 2 < keysBelow keys (i + 1)) ↔ Worthwhile keys i := by
      rw [Worthwhile, keysUpTo_two_pow, hnums i (by omega)]
    rw [computesizesLoop]
    dsimp only
    rw [hcount]
    by_cases hhalf : 2 ^ i / 2 < keys.card
    · rw [if_pos hhalf]
      obtain ⟨best, hbest, hna, hn⟩ : ∃ best, OptimalBelow keys (i + 1) best ∧
          (if 0 < nums i ∧ 2 ^ i / 2 < keysBelow keys (i + 1) then keysBelow keys (i + 1)
            else keysUpTo keys n) = keysUpTo keys best ∧
          (if 0 < nums i ∧ 2 ^ i / 2 < keysBelow keys (i + 1) then 2 ^ i else n) = best := by
        by_cases hworth : Worthwhile keys i
        · exact ⟨2 ^ i, .succ_worthwhile hworth,
            (if_pos (hbetter.2 hworth)).trans (keysUpTo_two_pow keys i).symm,
            if_pos (hbetter.2 hworth)⟩
        · exact ⟨n, hbelow.succ_not_worthwhile hworth, if_neg fun hlike ↦ hworth (hbetter.1 hlike),
            if_neg fun hlike ↦ hworth (hbetter.1 hlike)⟩
      rw [hna, hn]
      by_cases hall : keysBelow keys (i + 1) = keys.card
      · rw [if_pos hall]
        exact ⟨best, hbest.of_counted (by omega) hall, rfl⟩
      · rw [if_neg hall]
        exact ih (i + 1) best (by omega) hbest
    · rw [if_neg hhalf]
      exact ⟨n, hbelow.of_half (by omega) (Nat.le_of_not_lt hhalf), rfl⟩

theorem computesizes_eq (hpos : ∀ a ∈ keys, 1 ≤ a)
    (hnums : ∀ j ≤ maxBits, nums j = sliceCount keys j) :
    ∃ best, Optimal keys best ∧ computesizes nums keys.card = (keysUpTo keys best, best) := by
  have hnone : keysUpTo keys 0 = 0 := by
    refine Finset.card_eq_zero.2 (Finset.filter_eq_empty_iff.2 fun a ha hle ↦ ?_)
    have hone := hpos a ha
    omega
  have hzero : keysBelow keys 0 = 0 :=
    Finset.card_eq_zero.2 (Finset.filter_eq_empty_iff.2 fun a _ hless ↦ Nat.not_lt_zero _ hless)
  obtain ⟨best, hbest, hloop⟩ := computesizesLoop_eq hnums (maxBits + 1) 0 0 (by omega)
    ⟨.inl rfl, fun j hj ↦ absurd hj (Nat.not_lt_zero j)⟩
  rw [hnone, hzero] at hloop
  exact ⟨best, hbest, hloop⟩

end Sizes

/-! ### Counting -/

variable {N : KeyNumbers} {V : Type*} {t : Table N V}

/-- The keys of the values in the array. -/
def arrayKeys (t : Table N V) : Finset ℕ :=
  (Finset.Icc 1 t.sizearray).filter fun a ↦ (t.array.getD (a - 1) none).isSome = true

theorem mem_arrayKeys {a : ℕ} : a ∈ arrayKeys t ↔
    1 ≤ a ∧ a ≤ t.sizearray ∧ (t.array.getD (a - 1) none).isSome = true := by
  rw [arrayKeys, Finset.mem_filter, Finset.mem_Icc, and_assoc]

theorem keysBeyond_arrayKeys (t : Table N V) : keysBeyond (arrayKeys t) t.sizearray = 0 := by
  refine Finset.card_eq_zero.2 (Finset.filter_eq_empty_iff.2 fun a ha ↦ ?_)
  exact Nat.not_lt_of_le (mem_arrayKeys.1 ha).2.1

theorem countSlice_eq {i lim : ℕ} (hi : 1 ≤ i) (hlim : lim ≤ t.sizearray) :
    countSlice t i lim = ((arrayKeys t).filter fun a ↦ i ≤ a ∧ a ≤ lim).card := by
  have hnodup : ((List.range' i (lim + 1 - i)).filter
      fun k ↦ (t.array.getD (k - 1) none).isSome).Nodup := List.Nodup.filter _ List.nodup_range'
  rw [countSlice, ← List.toFinset_card_of_nodup hnodup]
  refine congrArg Finset.card (Finset.ext fun a ↦ ?_)
  rw [List.mem_toFinset, List.mem_filter, List.mem_range'_1, Finset.mem_filter, mem_arrayKeys]
  constructor
  · rintro ⟨hrange, hsome⟩
    exact ⟨⟨by omega, by omega, hsome⟩, by omega, by omega⟩
  · rintro ⟨⟨-, -, hsome⟩, hlow, hhigh⟩
    exact ⟨by omega, hsome⟩

theorem numusearrayLoop_eq (t : Table N V) (slices lg i ause : ℕ) (nums : ℕ → ℕ) (hi : 1 ≤ i)
    (hstart : ∀ a, 1 ≤ a → (a < i ↔ a ≤ t.sizearray ∧ ceillog2 a < lg)) :
    (numusearrayLoop t slices lg i ause nums).1 + keysBelow (arrayKeys t) lg =
        ause + keysBelow (arrayKeys t) (lg + slices) ∧
      ∀ b, (numusearrayLoop t slices lg i ause nums).2 b =
        nums b + if lg ≤ b ∧ b < lg + slices then sliceCount (arrayKeys t) b else 0 := by
  induction slices generalizing lg i ause nums with
  | zero => exact ⟨rfl, fun b ↦ by rw [if_neg (by omega)]; rfl⟩
  | succ slices ih =>
    rw [numusearrayLoop]
    by_cases hdone : t.sizearray < 2 ^ lg ∧ t.sizearray < i
    · rw [if_pos hdone]
      have hall : ∀ a ∈ arrayKeys t, ceillog2 a < lg := by
        intro a ha
        obtain ⟨hone, hle, -⟩ := mem_arrayKeys.1 ha
        exact ((hstart a hone).1 (by omega)).2
      have hbelow : ∀ b, lg ≤ b → keysBelow (arrayKeys t) b = (arrayKeys t).card := by
        intro b hb
        refine Finset.card_filter_eq_iff.2 fun a ha ↦ ?_
        have hless := hall a ha
        omega
      refine ⟨by rw [hbelow lg (Nat.le_refl lg), hbelow _ (Nat.le_add_right _ _)], fun b ↦ ?_⟩
      split_ifs with hb
      · have hnone : sliceCount (arrayKeys t) b = 0 := by
          refine Finset.card_eq_zero.2 (Finset.filter_eq_empty_iff.2 fun a ha hlog ↦ ?_)
          have hless := hall a ha
          omega
        rw [hnone]
        rfl
      · rfl
    · rw [if_neg hdone]
      have hnext : ∀ a, 1 ≤ a → (a < max i (min (2 ^ lg) t.sizearray + 1) ↔
          a ≤ t.sizearray ∧ ceillog2 a < lg + 1) := by
        intro a hone
        have hbefore := hstart a hone
        have hlog : ceillog2 a < lg + 1 ↔ a ≤ 2 ^ lg := by rw [Nat.lt_succ_iff, ceillog2_le_iff]
        rw [hlog]
        have hless : ceillog2 a < lg → a ≤ 2 ^ lg := fun hlt ↦ ceillog2_le_iff.1 hlt.le
        omega
      have hcount : countSlice t i (min (2 ^ lg) t.sizearray) = sliceCount (arrayKeys t) lg := by
        rw [countSlice_eq hi (Nat.min_le_right _ _), sliceCount]
        refine congrArg Finset.card (Finset.filter_congr fun a ha ↦ ?_)
        obtain ⟨hone, hle, -⟩ := mem_arrayKeys.1 ha
        have hbefore := hstart a hone
        have hlog : ceillog2 a ≤ lg ↔ a ≤ 2 ^ lg := ceillog2_le_iff
        omega
      obtain ⟨huse, hnums⟩ := ih (lg + 1) (max i (min (2 ^ lg) t.sizearray + 1))
        (ause + sliceCount (arrayKeys t) lg)
        (Function.update nums lg (nums lg + sliceCount (arrayKeys t) lg)) (by omega) hnext
      dsimp only
      rw [hcount]
      constructor
      · rw [keysBelow_succ, Nat.add_right_comm lg 1 slices] at huse
        rw [← Nat.add_assoc lg slices 1]
        omega
      · intro b
        rw [hnums b]
        by_cases hb : b = lg
        · subst hb
          rw [Function.update_self, if_neg (by omega), if_pos (by omega)]
          rfl
        · rw [Function.update_of_ne hb]
          have hsame : (lg + 1 ≤ b ∧ b < lg + 1 + slices) ↔ lg ≤ b ∧ b < lg + (slices + 1) := by
            omega
          rw [if_congr hsame rfl rfl]

/-- What `numusearray` counts are the keys up to `MAXASIZE`. -/
theorem numusearray_eq (t : Table N V) :
    (numusearray t fun _ ↦ 0).1 = keysBelow (arrayKeys t) (maxBits + 1) ∧
      ∀ b ≤ maxBits, (numusearray t fun _ ↦ 0).2 b = sliceCount (arrayKeys t) b := by
  obtain ⟨huse, hnums⟩ := numusearrayLoop_eq t (maxBits + 1) 0 1 0 (fun _ ↦ 0) (Nat.le_refl 1)
    fun a hone ↦ by omega
  have hzero : keysBelow (arrayKeys t) 0 = 0 :=
    Finset.card_eq_zero.2 (Finset.filter_eq_empty_iff.2 fun a _ hless ↦ Nat.not_lt_zero _ hless)
  rw [hzero, Nat.zero_add, Nat.zero_add, Nat.add_zero] at huse
  refine ⟨huse, fun b hb ↦ ?_⟩
  rw [numusearray, hnums b, if_pos (by omega), Nat.zero_add]

/-- The integer key of a node that has a value, and zero if it is none that is counted. -/
def nodeIndex (t : Table N V) (j : ℕ) : ℕ :=
  match (t.node j).val, (t.node j).key with
  | some _, .key k =>
    if 0 < arrayindex k ∧ arrayindex k ≤ maxAsize then (arrayindex k).toNat else 0
  | _, _ => 0

theorem countint_fst (k : Key N) (nums : ℕ → ℕ) :
    (countint k nums).1 = if 0 < arrayindex k ∧ arrayindex k ≤ maxAsize then 1 else 0 := by
  rw [countint]
  split_ifs
  · rfl
  · rfl

theorem countint_snd (k : Key N) (nums : ℕ → ℕ) (b : ℕ) :
    (countint k nums).2 b = nums b +
      if (0 < arrayindex k ∧ arrayindex k ≤ maxAsize) ∧ ceillog2 (arrayindex k).toNat = b then 1
      else 0 := by
  rw [countint]
  split_ifs with hcounted hslice hslice
  · rw [← hslice.2]
    exact Function.update_self ..
  · have hne : b ≠ ceillog2 (arrayindex k).toNat := fun heq ↦ hslice ⟨hcounted, heq.symm⟩
    exact Function.update_of_ne hne ..
  · exact absurd hslice.1 hcounted
  · rfl

/-- A turn of the loop of `numusehash`. -/
theorem numusehashLoop_succ (t : Table N V) (i ause totaluse : ℕ) (nums : ℕ → ℕ) :
    ∃ nums' : ℕ → ℕ,
      (∀ b, nums' b = nums b +
        if nodeIndex t i ≠ 0 ∧ ceillog2 (nodeIndex t i) = b then 1 else 0) ∧
      numusehashLoop t (i + 1) ause totaluse nums =
        numusehashLoop t i (ause + if nodeIndex t i ≠ 0 then 1 else 0)
          (totaluse + if (t.node i).val.isSome = true then 1 else 0) nums' := by
  have hnone : nodeIndex t i = 0 → ∀ b, nums b = nums b +
      if nodeIndex t i ≠ 0 ∧ ceillog2 (nodeIndex t i) = b then 1 else 0 := by
    intro hindex b
    rw [if_neg fun hboth ↦ hboth.1 hindex]
    rfl
  rw [numusehashLoop]
  rcases hval : (t.node i).val with - | v
  · have hindex : nodeIndex t i = 0 := by
      rw [nodeIndex, hval]
    refine ⟨nums, hnone hindex, ?_⟩
    rw [if_neg (not_not.2 hindex)]
    rfl
  · rcases hkey : (t.node i).key with - | - | k
    · have hindex : nodeIndex t i = 0 := by
        rw [nodeIndex, hval, hkey]
      refine ⟨nums, hnone hindex, ?_⟩
      rw [if_neg (not_not.2 hindex)]
      rfl
    · have hindex : nodeIndex t i = 0 := by
        rw [nodeIndex, hval, hkey]
      refine ⟨nums, hnone hindex, ?_⟩
      rw [if_neg (not_not.2 hindex)]
      rfl
    · have hindex : nodeIndex t i =
          if 0 < arrayindex k ∧ arrayindex k ≤ maxAsize then (arrayindex k).toNat else 0 := by
        rw [nodeIndex, hval, hkey]
      have hne : nodeIndex t i ≠ 0 ↔ 0 < arrayindex k ∧ arrayindex k ≤ maxAsize := by
        rw [hindex]
        split_ifs with hcounted
        · omega
        · omega
      refine ⟨(countint k nums).2, fun b ↦ ?_, ?_⟩
      · rw [countint_snd]
        have hsame : ((0 < arrayindex k ∧ arrayindex k ≤ maxAsize) ∧
            ceillog2 (arrayindex k).toNat = b) ↔
              nodeIndex t i ≠ 0 ∧ ceillog2 (nodeIndex t i) = b := by
          rw [hne]
          refine and_congr_right fun hcounted ↦ ?_
          rw [hindex, if_pos hcounted]
        rw [if_congr hsame rfl rfl]
      · rw [if_congr hne rfl rfl, ← countint_fst k nums]
        rfl

theorem numusehashLoop_eq (t : Table N V) (i ause totaluse : ℕ) (nums : ℕ → ℕ) :
    (numusehashLoop t i ause totaluse nums).1 = ause + Nat.count (fun j ↦ nodeIndex t j ≠ 0) i ∧
      (numusehashLoop t i ause totaluse nums).2.1 =
        totaluse + Nat.count (fun j ↦ (t.node j).val.isSome = true) i ∧
      ∀ b, (numusehashLoop t i ause totaluse nums).2.2 b =
        nums b + Nat.count (fun j ↦ nodeIndex t j ≠ 0 ∧ ceillog2 (nodeIndex t j) = b) i := by
  induction i generalizing ause totaluse nums with
  | zero => exact ⟨rfl, rfl, fun _ ↦ rfl⟩
  | succ i ih =>
    obtain ⟨nums', hnums', hturn⟩ := numusehashLoop_succ t i ause totaluse nums
    obtain ⟨huse, htotal, hnums⟩ := ih (ause + if nodeIndex t i ≠ 0 then 1 else 0)
      (totaluse + if (t.node i).val.isSome = true then 1 else 0) nums'
    rw [hturn]
    refine ⟨?_, ?_, fun b ↦ ?_⟩
    · rw [huse, Nat.count_succ, Nat.add_assoc, Nat.add_comm (Nat.count _ i)]
    · rw [htotal, Nat.count_succ, Nat.add_assoc, Nat.add_comm (Nat.count _ i)]
    · rw [hnums b, hnums' b, Nat.count_succ, Nat.add_assoc, Nat.add_comm (Nat.count _ i)]

/-! ### The keys that are counted -/

/-- The integer keys of the nodes with values. -/
def hashKeys (t : Table N V) : Finset ℕ :=
  ((Finset.range t.sizenode).filter fun j ↦ nodeIndex t j ≠ 0).image (nodeIndex t)

theorem nodeIndex_eq_iff {j a : ℕ} (ha : a ≠ 0) : nodeIndex t j = a ↔
    ∃ k v, (t.node j).key = .key k ∧ (t.node j).val = some v ∧ arrayindex k = a ∧
      a ≤ maxAsize := by
  constructor
  · intro hindex
    rw [nodeIndex] at hindex
    split at hindex
    · next v k hval hkey =>
      split_ifs at hindex with hcounted
      · exact ⟨k, v, hkey, hval, by omega, by omega⟩
      · exact absurd hindex.symm ha
    · exact absurd hindex.symm ha
  · rintro ⟨k, v, hkey, hval, hindex, hle⟩
    rw [nodeIndex, hval, hkey]
    dsimp only
    rw [if_pos (by omega)]
    omega

theorem mem_hashKeys {a : ℕ} : a ∈ hashKeys t ↔
    ∃ j < t.sizenode, ∃ k v, (t.node j).key = .key k ∧ (t.node j).val = some v ∧
      arrayindex k = a ∧ a ≤ maxAsize ∧ a ≠ 0 := by
  rw [hashKeys, Finset.mem_image]
  constructor
  · rintro ⟨j, hj, rfl⟩
    obtain ⟨hlt, hne⟩ := Finset.mem_filter.1 hj
    obtain ⟨k, v, hkey, hval, hindex, hle⟩ := (nodeIndex_eq_iff hne).1 rfl
    exact ⟨j, Finset.mem_range.1 hlt, k, v, hkey, hval, hindex, hle, hne⟩
  · rintro ⟨j, hj, k, v, hkey, hval, hindex, hle, hne⟩
    have heq := (nodeIndex_eq_iff hne).2 ⟨k, v, hkey, hval, hindex, hle⟩
    exact ⟨j, Finset.mem_filter.2 ⟨Finset.mem_range.2 hj, heq ▸ hne⟩, heq⟩

theorem Consistent.injOn_nodeIndex (hconsistent : Consistent t) :
    Set.InjOn (nodeIndex t) ((Finset.range t.sizenode).filter fun j ↦ nodeIndex t j ≠ 0) := by
  intro j hj j' hj' heq
  obtain ⟨hlt, hne⟩ := Finset.mem_filter.1 hj
  obtain ⟨hlt', -⟩ := Finset.mem_filter.1 hj'
  obtain ⟨k, v, hkey, -, hindex, -⟩ := (nodeIndex_eq_iff hne).1 rfl
  obtain ⟨k', v', hkey', -, hindex', -⟩ := (nodeIndex_eq_iff hne).1 heq.symm
  have hsame : k = k' := key_ext (by omega) (hindex.trans hindex'.symm)
  exact hconsistent.distinct j (Finset.mem_range.1 hlt) j' (Finset.mem_range.1 hlt') k hkey
    (hsame ▸ hkey')

theorem Consistent.card_hashKeys (hconsistent : Consistent t) :
    (hashKeys t).card = Nat.count (fun j ↦ nodeIndex t j ≠ 0) t.sizenode := by
  rw [hashKeys, Finset.card_image_of_injOn hconsistent.injOn_nodeIndex,
    Nat.count_eq_card_filter_range]

theorem Consistent.sliceCount_hashKeys (hconsistent : Consistent t) (b : ℕ) :
    sliceCount (hashKeys t) b =
      Nat.count (fun j ↦ nodeIndex t j ≠ 0 ∧ ceillog2 (nodeIndex t j) = b) t.sizenode := by
  rw [sliceCount, hashKeys, Finset.filter_image, Finset.filter_filter, Finset.card_image_of_injOn,
    Nat.count_eq_card_filter_range]
  refine hconsistent.injOn_nodeIndex.mono fun j hj ↦ ?_
  obtain ⟨hlt, hne, -⟩ := Finset.mem_filter.1 hj
  exact Finset.mem_filter.2 ⟨hlt, hne⟩

/-- The new key, if it is counted. -/
def extraKeys (ek : Key N) : Finset ℕ :=
  if 0 < arrayindex ek ∧ arrayindex ek ≤ maxAsize then {(arrayindex ek).toNat} else ∅

/-- The integer keys that `rehash` counts. -/
def countedKeys (t : Table N V) (ek : Key N) : Finset ℕ :=
  (arrayKeys t).filter (· ≤ maxAsize) ∪ hashKeys t ∪ extraKeys ek

/-- How many nodes have values. -/
def liveCount (t : Table N V) : ℕ := Nat.count (fun j ↦ (t.node j).val.isSome = true) t.sizenode

theorem mem_extraKeys {ek : Key N} {a : ℕ} :
    a ∈ extraKeys ek ↔ 1 ≤ a ∧ a ≤ maxAsize ∧ arrayindex ek = a := by
  rw [extraKeys]
  split_ifs with hcounted
  · rw [Finset.mem_singleton]
    omega
  · constructor
    · exact fun hmem ↦ absurd hmem (Finset.notMem_empty a)
    · rintro ⟨hone, hle, hindex⟩
      exact absurd ⟨by omega, by omega⟩ hcounted

section Counted

variable {ek : Key N}

theorem Consistent.disjoint_hashKeys (hconsistent : Consistent t) :
    Disjoint ((arrayKeys t).filter (· ≤ maxAsize)) (hashKeys t) := by
  refine Finset.disjoint_left.2 fun a ha hmem ↦ ?_
  obtain ⟨hone, hle, -⟩ := mem_arrayKeys.1 (Finset.mem_filter.1 ha).1
  obtain ⟨j, hj, k, v, hkey, hval, hindex, -⟩ := mem_hashKeys.1 hmem
  exact hconsistent.apart j k (.ne_none hj hval) hkey ⟨by omega, by omega⟩

theorem Consistent.disjoint_extraKeys (hconsistent : Consistent t) (hget : luaHGet t ek = none) :
    Disjoint ((arrayKeys t).filter (· ≤ maxAsize) ∪ hashKeys t) (extraKeys ek) := by
  obtain ⟨hout, hfind⟩ := luaHGet_eq_none hget
  refine Finset.disjoint_left.2 fun a ha hmem ↦ ?_
  obtain ⟨hone, hmax, hindex⟩ := mem_extraKeys.1 hmem
  rcases Finset.mem_union.1 ha with harray | hhash
  · obtain ⟨-, hle, -⟩ := mem_arrayKeys.1 (Finset.mem_filter.1 harray).1
    exact hout ⟨by omega, by omega⟩
  · obtain ⟨j, hj, k, v, hkey, -, hindex', -⟩ := mem_hashKeys.1 hhash
    have hsame : k = ek := key_ext (by omega) (hindex'.trans hindex.symm)
    exact hconsistent.ne_key hfind hj (hsame ▸ hkey)

theorem sliceCount_union {keys keys' : Finset ℕ} (hdisjoint : Disjoint keys keys') (b : ℕ) :
    sliceCount (keys ∪ keys') b = sliceCount keys b + sliceCount keys' b := by
  rw [sliceCount, Finset.filter_union, Finset.card_union_of_disjoint
    (Finset.disjoint_filter_filter hdisjoint)]
  rfl

theorem sliceCount_extraKeys (ek : Key N) (b : ℕ) : sliceCount (extraKeys ek) b =
    if (0 < arrayindex ek ∧ arrayindex ek ≤ maxAsize) ∧ ceillog2 (arrayindex ek).toNat = b then 1
    else 0 := by
  rw [sliceCount, extraKeys]
  split_ifs with hcounted hslice hslice
  · rw [Finset.filter_singleton, if_pos hslice.2, Finset.card_singleton]
  · rw [Finset.filter_singleton, if_neg fun hlog ↦ hslice ⟨hcounted, hlog⟩, Finset.card_empty]
  · exact absurd hslice.1 hcounted
  · rw [Finset.filter_empty, Finset.card_empty]

theorem card_extraKeys (ek : Key N) : (extraKeys ek).card =
    if 0 < arrayindex ek ∧ arrayindex ek ≤ maxAsize then 1 else 0 := by
  rw [extraKeys]
  split_ifs
  · rw [Finset.card_singleton]
  · rw [Finset.card_empty]

/-- The keys of the array up to `MAXASIZE`, counted as `numusearray` does. -/
theorem card_arrayKeys (t : Table N V) : ((arrayKeys t).filter (· ≤ maxAsize)).card =
    keysBelow (arrayKeys t) (maxBits + 1) :=
  keysUpTo_two_pow (arrayKeys t) maxBits

theorem sliceCount_arrayKeys (t : Table N V) {b : ℕ} (hb : b ≤ maxBits) :
    sliceCount ((arrayKeys t).filter (· ≤ maxAsize)) b = sliceCount (arrayKeys t) b := by
  rw [sliceCount, Finset.filter_filter, sliceCount]
  refine congrArg Finset.card (Finset.filter_congr fun a _ ↦ ?_)
  refine and_iff_right_of_imp fun hlog ↦ ?_
  exact ceillog2_le_iff.1 (hlog.le.trans hb)

/-- The sizes are the best one for the keys that are counted, and one that leaves a node for every
other key. -/
theorem Consistent.rehashSizes_eq (hconsistent : Consistent t) (hget : luaHGet t ek = none) :
    Optimal (countedKeys t ek) (rehashSizes t ek).1 ∧
      (rehashSizes t ek).2 = ((arrayKeys t).filter (· ≤ maxAsize)).card + liveCount t + 1 -
        keysUpTo (countedKeys t ek) (rehashSizes t ek).1 := by
  obtain ⟨harray, harraynums⟩ := numusearray_eq t
  obtain ⟨hhash, htotal, hhashnums⟩ :=
    numusehashLoop_eq t t.sizenode 0 0 (numusearray t fun _ ↦ 0).2
  have hdisjoint := hconsistent.disjoint_hashKeys
  have hdisjoint' := hconsistent.disjoint_extraKeys hget
  have hpos : ∀ a ∈ countedKeys t ek, 1 ≤ a := by
    intro a ha
    rcases Finset.mem_union.1 ha with hmem | hmem
    · rcases Finset.mem_union.1 hmem with hmem | hmem
      · exact (mem_arrayKeys.1 (Finset.mem_filter.1 hmem).1).1
      · obtain ⟨-, -, -, -, -, -, -, -, hne⟩ := mem_hashKeys.1 hmem
        exact Nat.one_le_iff_ne_zero.2 hne
    · exact (mem_extraKeys.1 hmem).1
  have hnums : ∀ b ≤ maxBits,
      (countint ek (numusehash t (numusearray t fun _ ↦ 0).2).2.2).2 b =
        sliceCount (countedKeys t ek) b := by
    intro b hb
    rw [countint_snd, numusehash, hhashnums b, harraynums b hb, countedKeys,
      sliceCount_union hdisjoint', sliceCount_union hdisjoint, sliceCount_arrayKeys t hb,
      hconsistent.sliceCount_hashKeys, sliceCount_extraKeys]
  have hcard : (numusearray t fun _ ↦ 0).1 + (numusehash t (numusearray t fun _ ↦ 0).2).1 +
      (countint ek (numusehash t (numusearray t fun _ ↦ 0).2).2.2).1 =
        (countedKeys t ek).card := by
    rw [countint_fst, numusehash, hhash, harray, Nat.zero_add, countedKeys,
      Finset.card_union_of_disjoint hdisjoint', Finset.card_union_of_disjoint hdisjoint,
      card_arrayKeys, hconsistent.card_hashKeys, card_extraKeys]
  obtain ⟨best, hbest, hsizes⟩ := computesizes_eq hpos hnums
  have hresult : rehashSizes t ek =
      (best, (numusearray t fun _ ↦ 0).1 + (numusehash t (numusearray t fun _ ↦ 0).2).2.1 + 1 -
        keysUpTo (countedKeys t ek) best) := by
    rw [rehashSizes]
    dsimp only
    rw [hcard, hsizes]
  rw [hresult]
  refine ⟨hbest, ?_⟩
  dsimp only
  rw [harray, numusehash, htotal, Nat.zero_add, card_arrayKeys]
  rfl

/-! ### What is counted -/

/-- The key of an element of the array. -/
def intKey (a : ℕ) : Key N := .number (N.castNum a)

theorem arrayindex_intKey {a : ℕ} (ha : a ≤ intMax) : arrayindex (intKey a : Key N) = a :=
  arrayindex_castNum (by omega) (by omega)

theorem eq_intKey {k : Key N} {a : ℕ} (hindex : arrayindex k = a) (hone : 1 ≤ a) :
    k = intKey a := by
  have hpos : 1 ≤ arrayindex k := by omega
  have hk := eq_of_arrayindex hpos
  rw [hindex] at hk
  exact hk

theorem maxAsize_le : maxAsize ≤ intMax := by decide

/-- The keys that are counted are those of the values that the table holds. -/
theorem mem_countedKeys {a : ℕ} :
    a ∈ countedKeys t ek ↔
      1 ≤ a ∧ a ≤ maxAsize ∧ ((∃ v, t.Holds (intKey a) v) ∨ arrayindex ek = a) := by
  have hmax := maxAsize_le
  have harray : ∀ v, 1 ≤ a → a ≤ maxAsize → (ArrayHolds t (intKey a) v ↔
      a ≤ t.sizearray ∧ t.array.getD (a - 1) none = some v) := by
    intro v hone hle
    rw [ArrayHolds, InArray, arrayindex_intKey (by omega)]
    have hindex : ((a : ℤ) - 1).toNat = a - 1 := by omega
    rw [hindex]
    refine and_congr_left fun _ ↦ ?_
    omega
  rw [countedKeys, Finset.mem_union, Finset.mem_union, Finset.mem_filter, mem_arrayKeys,
    mem_hashKeys, mem_extraKeys]
  constructor
  · rintro ((⟨⟨hone, hle, hsome⟩, hmaxa⟩ | ⟨j, hj, k, v, hkey, hval, hindex, hmaxa, hne⟩) |
      ⟨hone, hmaxa, hindex⟩)
    · obtain ⟨v, hv⟩ := Option.isSome_iff_exists.1 hsome
      exact ⟨hone, hmaxa, .inl ⟨v, .inl ((harray v hone hmaxa).2 ⟨hle, hv⟩)⟩⟩
    · have hone := Nat.one_le_iff_ne_zero.2 hne
      exact ⟨hone, hmaxa, .inl ⟨v, .inr ⟨j, hj, eq_intKey hindex hone ▸ hkey, hval⟩⟩⟩
    · exact ⟨hone, hmaxa, .inr hindex⟩
  · rintro ⟨hone, hmaxa, ⟨v, hheld | ⟨j, hj, hkey, hval⟩⟩ | hindex⟩
    · obtain ⟨hle, hv⟩ := (harray v hone hmaxa).1 hheld
      exact .inl (.inl ⟨⟨hone, hle, hv ▸ rfl⟩, hmaxa⟩)
    · exact .inl (.inr ⟨j, hj, intKey a, v, hkey, hval, arrayindex_intKey (by omega), hmaxa,
        by omega⟩)
    · exact .inr ⟨hone, hmaxa, hindex⟩

/-! ### What the sizes leave room for -/

/-- The nodes with values. -/
def liveNodes (t : Table N V) : Finset ℕ :=
  (Finset.range t.sizenode).filter fun j ↦ (t.node j).val.isSome = true

theorem card_liveNodes (t : Table N V) : (liveNodes t).card = liveCount t := by
  rw [liveCount, Nat.count_eq_card_filter_range]
  rfl

theorem mem_liveNodes {j : ℕ} : j ∈ liveNodes t ↔ Live t j := by
  rw [liveNodes, Finset.mem_filter, Finset.mem_range, Option.isSome_iff_ne_none]
  rfl

theorem liveCount_le (t : Table N V) : liveCount t ≤ t.sizenode := by
  rw [← card_liveNodes, ← Finset.card_range t.sizenode]
  exact Finset.card_filter_le _ _

/-- The nodes whose keys go to an array of a size. -/
def movingNodes (t : Table N V) (size : ℕ) : Finset ℕ :=
  (Finset.range t.sizenode).filter fun j ↦ nodeIndex t j ≠ 0 ∧ nodeIndex t j ≤ size

theorem Consistent.keysUpTo_hashKeys (hconsistent : Consistent t) (size : ℕ) :
    keysUpTo (hashKeys t) size = (movingNodes t size).card := by
  rw [keysUpTo, hashKeys, Finset.filter_image, Finset.filter_filter, Finset.card_image_of_injOn]
  · rfl
  · refine hconsistent.injOn_nodeIndex.mono fun j hj ↦ ?_
    obtain ⟨hlt, hne, -⟩ := Finset.mem_filter.1 hj
    exact Finset.mem_filter.2 ⟨hlt, hne⟩

theorem keysUpTo_union_le (keys keys' : Finset ℕ) (size : ℕ) :
    keysUpTo (keys ∪ keys') size ≤ keysUpTo keys size + keysUpTo keys' size := by
  rw [keysUpTo, Finset.filter_union]
  exact Finset.card_union_le _ _

theorem keysUpTo_le_card (keys : Finset ℕ) (size : ℕ) : keysUpTo keys size ≤ keys.card :=
  Finset.card_filter_le _ _

theorem Consistent.keysUpTo_countedKeys_le (hconsistent : Consistent t) (ek : Key N) (size : ℕ) :
    keysUpTo (countedKeys t ek) size ≤
      ((arrayKeys t).filter (· ≤ maxAsize)).card + (movingNodes t size).card + 1 := by
  have hunion := keysUpTo_union_le ((arrayKeys t).filter (· ≤ maxAsize) ∪ hashKeys t)
    (extraKeys ek) size
  have hunion' := keysUpTo_union_le ((arrayKeys t).filter (· ≤ maxAsize)) (hashKeys t) size
  have harray := keysUpTo_le_card ((arrayKeys t).filter (· ≤ maxAsize)) size
  have hextra := keysUpTo_le_card (extraKeys ek) size
  have hone : (extraKeys ek).card ≤ 1 := by
    rw [card_extraKeys]
    split_ifs
    · exact Nat.le_refl 1
    · exact Nat.zero_le 1
  rw [hconsistent.keysUpTo_hashKeys] at hunion'
  rw [countedKeys]
  omega

theorem nodeIndex_of_live {j : ℕ} {k : Key N} (hlive : Live t j) (hkey : (t.node j).key = .key k)
    {size : ℕ} (hsize : size ≤ maxAsize) :
    (nodeIndex t j ≠ 0 ∧ nodeIndex t j ≤ size) ↔ 1 ≤ arrayindex k ∧ arrayindex k ≤ size := by
  obtain ⟨v, hval⟩ := Option.ne_none_iff_exists'.1 hlive.2
  constructor
  · rintro ⟨hne, hle⟩
    obtain ⟨k', v', hkey', -, hindex, -⟩ := (nodeIndex_eq_iff hne).1 rfl
    rw [NodeKey.key.inj (hkey.symm.trans hkey'), hindex]
    omega
  · rintro ⟨hone, hle⟩
    have hindex : nodeIndex t j = (arrayindex k).toNat :=
      (nodeIndex_eq_iff (by omega)).2 ⟨k, v, hkey, hval, by omega, by omega⟩
    omega

theorem movingNodes_subset (t : Table N V) (size : ℕ) : movingNodes t size ⊆ liveNodes t := by
  intro j hj
  obtain ⟨hlt, hne, -⟩ := Finset.mem_filter.1 hj
  obtain ⟨k, v, -, hval, -⟩ := (nodeIndex_eq_iff hne).1 rfl
  exact mem_liveNodes.2 (.ne_none (Finset.mem_range.1 hlt) hval)

/-- There is a node for every key that does not go to the array. -/
theorem Consistent.card_staying_le (hconsistent : Consistent t) (hget : luaHGet t ek = none)
    {staying : Finset ℕ} (hstaying : ∀ j ∈ staying, Live t j ∧ ∀ k, (t.node j).key = .key k →
      ¬ (1 ≤ arrayindex k ∧ arrayindex k ≤ (rehashSizes t ek).1)) :
    staying.card ≤ (rehashSizes t ek).2 := by
  obtain ⟨hoptimal, hnodes⟩ := hconsistent.rehashSizes_eq hget
  have hupto := hconsistent.keysUpTo_countedKeys_le ek (rehashSizes t ek).1
  have hdisjoint : Disjoint staying (movingNodes t (rehashSizes t ek).1) := by
    refine Finset.disjoint_left.2 fun j hj hmoving ↦ ?_
    obtain ⟨hlive, hout⟩ := hstaying j hj
    obtain ⟨k, hkey⟩ := hconsistent.keyed j hlive
    obtain ⟨-, hindex⟩ := Finset.mem_filter.1 hmoving
    exact hout k hkey ((nodeIndex_of_live hlive hkey hoptimal.le).1 hindex)
  have hsubset : staying ∪ movingNodes t (rehashSizes t ek).1 ⊆ liveNodes t :=
    Finset.union_subset (fun j hj ↦ mem_liveNodes.2 (hstaying j hj).1) (movingNodes_subset t _)
  have hcard := Finset.card_le_card hsubset
  rw [Finset.card_union_of_disjoint hdisjoint, card_liveNodes] at hcard
  omega

/-- If a node's key goes to an array that has to grow for it, the vector does not have to. -/
theorem Consistent.rehashSizes_le (hconsistent : Consistent t) (hget : luaHGet t ek = none)
    (hgrows : t.sizearray < (rehashSizes t ek).1) {j : ℕ} {k : Key N} (hlive : Live t j)
    (hkey : (t.node j).key = .key k) (hlow : 1 ≤ arrayindex k)
    (hhigh : arrayindex k ≤ (rehashSizes t ek).1) : (rehashSizes t ek).2 ≤ t.sizenode := by
  obtain ⟨hoptimal, hnodes⟩ := hconsistent.rehashSizes_eq hget
  have hmax := hoptimal.le
  have hmoving : 0 < (movingNodes t (rehashSizes t ek).1).card := by
    refine Finset.card_pos.2 ⟨j, Finset.mem_filter.2 ⟨Finset.mem_range.2 hlive.1, ?_⟩⟩
    exact (nodeIndex_of_live hlive hkey hmax).2 ⟨hlow, hhigh⟩
  have hall : keysUpTo ((arrayKeys t).filter (· ≤ maxAsize)) (rehashSizes t ek).1 =
      ((arrayKeys t).filter (· ≤ maxAsize)).card := by
    refine Finset.card_filter_eq_iff.2 fun a ha ↦ ?_
    obtain ⟨-, hle, -⟩ := mem_arrayKeys.1 (Finset.mem_filter.1 ha).1
    omega
  have hboth : keysUpTo ((arrayKeys t).filter (· ≤ maxAsize) ∪ hashKeys t) (rehashSizes t ek).1 =
      ((arrayKeys t).filter (· ≤ maxAsize)).card +
        (movingNodes t (rehashSizes t ek).1).card := by
    rw [keysUpTo, Finset.filter_union, Finset.card_union_of_disjoint
      (Finset.disjoint_filter_filter hconsistent.disjoint_hashKeys),
      ← hconsistent.keysUpTo_hashKeys, ← hall]
    rfl
  have hsubset : (arrayKeys t).filter (· ≤ maxAsize) ∪ hashKeys t ⊆
      (arrayKeys t).filter (· ≤ maxAsize) ∪ hashKeys t ∪ extraKeys ek := Finset.subset_union_left
  have hmono := keysUpTo_mono hsubset (rehashSizes t ek).1
  have hlive' := liveCount_le t
  rw [countedKeys] at hnodes
  omega

/-- Up to a size that is not greater than the array's, only keys of the array are counted. -/
theorem Consistent.keysUpTo_countedKeys (hconsistent : Consistent t) (hget : luaHGet t ek = none)
    {size : ℕ} (hsize : size ≤ t.sizearray) (hmax : size ≤ maxAsize) :
    keysUpTo (countedKeys t ek) size = keysUpTo (arrayKeys t) size := by
  have hout := (luaHGet_eq_none hget).1
  refine congrArg Finset.card (Finset.ext fun a ↦ ?_)
  rw [Finset.mem_filter, Finset.mem_filter, countedKeys, Finset.mem_union, Finset.mem_union]
  refine and_congr_left fun hle ↦ ?_
  constructor
  · rintro ((hmem | hhash) | hextra)
    · exact (Finset.mem_filter.1 hmem).1
    · obtain ⟨j, hj, k, v, hkey, hval, hindex, -, hne⟩ := mem_hashKeys.1 hhash
      exact absurd ⟨by omega, by omega⟩ (hconsistent.apart j k (.ne_none hj hval) hkey)
    · obtain ⟨hone, -, hindex⟩ := mem_extraKeys.1 hextra
      exact absurd ⟨by omega, by omega⟩ hout
  · exact fun hmem ↦ .inl (.inl (Finset.mem_filter.2 ⟨hmem, hle.trans hmax⟩))

/-- If the array does not grow, there is a node more than there are keys in the vector and in the
slice that vanishes. -/
theorem Consistent.rehashSizes_of_le (hconsistent : Consistent t) (hget : luaHGet t ek = none)
    (hle : (rehashSizes t ek).1 ≤ t.sizearray) (hmax : t.sizearray ≤ maxAsize) :
    (rehashSizes t ek).2 =
      liveCount t + keysBeyond (arrayKeys t) (rehashSizes t ek).1 + 1 := by
  obtain ⟨hoptimal, hnodes⟩ := hconsistent.rehashSizes_eq hget
  have hcounted : (arrayKeys t).filter (· ≤ maxAsize) = arrayKeys t :=
    Finset.filter_true_of_mem fun a ha ↦ (mem_arrayKeys.1 ha).2.1.trans hmax
  have hsplit := keysUpTo_add_keysBeyond (arrayKeys t) (rehashSizes t ek).1
  rw [hcounted, hconsistent.keysUpTo_countedKeys hget hle hoptimal.le] at hnodes
  omega

/-- If the array keeps its size, there is a node more than there are keys in the vector. -/
theorem Consistent.rehashSizes_same (hconsistent : Consistent t) (hget : luaHGet t ek = none)
    (hsame : (rehashSizes t ek).1 = t.sizearray) : (rehashSizes t ek).2 = liveCount t + 1 := by
  have hmax := (hconsistent.rehashSizes_eq hget).1.le
  have hnodes := hconsistent.rehashSizes_of_le hget hsame.le (hsame ▸ hmax)
  rwa [hsame, keysBeyond_arrayKeys, Nat.add_zero] at hnodes

end Counted

end Elua.Lua.Tables
