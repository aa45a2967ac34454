import Elua.Lua.Sort

/-!
# Sorting with a strict weak order

The order function need only be an order on the elements that are sorted (`Orders`). It then stops
the loops of the partition at the pivot, or at an element that has been exchanged before, so no
index leaves the range and no other value is compared. What is proved is total: the sort returns when
its fuel is greater than the number of elements.
-/

set_option autoImplicit false
set_option relaxedAutoImplicit false

namespace Elua.Lua.Sort

open Foundation Tables

variable {α σ : Type*} {cmp : σ → α → α → Option (Bool × σ)} {lt : α → α → Bool} {among : Set α}

/-- The order function is a strict weak order on some values. -/
structure Orders (cmp : σ → α → α → Option (Bool × σ)) (lt : α → α → Bool) (among : Set α) :
    Prop where
  compares : ∀ world, ∀ x ∈ among, ∀ y ∈ among, ∃ world', cmp world x y = some (lt x y, world')
  asymm : ∀ x ∈ among, ∀ y ∈ among, lt x y = true → lt y x = false
  trans : ∀ x ∈ among, ∀ y ∈ among, ∀ z ∈ among, lt x y = false → lt y z = false → lt x z = false

/-- One value is not greater than another one. -/
def NotAbove (lt : α → α → Bool) (x y : α) : Prop := lt y x = false

/-- The elements of a range are in order. -/
def SortedOn (lt : α → α → Bool) (l u : ℤ) (a : ℤ → α) : Prop :=
  ∀ i j, l ≤ i → i ≤ j → j ≤ u → NotAbove lt (a i) (a j)

section Order

variable {x y z : α}

theorem Orders.notAbove_self (horders : Orders cmp lt among) (hx : x ∈ among) :
    NotAbove lt x x := by
  rw [NotAbove]
  rcases hself : lt x x with - | -
  · rfl
  · rw [← horders.asymm x hx x hx hself, hself]

theorem Orders.notAbove_of_lt (horders : Orders cmp lt among) (hx : x ∈ among) (hy : y ∈ among)
    (hlt : lt x y = true) : NotAbove lt x y := horders.asymm x hx y hy hlt

theorem Orders.notAbove_trans (horders : Orders cmp lt among) (hx : x ∈ among) (hy : y ∈ among)
    (hz : z ∈ among) (hxy : NotAbove lt x y) (hyz : NotAbove lt y z) : NotAbove lt x z :=
  horders.trans z hz y hy x hx hyz hxy

end Order

section Loops

variable {s s₀ : State α σ} {l u i j : ℤ} {pivot : α}

theorem Orders.sortComp (horders : Orders cmp lt among) {a b : α} (ha : a ∈ among)
    (hb : b ∈ among) : (sortComp cmp s a b).Delivers
      fun s' less ↦ s'.elements = s.elements ∧ less = lt a b := by
  obtain ⟨world, hworld⟩ := horders.compares s.world a ha b hb
  refine ⟨{ s with world := world }, lt a b, ?_, rfl, rfl⟩
  rw [Sort.sortComp, hworld]

/-- The loop stops at the first element that is not less than the pivot. -/
theorem Orders.scanUp (horders : Orders cmp lt among) (hpivot : pivot ∈ among) {stop : ℤ}
    (hstop : stop ≤ u) (hamong : ∀ k, i < k → k ≤ stop → s.elements k ∈ among)
    (hhalt : lt (s.elements stop) pivot = false) {fuel : ℕ} (hless : i < stop)
    (hfuel : (stop - i).toNat ≤ fuel) :
    (scanUp cmp u pivot fuel s i).Delivers fun s' i' ↦ s'.elements = s.elements ∧ i < i' ∧
      i' ≤ stop ∧ lt (s.elements i') pivot = false ∧
        ∀ k, i < k → k < i' → lt (s.elements k) pivot = true := by
  induction fuel generalizing s i with
  | zero => omega
  | succ fuel ih =>
    rw [Sort.scanUp]
    refine (horders.sortComp (hamong (i + 1) (by omega) (by omega)) hpivot).andThen ?_
    rintro s' less ⟨hsame, rfl⟩
    rcases hcompared : lt (s.elements (i + 1)) pivot with - | -
    · rw [if_neg Bool.false_ne_true]
      exact ⟨s', i + 1, rfl, hsame, by omega, by omega, hcompared, fun k hlow hhigh ↦ by omega⟩
    · have hnext : i + 1 < stop := by
        rcases Int.lt_or_eq_of_le (show i + 1 ≤ stop by omega) with hlt | rfl
        · exact hlt
        · rw [hhalt] at hcompared
          cases hcompared
      rw [if_pos rfl, if_neg (by omega)]
      refine (ih ?_ ?_ hnext (by omega)).imp ?_
      · rw [hsame]
        exact fun k hlow hhigh ↦ hamong k (by omega) hhigh
      · rw [hsame]
        exact hhalt
      · rintro last i' ⟨hlast, hlow, hhigh, hnotless, hbelow⟩
        rw [hsame] at hlast hnotless hbelow
        refine ⟨hlast, by omega, hhigh, hnotless, fun k hk hki ↦ ?_⟩
        rcases Int.lt_or_eq_of_le (show i + 1 ≤ k by omega) with hlt | rfl
        · exact hbelow k hlt hki
        · exact hcompared

/-- The loop stops at the first element, from above, that is not greater than the pivot. -/
theorem Orders.scanDown (horders : Orders cmp lt among) (hpivot : pivot ∈ among) {stop : ℤ}
    (hstop : l ≤ stop) (hamong : ∀ k, k < j → stop ≤ k → s.elements k ∈ among)
    (hhalt : lt pivot (s.elements stop) = false) {fuel : ℕ} (hless : stop < j)
    (hfuel : (j - stop).toNat ≤ fuel) :
    (scanDown cmp l pivot fuel s j).Delivers fun s' j' ↦ s'.elements = s.elements ∧ j' < j ∧
      stop ≤ j' ∧ lt pivot (s.elements j') = false ∧
        ∀ k, j' < k → k < j → lt pivot (s.elements k) = true := by
  induction fuel generalizing s j with
  | zero => omega
  | succ fuel ih =>
    rw [Sort.scanDown]
    refine (horders.sortComp hpivot (hamong (j - 1) (by omega) (by omega))).andThen ?_
    rintro s' less ⟨hsame, rfl⟩
    rcases hcompared : lt pivot (s.elements (j - 1)) with - | -
    · rw [if_neg Bool.false_ne_true]
      exact ⟨s', j - 1, rfl, hsame, by omega, by omega, hcompared, fun k hlow hhigh ↦ by omega⟩
    · have hnext : stop < j - 1 := by
        rcases Int.lt_or_eq_of_le (show stop ≤ j - 1 by omega) with hlt | rfl
        · exact hlt
        · rw [hhalt] at hcompared
          cases hcompared
      rw [if_pos rfl, if_neg (by omega)]
      refine (ih ?_ ?_ hnext (by omega)).imp ?_
      · rw [hsame]
        exact fun k hlow hhigh ↦ hamong k (by omega) hhigh
      · rw [hsame]
        exact hhalt
      · rintro last j' ⟨hlast, hlow, hhigh, hnotless, habove⟩
        rw [hsame] at hlast hnotless habove
        refine ⟨hlast, by omega, hhigh, hnotless, fun k hk hkj ↦ ?_⟩
        rcases Int.lt_or_eq_of_le (show k ≤ j - 1 by omega) with hlt | rfl
        · exact habove k hk hlt
        · exact hcompared

/-- The invariant of the partition. -/
structure Partitioned (lt : α → α → Bool) (among : Set α) (l u : ℤ) (pivot : α) (s₀ : State α σ)
    (i j : ℤ) (s : State α σ) : Prop where
  rearranges : Rearranges (between l u) s₀.elements s.elements
  low : ∀ k, l ≤ k → k ≤ i → NotAbove lt (s.elements k) pivot
  high : ∀ k, j ≤ k → k ≤ u → NotAbove lt pivot (s.elements k)
  pivot : s.elements (u - 1) = pivot
  bounds : l ≤ i ∧ i < u - 1 ∧ i ≤ j ∧ l < j ∧ j ≤ u - 1

/-- The elements on both sides of the place of the pivot. -/
structure Split (lt : α → α → Bool) (l u : ℤ) (pivot : α) (i : ℤ) (a : ℤ → α) : Prop where
  low : ∀ k, l ≤ k → k < i → NotAbove lt (a k) pivot
  high : ∀ k, i ≤ k → k ≤ u → NotAbove lt pivot (a k)

theorem Orders.partition (horders : Orders cmp lt among) (hpivot : pivot ∈ among)
    (hamong : ∀ k ∈ between l u, s₀.elements k ∈ among) {passes fuel : ℕ}
    (hpasses : (u - l).toNat ≤ passes) (hinvariant : Partitioned lt among l u pivot s₀ i j s)
    (hfuel : (j - l).toNat < fuel) :
    (partition cmp l u pivot passes fuel s i j).Delivers fun s' i' ↦
      Rearranges (between l u) s₀.elements s'.elements ∧ Split lt l u pivot i' s'.elements ∧
        s'.elements (u - 1) = pivot ∧ l < i' ∧ i' ≤ u - 1 := by
  induction fuel generalizing s i j with
  | zero => omega
  | succ fuel ih =>
    obtain ⟨hrearranges, hlow, hhigh, hplace, hil, hiu, hij, hlj, hju⟩ := hinvariant
    have hvalues : ∀ k ∈ between l u, s.elements k ∈ among := hrearranges.forall_mem hamong
    have hhalt : lt (s.elements (u - 1)) pivot = false := by
      rw [hplace]
      exact horders.notAbove_self hpivot
    have henough : (u - 1 - i).toNat ≤ passes := by omega
    have hup := horders.scanUp hpivot (show u - 1 ≤ u by omega)
      (fun k hk hku ↦ hvalues k ⟨by omega, by omega⟩) hhalt hiu henough
    rw [Sort.partition]
    refine hup.andThen ?_
    rintro s' i' ⟨hsame, hi', hi'u, hnotless, hbelow⟩
    rw [← hsame] at hvalues hlow hhigh hplace hnotless hbelow hrearranges
    have henough' : (j - l).toNat ≤ passes := by omega
    have hdown := horders.scanDown hpivot (Int.le_refl l)
      (fun k hk hlk ↦ hvalues k ⟨hlk, by omega⟩) (hlow l (Int.le_refl l) hil) hlj henough'
    refine hdown.andThen ?_
    rintro s'' j' ⟨hsame', hj', hlj', hnotgreater, habove⟩
    rw [← hsame'] at hvalues hlow hhigh hplace hnotless hbelow hnotgreater habove hrearranges
    have hlow' : ∀ k, l ≤ k → k < i' → NotAbove lt (s''.elements k) pivot := by
      intro k hlk hki
      rcases Int.lt_or_le i k with hik | hki'
      · exact horders.notAbove_of_lt (hvalues k ⟨hlk, by omega⟩) hpivot (hbelow k hik hki)
      · exact hlow k hlk hki'
    have hhigh' : ∀ k, j' < k → k ≤ u → NotAbove lt pivot (s''.elements k) := by
      intro k hjk hku
      rcases Int.lt_or_le k j with hkj | hjk'
      · exact horders.notAbove_of_lt hpivot (hvalues k ⟨by omega, hku⟩) (habove k hjk hkj)
      · exact hhigh k hjk' hku
    by_cases hcross : j' < i'
    · rw [if_pos hcross]
      exact ⟨s'', i', rfl, hrearranges, ⟨hlow', fun k hik hku ↦ hhigh' k (by omega) hku⟩, hplace,
        by omega, hi'u⟩
    · rw [if_neg hcross, set2_eq]
      refine ih ⟨hrearranges.trans (rearranges_exchange _ ⟨by omega, by omega⟩
        ⟨by omega, by omega⟩), ?_, ?_, ?_, by omega⟩ (by omega)
      · intro k hlk hki
        rw [elements_exchange]
        rcases Int.lt_or_eq_of_le hki with hlt | rfl
        · rw [exchange_of_ne _ (by omega) (by omega)]
          exact hlow' k hlk hlt
        · rw [exchange_left]
          exact hnotgreater
      · intro k hjk hku
        rw [elements_exchange]
        rcases Int.lt_or_eq_of_le hjk with hlt | rfl
        · rw [exchange_of_ne _ (by omega) (by omega)]
          exact hhigh' k hlt hku
        · rw [exchange_right]
          exact hnotless
      · rw [elements_exchange, exchange_of_ne _ (by omega) (by omega)]
        exact hplace

end Loops

/-! ### Three elements -/

section Three

variable {s s₀ : State α σ} {l u i : ℤ}

/-- The elements of a range have changed places with each other. -/
def Within (l u : ℤ) (s₀ s : State α σ) : Prop := Rearranges (between l u) s₀.elements s.elements

theorem Orders.orderEnds (horders : Orders cmp lt among) (hamong : ∀ k ∈ between l u, s.elements k ∈ among)
    (hless : l < u) : (orderEnds cmp s l u).Delivers fun s' _ ↦
      Within l u s s' ∧ NotAbove lt (s'.elements l) (s'.elements u) := by
  have hl : s.elements l ∈ among := hamong l ⟨Int.le_refl l, hless.le⟩
  have hu : s.elements u ∈ among := hamong u ⟨hless.le, Int.le_refl u⟩
  refine (horders.sortComp hu hl).andThen ?_
  rintro s' less ⟨hsame, rfl⟩
  refine ⟨_, (), rfl, ?_⟩
  rcases hcompared : lt (s.elements u) (s.elements l) with - | -
  · rw [if_neg Bool.false_ne_true, Within, hsame]
    exact ⟨.refl _ _, hcompared⟩
  · rw [if_pos rfl, set2_eq, Within, elements_exchange, exchange_left, exchange_right, hsame]
    exact ⟨rearranges_exchange _ ⟨Int.le_refl l, hless.le⟩ ⟨hless.le, Int.le_refl u⟩,
      horders.notAbove_of_lt hu hl hcompared⟩

theorem Orders.orderMiddle (horders : Orders cmp lt among)
    (hamong : ∀ k ∈ between l u, s.elements k ∈ among) (hl : l < i) (hu : i < u)
    (hends : NotAbove lt (s.elements l) (s.elements u)) :
    (orderMiddle cmp s l i u).Delivers fun s' _ ↦ Within l u s s' ∧
      NotAbove lt (s'.elements l) (s'.elements i) ∧
        NotAbove lt (s'.elements i) (s'.elements u) := by
  have hamongl : s.elements l ∈ among := hamong l ⟨Int.le_refl l, by omega⟩
  have hamongi : s.elements i ∈ among := hamong i ⟨by omega, by omega⟩
  have hamongu : s.elements u ∈ among := hamong u ⟨by omega, Int.le_refl u⟩
  refine (horders.sortComp hamongi hamongl).andThen ?_
  rintro s' less ⟨hsame, rfl⟩
  rcases hlow : lt (s.elements i) (s.elements l) with - | -
  · rw [if_neg Bool.false_ne_true]
    rw [← hsame] at hamongi hamongu hends hlow
    refine (horders.sortComp hamongu hamongi).andThen ?_
    rintro s'' less ⟨hsame', rfl⟩
    refine ⟨_, (), rfl, ?_⟩
    rcases hhigh : lt (s'.elements u) (s'.elements i) with - | -
    · rw [if_neg Bool.false_ne_true, Within, ← hsame, hsame']
      exact ⟨.refl _ _, hlow, hhigh⟩
    · rw [if_pos rfl, set2_eq, Within, ← hsame, elements_exchange, exchange_left, exchange_right,
        exchange_of_ne _ (by omega) (by omega), hsame']
      exact ⟨rearranges_exchange _ ⟨by omega, by omega⟩ ⟨by omega, by omega⟩, hends,
        horders.notAbove_of_lt hamongu hamongi hhigh⟩
  · rw [if_pos rfl, set2_eq]
    refine ⟨_, (), rfl, ?_⟩
    have hother : Foundation.exchange s'.elements i l u = s'.elements u :=
      exchange_of_ne _ (by omega) (by omega)
    dsimp only
    rw [Within, elements_exchange, exchange_left, exchange_right, hother, hsame]
    exact ⟨rearranges_exchange _ ⟨by omega, by omega⟩ ⟨by omega, by omega⟩,
      horders.notAbove_of_lt hamongi hamongl hlow, hends⟩

end Three

/-! ### The sort -/

section Auxsort

variable {s s₀ : State α σ} {l u i : ℤ} {a : ℤ → α} {pivot : α}

/-- A range is in order when both sides of the pivot are. -/
theorem Orders.sortedOn_of_split (horders : Orders cmp lt among)
    (hamong : ∀ k ∈ between l u, a k ∈ among) (hsplit : Split lt l u (a i) i a) (hil : l ≤ i)
    (hiu : i ≤ u) (hleft : SortedOn lt l (i - 1) a) (hright : SortedOn lt (i + 1) u a) :
    SortedOn lt l u a := by
  intro x y hx hxy hy
  have hamongi : a i ∈ among := hamong i ⟨hil, hiu⟩
  have hamongx : a x ∈ among := hamong x ⟨hx, by omega⟩
  have hamongy : a y ∈ among := hamong y ⟨by omega, hy⟩
  rcases Int.lt_or_le y i with hyi | hyi
  · exact hleft x y hx hxy (by omega)
  · rcases Int.lt_or_le x i with hxi | hxi
    · exact horders.notAbove_trans hamongx hamongi hamongy (hsplit.low x hx hxi)
        (hsplit.high y hyi hy)
    · rcases Int.lt_or_eq_of_le hxi with hxi | rfl
      · exact hright x y (by omega) hxy hy
      · exact hsplit.high y hyi hy

/-- The pivot is put between both sides. -/
theorem Split.exchange (hsplit : Split lt l u pivot i a) (hpivot : a (u - 1) = pivot)
    (hiu : i ≤ u - 1) (hself : NotAbove lt pivot pivot) :
    Split lt l u (Foundation.exchange a (u - 1) i i) i (Foundation.exchange a (u - 1) i) := by
  rw [exchange_right, hpivot]
  refine ⟨fun k hlk hki ↦ ?_, fun k hik hku ↦ ?_⟩
  · rw [exchange_of_ne _ (by omega) (by omega)]
    exact hsplit.low k hlk hki
  · by_cases hk : k = i
    · rw [hk, exchange_right, hpivot]
      exact hself
    · by_cases hk' : k = u - 1
      · rw [hk', exchange_left]
        exact hsplit.high i (Int.le_refl i) (by omega)
      · rw [exchange_of_ne _ hk' hk]
        exact hsplit.high k hik hku

/-- Elements that change places on one side of the pivot stay there. -/
theorem Split.of_rearranges {b : ℤ → α} {l' u' : ℤ} (hsplit : Split lt l u (a i) i a)
    (hrearranges : Rearranges (between l' u') a b)
    (hside : l ≤ l' ∧ u' ≤ i - 1 ∨ i + 1 ≤ l' ∧ u' ≤ u) : Split lt l u (b i) i b := by
  have hpivot : b i = a i := hrearranges.eq_of_notMem fun hmem ↦ by
    obtain ⟨hlow, hhigh⟩ := hmem
    omega
  rw [hpivot]
  refine ⟨fun k hlk hki ↦ ?_, fun k hik hku ↦ ?_⟩
  · by_cases hk : k ∈ between l' u'
    · obtain ⟨k', ⟨hlow, hhigh⟩, heq⟩ := hrearranges.exists_of_mem hk
      obtain ⟨hlow', hhigh'⟩ := hk
      rw [heq]
      exact hsplit.low k' (by omega) (by omega)
    · rw [hrearranges.eq_of_notMem hk]
      exact hsplit.low k hlk hki
  · by_cases hk : k ∈ between l' u'
    · obtain ⟨k', ⟨hlow, hhigh⟩, heq⟩ := hrearranges.exists_of_mem hk
      obtain ⟨hlow', hhigh'⟩ := hk
      rw [heq]
      exact hsplit.high k' (by omega) (by omega)
    · rw [hrearranges.eq_of_notMem hk]
      exact hsplit.high k hik hku

theorem SortedOn.congr {b : ℤ → α} (hsorted : SortedOn lt l u a) (hsame : ∀ k ∈ between l u, b k = a k) :
    SortedOn lt l u b := by
  intro x y hx hxy hy
  rw [hsame x ⟨hx, by omega⟩, hsame y ⟨by omega, hy⟩]
  exact hsorted x y hx hxy hy

/-- The sort returns with the elements of the range in order. -/
theorem Orders.auxsort (horders : Orders cmp lt among) {fuel : ℕ}
    (hamong : ∀ k ∈ between l u, s.elements k ∈ among) (hfuel : (u - l).toNat < fuel) :
    (auxsort cmp fuel s l u).Delivers fun s' _ ↦ Within l u s s' ∧ SortedOn lt l u s'.elements := by
  induction fuel generalizing s l u with
  | zero => omega
  | succ fuel ih =>
    rw [Sort.auxsort]
    by_cases hempty : u ≤ l
    · rw [if_pos hempty]
      refine ⟨s, (), rfl, .refl _ _, fun x y hx hxy hy ↦ ?_⟩
      obtain rfl : x = y := by omega
      exact horders.notAbove_self (hamong x ⟨hx, hy⟩)
    rw [if_neg hempty]
    refine (horders.orderEnds hamong (by omega)).andThen ?_
    rintro s₁ - ⟨hwithin₁, hends⟩
    have hamong₁ : ∀ k ∈ between l u, s₁.elements k ∈ among := hwithin₁.forall_mem hamong
    by_cases htwo : u - l = 1
    · rw [if_pos htwo]
      refine ⟨s₁, (), rfl, hwithin₁, fun x y hx hxy hy ↦ ?_⟩
      rcases Int.lt_or_eq_of_le hxy with hless | rfl
      · obtain rfl : x = l := by omega
        obtain rfl : y = u := by omega
        exact hends
      · exact horders.notAbove_self (hamong₁ x ⟨hx, hy⟩)
    rw [if_neg htwo]
    have hlow : l < (l + u) / 2 := by omega
    have hhigh : (l + u) / 2 < u := by omega
    refine (horders.orderMiddle hamong₁ hlow hhigh hends).andThen ?_
    rintro s₂ - ⟨hwithin₂, hlm, hmu⟩
    have hwithin₂' : Within l u s s₂ := hwithin₁.trans hwithin₂
    have hamong₂ : ∀ k ∈ between l u, s₂.elements k ∈ among := hwithin₂'.forall_mem hamong
    generalize hm : (l + u) / 2 = m at hlow hhigh hlm hmu
    have hamongm : s₂.elements m ∈ among := hamong₂ m ⟨by omega, by omega⟩
    by_cases hthree : u - l = 2
    · rw [if_pos hthree]
      refine ⟨s₂, (), rfl, hwithin₂', ?_⟩
      have hsplit : Split lt l u (s₂.elements m) m s₂.elements := by
        refine ⟨fun k hlk hkm ↦ ?_, fun k hmk hku ↦ ?_⟩
        · obtain rfl : k = l := by omega
          exact hlm
        · rcases Int.lt_or_eq_of_le hmk with hless | rfl
          · obtain rfl : k = u := by omega
            exact hmu
          · exact horders.notAbove_self hamongm
      refine horders.sortedOn_of_split hamong₂ hsplit (by omega) (by omega)
        (fun x y hx hxy hy ↦ ?_) fun x y hx hxy hy ↦ ?_
      · obtain rfl : x = y := by omega
        exact horders.notAbove_self (hamong₂ x ⟨hx, by omega⟩)
      · obtain rfl : x = y := by omega
        exact horders.notAbove_self (hamong₂ x ⟨by omega, hy⟩)
    rw [if_neg hthree]
    dsimp only
    rw [set2_eq]
    have hstart : Partitioned lt among l u (s₂.elements m) s l (u - 1) (s₂.exchange m (u - 1)) := by
      refine ⟨hwithin₂'.trans (rearranges_exchange _ ⟨by omega, by omega⟩ ⟨by omega, by omega⟩),
        fun k hlk hkl ↦ ?_, fun k hjk hku ↦ ?_, exchange_right _ _ _, by omega⟩
      · obtain rfl : k = l := by omega
        rw [elements_exchange, exchange_of_ne _ (by omega) (by omega)]
        exact hlm
      · rw [elements_exchange]
        rcases Int.lt_or_eq_of_le hjk with hless | rfl
        · rw [exchange_of_ne _ (by omega) (by omega)]
          obtain rfl : k = u := by omega
          exact hmu
        · rw [exchange_right]
          exact horders.notAbove_self hamongm
    refine (horders.partition hamongm hamong (by omega) hstart (by omega)).andThen ?_
    rintro s₃ i ⟨hwithin₃, hsplit, hplace, hil, hiu⟩
    rw [set2_eq]
    have hwithin₄ : Within l u s (s₃.exchange (u - 1) i) :=
      hwithin₃.trans (rearranges_exchange _ ⟨by omega, by omega⟩ ⟨by omega, by omega⟩)
    have hsplit₄ : Split lt l u ((s₃.exchange (u - 1) i).elements i) i
        (s₃.exchange (u - 1) i).elements :=
      hsplit.exchange hplace hiu (horders.notAbove_self hamongm)
    have hamong₄ := hwithin₄.forall_mem hamong
    generalize s₃.exchange (u - 1) i = s₄ at hwithin₄ hsplit₄ hamong₄
    have hparts : ∀ l₁ u₁ l₂ u₂, (l₁ = l ∧ u₁ = i - 1 ∧ l₂ = i + 1 ∧ u₂ = u) ∨
        (l₁ = i + 1 ∧ u₁ = u ∧ l₂ = l ∧ u₂ = i - 1) →
        ((Sort.auxsort cmp fuel s₄ l₁ u₁).andThen fun s _ ↦
          Sort.auxsort cmp fuel s l₂ u₂).Delivers fun s' _ ↦
            Within l u s s' ∧ SortedOn lt l u s'.elements := by
      intro l₁ u₁ l₂ u₂ hsides
      have hsubset₁ : between l₁ u₁ ⊆ between l u := between_subset_between (by omega) (by omega)
      have hsubset₂ : between l₂ u₂ ⊆ between l u := between_subset_between (by omega) (by omega)
      refine (ih (fun k hk ↦ hamong₄ k (hsubset₁ hk)) (by omega)).andThen ?_
      rintro s₅ - ⟨hfirst, hsorted₁⟩
      have hwithin₅ : Within l u s s₅ := hwithin₄.trans (Rearranges.mono hfirst hsubset₁)
      have hamong₅ := hwithin₅.forall_mem hamong
      refine (ih (fun k hk ↦ hamong₅ k (hsubset₂ hk)) (by omega)).imp ?_
      rintro s₆ - ⟨hsecond, hsorted₂⟩
      have hwithin₆ : Within l u s s₆ := hwithin₅.trans (Rearranges.mono hsecond hsubset₂)
      have hsplit₆ : Split lt l u (s₆.elements i) i s₆.elements :=
        (hsplit₄.of_rearranges hfirst (by omega)).of_rearranges hsecond (by omega)
      have hsorted₁' : SortedOn lt l₁ u₁ s₆.elements := hsorted₁.congr fun k hk ↦
        Rearranges.eq_of_notMem hsecond fun hmem ↦ by
          obtain ⟨hlow₁, hhigh₁⟩ := hk
          obtain ⟨hlow₂, hhigh₂⟩ := hmem
          omega
      refine ⟨hwithin₆, horders.sortedOn_of_split (hwithin₆.forall_mem hamong) hsplit₆ (by omega)
        (by omega) ?_ ?_⟩
      · rcases hsides with ⟨rfl, rfl, -, -⟩ | ⟨-, -, rfl, rfl⟩
        · exact hsorted₁'
        · exact hsorted₂
      · rcases hsides with ⟨-, -, rfl, rfl⟩ | ⟨rfl, rfl, -, -⟩
        · exact hsorted₂
        · exact hsorted₁'
    split_ifs
    · exact hparts _ _ _ _ (.inl ⟨rfl, rfl, rfl, rfl⟩)
    · exact hparts _ _ _ _ (.inr ⟨rfl, rfl, rfl, rfl⟩)

end Auxsort

/-- A table of `n` elements is sorted: they come to be in order, and all others stay. -/
theorem sort_sorts (s : State α σ) {n : ℤ}
    (horders : Orders cmp lt {x | ∃ k ∈ between 1 n, s.elements k = x}) {fuel : ℕ}
    (hfuel : (n - 1).toNat < fuel) :
    (auxsort cmp fuel s 1 n).Delivers fun s' _ ↦
      Rearranges (between 1 n) s.elements s'.elements ∧ SortedOn lt 1 n s'.elements :=
  horders.auxsort (fun k hk ↦ ⟨k, hk, rfl⟩) hfuel

/-- Six numbers, two of them equal, and an order function that counts its calls. -/
def sixNumbers : State ℕ ℕ := ⟨fun k ↦ [0, 3, 5, 1, 5, 2, 4].getD k.toNat 0, 0⟩

/-- The order function. -/
def countingLess (calls x y : ℕ) : Option (Bool × ℕ) := some (decide (x < y), calls + 1)

/-- The partition of six elements leaves two parts. -/
theorem sort_sorts_sixNumbers : (auxsort countingLess 6 sixNumbers 1 6).Delivers fun s' _ ↦
    Rearranges (between 1 6) sixNumbers.elements s'.elements ∧
      SortedOn (fun x y ↦ decide (x < y)) 1 6 s'.elements := by
  refine sort_sorts sixNumbers ⟨fun calls x _ y _ ↦ ⟨calls + 1, rfl⟩, ?_, ?_⟩ (by decide)
  · intro x _ y _ hlt
    have hless := of_decide_eq_true hlt
    exact decide_eq_false (by omega)
  · intro x _ y _ z _ hxy hyz
    have hxy' := of_decide_eq_false hxy
    have hyz' := of_decide_eq_false hyz
    exact decide_eq_false (by omega)

end Elua.Lua.Sort
