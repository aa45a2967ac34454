import Elua.Lua.TableSizes

/-!
# Rehashing a table

`resize` keeps what a table holds, when no key that is in the vector belongs to an array that could
not be completed, and when the keys that are inserted again find a place. There is a node for each
of them that `rehash` has counted (`Roomy`). But an array that gets smaller may have keys beyond
`MAXASIZE`, which it has not counted. So inserting them can need a rehash of its own. The array has
its best size by then (`Optimal.subset`), and this rehash leaves it as it is
(`Sound.newkey_of_same`). So `newkey` is not called again to a depth of more than three
(`Sound.newkey`).
-/

set_option autoImplicit false
set_option relaxedAutoImplicit false

namespace Elua.Lua.Tables

open Foundation Links

variable {N : KeyNumbers} {V : Type*} {t : Table N V}

/-! ### Growing the array -/

/-- The table with a longer array. -/
def Table.growArray (t : Table N V) (size : ℕ) : Table N V :=
  { t with
    array := t.array.take t.sizearray ++ List.replicate (size - t.sizearray) none
    sizearray := size }

section Array

variable {size : ℕ}

theorem length_growArray (hlength : t.sizearray ≤ t.array.length) (hsize : t.sizearray ≤ size) :
    (t.growArray size).array.length = size := by
  change (t.array.take t.sizearray ++ List.replicate (size - t.sizearray) none).length = size
  rw [List.length_append, List.length_take, List.length_replicate]
  omega

theorem arrayHolds_growArray (hlength : t.sizearray ≤ t.array.length) (hsize : t.sizearray ≤ size)
    {k : Key N} {v : V} : ArrayHolds (t.growArray size) k v ↔ ArrayHolds t k v := by
  have htake : (t.array.take t.sizearray).length = t.sizearray := by
    rw [List.length_take]
    omega
  change ((1 ≤ arrayindex k ∧ arrayindex k ≤ (size : ℤ)) ∧
    (t.array.take t.sizearray ++ List.replicate (size - t.sizearray) none).getD
      (arrayindex k - 1).toNat none = some v) ↔ _
  rw [ArrayHolds, InArray, List.getD_eq_getElem?_getD, List.getD_eq_getElem?_getD]
  constructor
  · rintro ⟨⟨hlow, hhigh⟩, hvalue⟩
    rcases Nat.lt_or_ge (arrayindex k - 1).toNat t.sizearray with hless | hge
    · rw [List.getElem?_append_left (htake.symm ▸ hless), List.getElem?_take_of_lt hless] at hvalue
      exact ⟨⟨hlow, by omega⟩, hvalue⟩
    · rw [List.getElem?_append_right (htake.symm ▸ hge), List.getElem?_replicate] at hvalue
      split_ifs at hvalue
      · cases hvalue
      · cases hvalue
  · rintro ⟨⟨hlow, hhigh⟩, hvalue⟩
    have hless : (arrayindex k - 1).toNat < t.sizearray := by omega
    rw [List.getElem?_append_left (htake.symm ▸ hless), List.getElem?_take_of_lt hless]
    exact ⟨⟨hlow, by omega⟩, hvalue⟩

/-- The array can grow if no node has a key that then belongs to it. -/
theorem Sound.growArray (hsound : Sound t) (hsize : t.sizearray ≤ size) (hmax : size ≤ intMax)
    (hout : ∀ j k, Live t j → (t.node j).key = .key k →
      ¬ (1 ≤ arrayindex k ∧ arrayindex k ≤ size)) : Sound (t.growArray size) :=
  ⟨⟨hsound.chained, hsound.bounded, hsound.free, hsound.keyed, hsound.reached, hsound.own,
    hsound.distinct, hout, (length_growArray hsound.length hsize).ge, hmax, hsound.lsizenode,
    hsound.dummy⟩, hsound.lastfree, hsound.full⟩

/-- The nodes of a sound table can be moved, also when its array has grown. -/
theorem Sound.resizable (hsound : Sound t) {nh : ℕ}
    (hfits : ∀ s : Finset ℕ, (∀ j ∈ s, Live t j ∧ ∀ k, (t.node j).key = .key k →
      ¬ (1 ≤ arrayindex k ∧ arrayindex k ≤ size)) → s.card ≤ nh) {t' : Table N V}
    (hnode : t'.node = t.node) (hlog : t'.lsizenode = t.lsizenode) (hdummy : t'.dummy = t.dummy)
    (hsize' : t'.sizearray = size) (hlength : t'.sizearray ≤ t'.array.length)
    (harray : ∀ k v, ArrayHolds t' k v ↔ ArrayHolds t k v) : Resizable nh t' := by
  have hnodes : t'.sizenode = t.sizenode := by
    rw [Table.sizenode, hlog]
    rfl
  have hused : ∀ j, Used (· < t'.sizenode) t' j → Live t j := by
    rintro j ⟨hj, hval⟩
    rw [hnode] at hval
    exact ⟨hnodes ▸ hj, hval⟩
  constructor
  · constructor
    · intro j hj
      rw [hnode]
      exact hsound.keyed j (hused j hj)
    · intro j j' hj hj' hkey
      obtain ⟨k, hk⟩ := hsound.keyed j (hused j hj)
      rw [hnode] at hkey
      exact hsound.distinct j (hused j hj).1 j' (hused j' hj').1 k hk (hkey ▸ hk)
    · intro j k hj hkey v
      rw [hnode] at hkey
      rw [harray]
      exact fun hheld ↦ hsound.apart j k (hused j hj) hkey hheld.1
    · intro s hs
      refine hfits s fun j hj ↦ ⟨hused j (hs j hj).1, fun k hkey ↦ ?_⟩
      rw [← hnode] at hkey
      have hout := (hs j hj).2 k hkey
      rwa [InArray, hsize'] at hout
  · intro j hj
    rw [hnode]
    rcases hnext : (t.node j).next with - | b
    · rfl
    · exact absurd (hsound.bounded j b hnext).1 (Nat.not_lt_of_le (hnodes ▸ hj))
  · intro htrue j
    rw [hnode]
    exact (hsound.dummy (hdummy ▸ htrue)).2 j
  · exact hlength

/-- The array as `resize` hands it to `resize_hashpart`. -/
def Table.atLeast (t : Table N V) (size : ℕ) : Table N V :=
  if t.sizearray < size then t.growArray size else t

theorem atLeast_self (t : Table N V) : t.atLeast t.sizearray = t := if_neg (Nat.lt_irrefl _)

/-- `resize_hashpart`, after the array has grown. -/
theorem Sound.resizeHashpart (hsound : Sound t) (mem : Memory) {nhsize : ℕ}
    (hsize : t.sizearray ≤ size) (hmax : size ≤ intMax)
    (hfits : ∀ s : Finset ℕ, (∀ j ∈ s, Live t j ∧ ∀ k, (t.node j).key = .key k →
      ¬ (1 ≤ arrayindex k ∧ arrayindex k ≤ size)) → s.card ≤ 2 ^ ceillog2 nhsize)
    (hroom : t.sizearray < size → ∀ j k, Live t j → (t.node j).key = .key k → 1 ≤ arrayindex k →
      arrayindex k ≤ size → nhsize ≤ t.sizenode) :
    (∃ after, resizeHashpart mem (t.atLeast size) nhsize = .returns after () ∧ Chains after ∧
      Sound after ∧ SameArray (t.atLeast size) after ∧ after.lsizenode = ceillog2 nhsize ∧
      after.sizearray = size ∧ ∀ k v, after.Holds k v ↔ t.Holds k v) ∨
    resizeHashpart mem (t.atLeast size) nhsize = .throws (t.atLeast size) ∧
      Sound (t.atLeast size) ∧ ∀ k v, (t.atLeast size).Holds k v ↔ t.Holds k v := by
  have hshape : (t.atLeast size).node = t.node ∧ (t.atLeast size).lsizenode = t.lsizenode ∧
      (t.atLeast size).dummy = t.dummy ∧ (t.atLeast size).sizearray = size ∧
      (t.atLeast size).sizearray ≤ (t.atLeast size).array.length ∧
      ∀ k v, ArrayHolds (t.atLeast size) k v ↔ ArrayHolds t k v := by
    rw [Table.atLeast]
    split_ifs with hgrow
    · exact ⟨rfl, rfl, rfl, rfl, (length_growArray hsound.length hsize).ge,
        fun _ _ ↦ arrayHolds_growArray hsound.length hsize⟩
    · exact ⟨rfl, rfl, rfl, by omega, hsound.length, fun _ _ ↦ .rfl⟩
  obtain ⟨hnode, hlog, hdummy, hsize', hlength, harray⟩ := hshape
  have hholds : ∀ k v, (t.atLeast size).Holds k v ↔ t.Holds k v := by
    intro k v
    rw [Table.Holds, Table.Holds, harray, NodeHolds, NodeHolds, Table.sizenode, hlog, hnode]
    rfl
  have hresizable : Resizable (2 ^ ceillog2 nhsize) (t.atLeast size) :=
    hsound.resizable hfits hnode hlog hdummy hsize' hlength harray
  rcases hresizable.resizeHashpart mem with
    ⟨after, hafter, hchains, hsame, hlog', hbits, hholds'⟩ | ⟨hthrows, hlarge⟩
  · have hafterlength : after.sizearray ≤ after.array.length := by
      rw [hsame.sizearray, hsame.length]
      exact hlength
    have hafterone : after.sizearray = size := hsame.sizearray.trans hsize'
    exact .inl ⟨after, hafter, hchains, hchains.sound hafterlength (hafterone ▸ hmax)
      (hlog'.symm ▸ hbits), hsame, hlog', hafterone, fun k v ↦ (hholds' k v).trans (hholds k v)⟩
  · refine .inr ⟨hthrows, ?_, hholds⟩
    rw [Table.atLeast]
    split_ifs with hgrow
    · refine hsound.growArray hsize hmax ?_
      rintro j k hlive hkey ⟨hlow, hhigh⟩
      have hle := hroom hgrow j k hlive hkey hlow hhigh
      have hceil : ceillog2 nhsize ≤ t.lsizenode := ceillog2_le_iff.2 hle
      have hmaxbits := hsound.lsizenode
      rcases hlarge with hover | hgrows
      · omega
      · have hreal : t.dummy = false := by
          by_contra htrue
          have hempty := (hsound.dummy (Bool.eq_true_of_not_eq_false htrue)).2 j
          exact hlive.2 (hempty ▸ rfl)
        rw [Table.oldhsize, hdummy, hreal, if_neg Bool.false_ne_true, Table.sizenode,
          hlog] at hgrows
        have hmono : 2 ^ ceillog2 nhsize ≤ 2 ^ t.lsizenode :=
          Nat.pow_le_pow_right Nat.two_pos hceil
        omega
    · exact hsound

end Array

/-! ### Free nodes -/

/-- The nodes suffice for the keys of an array beyond a size. -/
def Roomy (t₀ t : Table N V) (i : ℕ) : Prop :=
  t.dummy = false ∧ keyedCount t + keysBeyond (arrayKeys t₀) i < t.sizenode

section Room

variable {t₀ after : Table N V} {i : ℕ} {k : Key N}

/-- Two vectors that hold the same keys have as many nodes with values. -/
theorem Sound.liveCount_le_of_holds {after : Table N V} (hafter : Sound after)
    (hsize : after.sizearray = t.sizearray) (hholds : ∀ k v, after.Holds k v ↔ t.Holds k v) :
    liveCount after ≤ liveCount t := by
  have hkeys : (liveNodes after).image (fun j ↦ (after.node j).key) ⊆
      (liveNodes t).image fun j ↦ (t.node j).key := by
    intro key hkey
    obtain ⟨j, hj, rfl⟩ := Finset.mem_image.1 hkey
    have hlive := mem_liveNodes.1 hj
    obtain ⟨k, hk⟩ := hafter.keyed j hlive
    obtain ⟨v, hv⟩ := Option.ne_none_iff_exists'.1 hlive.2
    rcases (hholds k v).1 (.inr ⟨j, hlive.1, hk, hv⟩) with ⟨hin, -⟩ | ⟨i, hi, hki, hvi⟩
    · refine absurd ?_ (hafter.apart j k hlive hk)
      rw [InArray, hsize]
      exact hin
    · exact Finset.mem_image.2 ⟨i, mem_liveNodes.2 (.ne_none hi hvi), hki.trans hk.symm⟩
  have hinjective : Set.InjOn (fun j ↦ (after.node j).key) (liveNodes after : Set ℕ) := by
    intro i hi j hj heq
    have hlivei := mem_liveNodes.1 hi
    have hlivej := mem_liveNodes.1 hj
    obtain ⟨k, hk⟩ := hafter.keyed i hlivei
    exact hafter.distinct i hlivei.1 j hlivej.1 k hk (heq.symm.trans hk)
  rw [← card_liveNodes, ← card_liveNodes, ← Finset.card_image_of_injOn hinjective]
  exact (Finset.card_le_card hkeys).trans Finset.card_image_le

/-- After a rehash no node has a key without a value. -/
theorem Chains.keyedCount_le (hchains : Chains t) : keyedCount t ≤ liveCount t := by
  rw [← card_liveNodes]
  refine Finset.card_le_card fun i hi ↦ ?_
  obtain ⟨hrange, hkey⟩ := Finset.mem_filter.1 hi
  have hlt := Finset.mem_range.1 hrange
  exact mem_liveNodes.2 ⟨hlt, fun hval ↦ hkey (hchains.mixed.free i hlt hval).1⟩

/-- What a sound table holds under a key of the array. -/
theorem Consistent.holds_iff (hconsistent : Consistent t) {k : Key N} (hin : InArray t k) {v : V} :
    t.Holds k v ↔ t.array.getD (arrayindex k - 1).toNat none = some v := by
  constructor
  · rintro (⟨-, hvalue⟩ | ⟨i, hi, hkey, hval⟩)
    · exact hvalue
    · exact absurd hin (hconsistent.apart i k (.ne_none hi hval) hkey)
  · exact fun hvalue ↦ .inl ⟨hin, hvalue⟩

theorem Sound.mem_arrayKeys_iff (hsound : Sound t) {a : ℕ} :
    a ∈ arrayKeys t ↔ 1 ≤ a ∧ a ≤ t.sizearray ∧ ∃ v, t.Holds (intKey a) v := by
  rw [mem_arrayKeys]
  refine and_congr_right fun hone ↦ and_congr_right fun hle ↦ ?_
  have hmax := hsound.sizearray
  have hindex : arrayindex (intKey a : Key N) = a := arrayindex_intKey (by omega)
  have hplace : (arrayindex (intKey a : Key N) - 1).toNat = a - 1 := by omega
  rw [Option.isSome_iff_exists]
  refine exists_congr fun v ↦ ?_
  rw [hsound.holds_iff ⟨by omega, by omega⟩, hplace]

/-- Two tables with arrays of one size that hold the same have the same keys in them. -/
theorem Sound.arrayKeys_congr (hsound : Sound t) (hafter : Sound after)
    (hsize : after.sizearray = t.sizearray) (hholds : ∀ k v, after.Holds k v ↔ t.Holds k v) :
    arrayKeys after = arrayKeys t := by
  refine Finset.ext fun a ↦ ?_
  rw [hsound.mem_arrayKeys_iff, hafter.mem_arrayKeys_iff, hsize]
  exact and_congr_right fun _ ↦ and_congr_right fun _ ↦ exists_congr fun v ↦ hholds _ v

theorem keyedCount_store (t : Table N V) (value : Option V) (slot : Slot) :
    keyedCount (t.store value slot) = keyedCount t := by
  rcases slot with i | i
  · rfl
  · refine congrArg Finset.card (Finset.filter_congr fun x _ ↦ ?_)
    have hkey : ((t.store value (.node i)).node x).key = (t.node x).key := key_setVal x
    rw [hkey]

theorem Roomy.not_crowded (hroomy : Roomy t₀ t i) (hsound : Sound t) : ¬ Crowded t k := by
  intro hcrowded
  have hfull := hsound.sizenode_le_keyedCount hcrowded hroomy.1
  have hless := hroomy.2
  omega

theorem Roomy.skip (hroomy : Roomy t₀ t i) : Roomy t₀ t (i + 1) := by
  refine ⟨hroomy.1, Nat.lt_of_le_of_lt (Nat.add_le_add_left ?_ _) hroomy.2⟩
  exact Finset.card_le_card (Finset.monotone_filter_right _ fun a _ ha ↦ Nat.lt_of_succ_lt ha)

theorem Roomy.store (hroomy : Roomy t₀ t i) (hmem : i + 1 ∈ arrayKeys t₀)
    (hfilled : Filled t after) (value : Option V) (slot : Slot) :
    Roomy t₀ (after.store value slot) (i + 1) := by
  have hshape : (after.store value slot).dummy = after.dummy ∧
      (after.store value slot).sizenode = after.sizenode := by
    rcases slot with j | j
    · exact ⟨rfl, rfl⟩
    · exact ⟨rfl, rfl⟩
  have hfewer : keysBeyond (arrayKeys t₀) (i + 1) < keysBeyond (arrayKeys t₀) i := by
    refine Finset.card_lt_card ⟨?_, fun hsubset ↦ ?_⟩
    · exact Finset.monotone_filter_right _ fun a _ ha ↦ Nat.lt_of_succ_lt ha
    · have hbeyond := hsubset (Finset.mem_filter.2 ⟨hmem, Nat.lt_succ_self i⟩)
      exact Nat.lt_irrefl _ (Finset.mem_filter.1 hbeyond).2
  refine ⟨hshape.1.trans (hfilled.dummy.trans hroomy.1), ?_⟩
  have hsizenode : after.sizenode = t.sizenode := by
    rw [Table.sizenode, hfilled.lsizenode]
    rfl
  have hless := hroomy.2
  have hcount := hfilled.keyedCount_le
  rw [hshape.2, hsizenode, keyedCount_store]
  omega

end Room

/-! ### Inserting the keys of a vanishing slice -/

/-- What inserting a key that is not in the table comes to. It fails only if no node is free. -/
def Inserts (t : Table N V) (k : Key N) (outcome : Outcome (Table N V) Slot) : Prop :=
  (∃ after slot, outcome = .returns after slot ∧ Inserted t k after slot ∧ SameArray t after ∧
    (¬ Crowded t k → Filled t after)) ∨
  ∃ after, outcome = .throws after ∧ Sound after ∧ Crowded t k

theorem Inserted.of_get (hsound : Sound t) {k : Key N} {slot : Slot}
    (hget : luaHGet t k = some slot) : Inserted t k t slot :=
  ⟨hsound, fun _ _ ↦ .rfl, hget⟩

theorem SameArray.refl (t : Table N V) : SameArray t t := ⟨rfl, fun _ _ ↦ rfl, rfl⟩

theorem SameArray.trans {t' t'' : Table N V} (hfirst : SameArray t t')
    (hsecond : SameArray t' t'') : SameArray t t'' where
  sizearray := hsecond.sizearray.trans hfirst.sizearray
  beyond := fun j hj ↦ (hsecond.beyond j (hfirst.sizearray.symm ▸ hj)).trans (hfirst.beyond j hj)
  length := hsecond.length.trans hfirst.length

/-- The keys of the slice from an index on are still to be inserted. -/
structure Reinserting (old i : ℕ) (t₀ t : Table N V) : Prop where
  sound : Sound t
  holds : ∀ k v, t.Holds k v ↔ t₀.Holds k v ∧ ¬ (i < arrayindex k ∧ arrayindex k ≤ old)
  array : ∀ j, i ≤ j → t.array[j]? = t₀.array[j]?

section Reinsert

variable {n old i : ℕ} {t₀ : Table N V} {insert : Table N V → Key N → Outcome (Table N V) Slot}

/-- An integer key is set like any other key. -/
theorem luaHSetnum_eq_luaHSet {key : ℤ} (hlow : -intMax - 1 ≤ key) (hhigh : key ≤ intMax) :
    luaHSetnum insert t key = luaHSet insert t (.number (N.castNum key)) := by
  rw [luaHSetnum, luaHSet, luaHGet, N.number2int_castNum key hlow hhigh, if_pos rfl]

theorem luaHSetnum_succ (hmax : old ≤ intMax) (hi : i < old) :
    luaHSetnum insert t (i + 1) = luaHSet insert t (intKey (i + 1)) := by
  have hcast : ((i : ℤ) + 1) = ((i + 1 : ℕ) : ℤ) := by omega
  rw [luaHSetnum_eq_luaHSet (by omega) (by omega), hcast]
  rfl

/-- There is nothing to insert. -/
theorem Reinserting.skip (hbefore : Reinserting old i t₀ t) (hsound₀ : Sound t₀)
    (hold : t₀.sizearray = old) (hi : i < old) (hnone : t.array[i]? = some none) :
    Reinserting old (i + 1) t₀ t := by
  refine ⟨hbefore.sound, fun k v ↦ ?_, fun j hj ↦ hbefore.array j (Nat.le_of_succ_le hj)⟩
  rw [hbefore.holds]
  refine and_congr_right fun hheld ↦ ?_
  have hne : arrayindex k ≠ (i + 1 : ℕ) := by
    intro hindex
    have hin : InArray t₀ k := ⟨by omega, by omega⟩
    have hvalue := (hsound₀.holds_iff hin).1 hheld
    have hplace : (arrayindex k - 1).toNat = i := by omega
    rw [hplace, List.getD_eq_getElem?_getD, ← hbefore.array i (Nat.le_refl i), hnone] at hvalue
    cases hvalue
  omega

/-- A value of the slice is stored under its key. -/
theorem Reinserting.store (hbefore : Reinserting old i t₀ t) (hsound₀ : Sound t₀)
    (hold : t₀.sizearray = old) (hmax : old ≤ intMax) (hi : i < old) (hn : t.sizearray ≤ i)
    {value : V} (hvalue : t.array[i]? = some (some value)) {after : Table N V} {slot : Slot}
    (hinserted : Inserted t (intKey (i + 1)) after slot) (hsame : SameArray t after) :
    Reinserting old (i + 1) t₀ (after.store (some value) slot) ∧
      (after.store (some value) slot).sizearray = t.sizearray := by
  obtain ⟨hsound, hholds, hsame'⟩ := hinserted.sound.store hinserted.get (some value)
  have hindex : arrayindex (intKey (i + 1) : Key N) = (i + 1 : ℕ) := arrayindex_intKey (by omega)
  refine ⟨⟨hsound, fun k v ↦ ?_, fun j hj ↦ ?_⟩, hsame'.sizearray.trans hsame.sizearray⟩
  · rw [hholds, hinserted.holds, hbefore.holds]
    by_cases hk : k = intKey (i + 1)
    · have hindexk : arrayindex k = (i + 1 : ℕ) := hk ▸ hindex
      have hin : InArray t₀ k := ⟨by omega, by omega⟩
      have hplace : (arrayindex k - 1).toNat = i := by omega
      rw [if_pos hk, hsound₀.holds_iff hin, hplace, List.getD_eq_getElem?_getD,
        ← hbefore.array i (Nat.le_refl i), hvalue]
      exact (and_iff_left (by omega)).symm
    · have hne : arrayindex k ≠ (i + 1 : ℕ) := fun heq ↦ hk (eq_intKey heq (Nat.succ_pos i))
      rw [if_neg hk]
      refine and_congr_right fun _ ↦ ?_
      omega
  · rw [hsame'.beyond j (by rw [hsame.sizearray]; omega), hsame.beyond j (by omega),
      hbefore.array j (Nat.le_of_succ_le hj)]

/-- The whole loop. It fails only if the nodes do not suffice. -/
theorem Sound.reinsert (hsound₀ : Sound t₀) (hold : t₀.sizearray = old)
    (hinsert : ∀ i t, n ≤ i → i < old → Reinserting old i t₀ t → t.sizearray = n →
      (∃ v, t₀.Holds (intKey (i + 1)) v) → luaHGet t (intKey (i + 1)) = none →
        Inserts t (intKey (i + 1)) (insert t (intKey (i + 1))))
    (count i : ℕ) (hcount : i + count = old) (hni : n ≤ i) (hbefore : Reinserting old i t₀ t)
    (hn : t.sizearray = n) :
    (∃ after, reinsert insert (List.range' i count) t = .returns after () ∧
      Reinserting old old t₀ after ∧ after.sizearray = n) ∨
    ∃ after, reinsert insert (List.range' i count) t = .throws after ∧ Sound after ∧
      ¬ Roomy t₀ t i := by
  have hmax : old ≤ intMax := hold ▸ hsound₀.sizearray
  induction count generalizing i t with
  | zero =>
    obtain rfl : i = old := by omega
    exact .inl ⟨t, rfl, hbefore, hn⟩
  | succ count ih =>
    have hi : i < old := by omega
    have hplace : i < t₀.array.length := by
      have hlength := hsound₀.length
      omega
    have helement : t.array[i]? = some t₀.array[i] := by
      rw [hbefore.array i (Nat.le_refl i)]
      exact List.getElem?_eq_getElem hplace
    rw [List.range'_succ, Tables.reinsert, helement]
    rcases hvalue : t₀.array[i] with - | value
    · rw [hvalue] at helement
      have hnext := hbefore.skip hsound₀ hold hi helement
      refine (ih (i + 1) (by omega) (by omega) hnext hn).imp_right ?_
      rintro ⟨last, hlast, hsound, htight⟩
      exact ⟨last, hlast, hsound, fun hroomy ↦ htight hroomy.skip⟩
    · rw [hvalue] at helement
      dsimp only
      rw [luaHSetnum_succ hmax hi, luaHSet]
      have hmem : i + 1 ∈ arrayKeys t₀ := by
        refine mem_arrayKeys.2 ⟨Nat.succ_pos i, hold ▸ hi, ?_⟩
        rw [Nat.add_sub_cancel, List.getD_eq_getElem?_getD, List.getElem?_eq_getElem hplace, hvalue]
        rfl
      have hplaced : ∀ after slot, Inserted t (intKey (i + 1)) after slot → SameArray t after →
          (¬ Crowded t (intKey (i + 1)) → Filled t after) →
          (∃ last, Tables.reinsert insert (List.range' (i + 1) count)
              (after.store (some value) slot) = .returns last () ∧
            Reinserting old old t₀ last ∧ last.sizearray = n) ∨
          ∃ last, Tables.reinsert insert (List.range' (i + 1) count)
            (after.store (some value) slot) = .throws last ∧ Sound last ∧ ¬ Roomy t₀ t i := by
        intro after slot hinserted hsame hfilled
        obtain ⟨hnext, hsize⟩ :=
          hbefore.store hsound₀ hold hmax hi (by omega) helement hinserted hsame
        refine (ih (i + 1) (by omega) (by omega) hnext (hsize.trans hn)).imp_right ?_
        rintro ⟨last, hlast, hsound, htight⟩
        refine ⟨last, hlast, hsound, fun hroomy ↦ htight ?_⟩
        exact hroomy.store hmem (hfilled (hroomy.not_crowded hbefore.sound)) (some value) slot
      rcases hget : luaHGet t (intKey (i + 1)) with - | slot
      · have hheld := (hsound₀.mem_arrayKeys_iff.1 hmem).2.2
        rcases hinsert i t hni hi hbefore hn hheld hget with
          ⟨after, slot, hreturns, hinserted, hsame, hfilled⟩ | ⟨after, hthrows, hsound, hcrowded⟩
        · dsimp only
          rw [hreturns]
          exact hplaced after slot hinserted hsame hfilled
        · dsimp only
          rw [hthrows]
          exact .inr ⟨after, rfl, hsound, fun hroomy ↦ hroomy.not_crowded hbefore.sound hcrowded⟩
      · exact hplaced t slot (.of_get hbefore.sound hget) (.refl t) fun _ ↦ .refl t

end Reinsert

/-! ### Resizing -/

/-- A result that keeps what the table holds, also if it throws, unless an array of more than
`MAXASIZE` elements gets smaller. -/
def Keeps (t : Table N V) (size : ℕ) (outcome : Outcome (Table N V) Unit) : Prop :=
  (∃ after, outcome = .returns after () ∧ Sound after ∧ (∀ k v, after.Holds k v ↔ t.Holds k v) ∧
    after.sizearray = size) ∨
  ∃ after, outcome = .throws after ∧ Sound after ∧
    (t.sizearray ≤ max size maxAsize → ∀ k v, after.Holds k v ↔ t.Holds k v)

section Resize

variable {insert : Table N V → Key N → Outcome (Table N V) Slot} {nasize nhsize : ℕ}

/-- The array is cut, and the keys of the slice are to be inserted. -/
theorem Sound.reinserting (hsound : Sound t) (hless : nasize < t.sizearray) :
    Reinserting t.sizearray nasize t { t with sizearray := nasize } := by
  have hin : ∀ k, InArray { t with sizearray := nasize } k ↔
      InArray t k ∧ ¬ (nasize < arrayindex k ∧ arrayindex k ≤ t.sizearray) := by
    intro k
    change (1 ≤ arrayindex k ∧ arrayindex k ≤ (nasize : ℤ)) ↔
      (1 ≤ arrayindex k ∧ arrayindex k ≤ (t.sizearray : ℤ)) ∧ _
    omega
  have hlength := hsound.length
  have hmax := hsound.sizearray
  have hcut : nasize ≤ t.array.length := by omega
  refine ⟨⟨⟨hsound.chained, hsound.bounded, hsound.free, hsound.keyed, hsound.reached, hsound.own,
    hsound.distinct, ?_, hcut, ?_, hsound.lsizenode, hsound.dummy⟩, hsound.lastfree, hsound.full⟩,
    fun k v ↦ ?_, fun _ _ ↦ rfl⟩
  · exact fun i k hlive hkey hin' ↦ hsound.apart i k hlive hkey ((hin k).1 hin').1
  · change nasize ≤ intMax
    omega
  · constructor
    · rintro (⟨hin', hvalue⟩ | hnode)
      · exact ⟨.inl ⟨((hin k).1 hin').1, hvalue⟩, ((hin k).1 hin').2⟩
      · refine ⟨.inr hnode, fun hslice ↦ ?_⟩
        obtain ⟨i, hi, hkey, hval⟩ := hnode
        exact hsound.apart i k (.ne_none hi hval) hkey ⟨by omega, hslice.2⟩
    · rintro ⟨⟨hin', hvalue⟩ | hnode, hout⟩
      · exact .inl ⟨(hin k).2 ⟨hin', hout⟩, hvalue⟩
      · exact .inr hnode

/-- The array is shortened when all keys of the slice have been inserted. -/
theorem Sound.takeArray (hsound : Sound t) (hn : t.sizearray = nasize) :
    Sound { t with array := t.array.take nasize } ∧
      ∀ k v, ({ t with array := t.array.take nasize } : Table N V).Holds k v ↔ t.Holds k v := by
  have hlength : t.sizearray ≤ (t.array.take nasize).length := by
    rw [List.length_take, ← hn]
    exact Nat.le_min.2 ⟨Nat.le_refl _, hsound.length⟩
  refine ⟨⟨⟨hsound.chained, hsound.bounded, hsound.free, hsound.keyed, hsound.reached, hsound.own,
    hsound.distinct, hsound.apart, hlength, hsound.sizearray, hsound.lsizenode, hsound.dummy⟩,
    hsound.lastfree, hsound.full⟩, fun k v ↦ or_congr_left (and_congr_right fun hin ↦ ?_)⟩
  have hless : (arrayindex k - 1).toNat < nasize := by
    have hhigh := hin.2
    change arrayindex k ≤ (t.sizearray : ℤ) at hhigh
    have hlow := hin.1
    omega
  rw [List.getD_eq_getElem?_getD, List.getElem?_take_of_lt hless, List.getD_eq_getElem?_getD]

theorem Sound.resize (hsound : Sound t) (mem : Memory) (hmax : nasize ≤ intMax)
    (hfits : ∀ s : Finset ℕ, (∀ j ∈ s, Live t j ∧ ∀ k, (t.node j).key = .key k →
      ¬ (1 ≤ arrayindex k ∧ arrayindex k ≤ max nasize t.sizearray)) → s.card ≤ 2 ^ ceillog2 nhsize)
    (hroom : t.sizearray < nasize → ∀ j k, Live t j → (t.node j).key = .key k →
      1 ≤ arrayindex k → arrayindex k ≤ nasize → nhsize ≤ t.sizenode)
    (hplaces : nasize < t.sizearray → t.sizearray ≤ maxAsize →
      liveCount t + keysBeyond (arrayKeys t) nasize < nhsize)
    (hinsert : ∀ i t', nasize ≤ i → i < t.sizearray → Sound t' → t'.sizearray = nasize →
      (∀ k v, t'.Holds k v ↔
        t.Holds k v ∧ ¬ (i < arrayindex k ∧ arrayindex k ≤ t.sizearray)) →
      (∃ v, t.Holds (intKey (i + 1)) v) → luaHGet t' (intKey (i + 1)) = none →
        Inserts t' (intKey (i + 1)) (insert t' (intKey (i + 1)))) :
    Keeps t nasize (resize insert mem t nasize nhsize) := by
  rw [Tables.resize]
  by_cases hgrow : t.sizearray < nasize
  · have hwhole : max nasize t.sizearray = nasize := Nat.max_eq_left (Nat.le_of_lt hgrow)
    have hlarger : t.atLeast nasize = t.growArray nasize := if_pos hgrow
    rw [if_pos hgrow, setarrayvector]
    by_cases hmem : mem.array t.sizearray nasize = true
    · rw [if_pos hmem]
      change Keeps t nasize ((Tables.resizeHashpart mem (t.growArray nasize) nhsize).andThen _)
      rw [← hlarger]
      rw [hwhole] at hfits
      rcases hsound.resizeHashpart mem (Nat.le_of_lt hgrow) hmax hfits fun _ ↦ hroom hgrow with
        ⟨after, hafter, -, hsound', -, -, hsize, hholds⟩ | ⟨hthrows, hsound', hholds⟩
      · rw [hafter]
        dsimp only [Outcome.andThen]
        rw [if_neg (Nat.not_lt_of_le (Nat.le_of_lt hgrow))]
        exact .inl ⟨after, rfl, hsound', hholds, hsize⟩
      · rw [hthrows]
        exact .inr ⟨_, rfl, hsound', fun _ ↦ hholds⟩
    · rw [if_neg hmem]
      exact .inr ⟨t, rfl, hsound, fun _ _ _ ↦ .rfl⟩
  · have hwhole : max nasize t.sizearray = t.sizearray := Nat.max_eq_right (Nat.le_of_not_lt hgrow)
    rw [hwhole] at hfits
    rw [if_neg hgrow]
    change Keeps t nasize ((Tables.resizeHashpart mem t nhsize).andThen _)
    have hpart := hsound.resizeHashpart mem (Nat.le_refl t.sizearray) hsound.sizearray hfits
      fun hless ↦ absurd hless (Nat.lt_irrefl _)
    rw [atLeast_self] at hpart
    rcases hpart with ⟨after, hafter, hchains, hsound', -, hlog, hsize, hholds⟩ | ⟨hthrows, -⟩
    · rw [hafter]
      dsimp only [Outcome.andThen]
      by_cases hshrink : nasize < t.sizearray
      · rw [if_pos hshrink]
        have hstart := hsound'.reinserting (hsize.symm ▸ hshrink)
        rw [hsize] at hstart
        have hloop : (∃ last, Tables.reinsert insert (List.range' nasize (t.sizearray - nasize))
              { after with sizearray := nasize } = .returns last () ∧
            Reinserting t.sizearray t.sizearray after last ∧ last.sizearray = nasize) ∨
          ∃ last, Tables.reinsert insert (List.range' nasize (t.sizearray - nasize))
            { after with sizearray := nasize } = .throws last ∧ Sound last ∧
            ¬ Roomy after { after with sizearray := nasize } nasize :=
          hsound'.reinsert hsize (fun i t' hni hi hbefore hn hheld hget ↦
            hinsert i t' hni hi hbefore.sound hn
            (fun k v ↦ by rw [hbefore.holds, hholds])
            (hheld.imp fun v hv ↦ (hholds _ v).1 hv) hget)
          (t.sizearray - nasize) nasize (by omega) (Nat.le_refl nasize) hstart rfl
        rcases hloop with ⟨last, hlast, hlastinv, hn⟩ | ⟨last, hthrows, hlastsound, htight⟩
        · rw [hlast]
          dsimp only
          obtain ⟨htake, htakeholds⟩ := hlastinv.sound.takeArray hn
          refine .inl ⟨_, rfl, htake, fun k v ↦ ?_, hn⟩
          rw [htakeholds, hlastinv.holds, hholds]
          refine and_iff_left ?_
          omega
        · rw [hthrows]
          refine .inr ⟨last, rfl, hlastsound, fun hle ↦ absurd ⟨hchains.dummy, ?_⟩ htight⟩
          have hcount : keyedCount { after with sizearray := nasize } ≤ liveCount t :=
            hchains.keyedCount_le.trans (hsound'.liveCount_le_of_holds hsize hholds)
          have hnodes : nhsize ≤ 2 ^ after.lsizenode := ceillog2_le_iff.1 hlog.ge
          have hfree := hplaces hshrink (by omega)
          rw [hsound.arrayKeys_congr hsound' hsize hholds]
          change _ < 2 ^ after.lsizenode
          omega
      · rw [if_neg hshrink]
        exact .inl ⟨after, rfl, hsound', hholds, by omega⟩
    · rw [hthrows]
      exact .inr ⟨t, rfl, hsound, fun _ _ _ ↦ .rfl⟩

/-- `luaH_resizearray`, to a larger array, inserts nothing. -/
theorem Sound.luaHResizearray (hsound : Sound t) (mem : Memory) (hmax : nasize ≤ intMax)
    (hlarger : t.sizearray < nasize) : Keeps t nasize (luaHResizearray insert mem t nasize) := by
  have hlive : ∀ j, Live t j → t.dummy = false := by
    intro j hj
    by_contra htrue
    have hempty := (hsound.dummy (Bool.eq_true_of_not_eq_false htrue)).2 j
    exact hj.2 (hempty ▸ rfl)
  have hsize : ∀ j, Live t j → (if t.dummy = true then 0 else t.sizenode) = t.sizenode := by
    intro j hj
    rw [hlive j hj, if_neg Bool.false_ne_true]
  rw [Tables.luaHResizearray]
  refine hsound.resize mem hmax (fun s hs ↦ ?_) (fun _ j _ hj _ _ _ ↦ (hsize j hj).le)
    (fun hless ↦ absurd hless (by omega)) fun i _ hni hi ↦ absurd hi (by omega)
  rcases s.eq_empty_or_nonempty with rfl | ⟨j, hj⟩
  · exact Nat.zero_le _
  · have hsubset : s ⊆ liveNodes t := fun i hi ↦ mem_liveNodes.2 (hs i hi).1
    have hcard := Finset.card_le_card hsubset
    rw [card_liveNodes] at hcard
    rw [hsize j (hs j hj).1]
    exact hcard.trans ((liveCount_le t).trans (ceillog2_le_iff.1 (Nat.le_refl _)))

/-- `rehash` keeps what the table holds, if the keys that are inserted again need no other array. -/
theorem Sound.rehash (hsound : Sound t) (mem : Memory) {ek : Key N} (hget : luaHGet t ek = none)
    (hinsert : ∀ (t' : Table N V) k, Sound t' → luaHGet t' k = none →
      (rehashSizes t' k).1 = t'.sizearray → Inserts t' k (insert t' k)) :
    Keeps t (rehashSizes t ek).1 (rehash insert mem t ek) := by
  have hoptimal := (hsound.rehashSizes_eq hget).1
  have hmaxsize := hoptimal.le
  have hmaxint := maxAsize_le
  have hold := hsound.sizearray
  have hout := (luaHGet_eq_none hget).1
  rw [Tables.rehash]
  refine hsound.resize mem (hmaxsize.trans hmaxint) (fun s hs ↦ ?_)
    (fun hgrows j k hlive hkey hlow hhigh ↦ hsound.rehashSizes_le hget hgrows hlive hkey hlow hhigh)
    (fun hless hsize ↦ ?_) fun i t' hni hi hsound' hn hholds hheld hget' ↦ ?_
  · refine (hsound.card_staying_le hget fun j hj ↦ ?_).trans (ceillog2_le_iff.1 (Nat.le_refl _))
    refine ⟨(hs j hj).1, fun k hkey hrange ↦ (hs j hj).2 k hkey ⟨hrange.1, ?_⟩⟩
    omega
  · rw [hsound.rehashSizes_of_le hget hless.le hsize]
    exact Nat.lt_succ_self _
  · refine hinsert t' _ hsound' hget' ?_
    have hindex : arrayindex (intKey (i + 1) : Key N) = (i + 1 : ℕ) := arrayindex_intKey (by omega)
    rw [hn]
    refine (hsound'.rehashSizes_eq hget').1.unique
      (hoptimal.subset (fun a ha ↦ ?_) fun a ha hle ↦ ?_)
    · obtain ⟨hone, hmaxa, ⟨v, hv⟩ | hlast⟩ := mem_countedKeys.1 ha
      · exact mem_countedKeys.2 ⟨hone, hmaxa, .inl ⟨v, ((hholds _ v).1 hv).1⟩⟩
      · rw [hindex] at hlast
        obtain rfl : i + 1 = a := by omega
        exact mem_countedKeys.2 ⟨hone, hmaxa, .inl hheld⟩
    · obtain ⟨hone, hmaxa, ⟨v, hv⟩ | hextra⟩ := mem_countedKeys.1 ha
      · refine mem_countedKeys.2 ⟨hone, hmaxa, .inl ⟨v, (hholds _ v).2 ⟨hv, ?_⟩⟩⟩
        rw [arrayindex_intKey (by omega)]
        omega
      · exact absurd ⟨by omega, by omega⟩ hout

end Resize

/-! ### Inserting a key -/

section Newkey

variable {k : Key N}

/-- After a rehash that leaves the array as it is, a node is free. -/
theorem Chains.not_crowded {after : Table N V} (hchains : Chains after) (hsound : Sound after)
    (hroom : liveCount after < after.sizenode) : ¬ Crowded after k := by
  intro hcrowded
  have hall : Finset.range after.sizenode ⊆ liveNodes after := by
    intro i hi
    have hlt := Finset.mem_range.1 hi
    refine mem_liveNodes.2 ⟨hlt, fun hval ↦ ?_⟩
    exact hsound.key_ne_nil hcrowded hchains.dummy hlt (hchains.mixed.free i hlt hval).1
  have hcard := Finset.card_le_card hall
  rw [Finset.card_range, card_liveNodes] at hcard
  omega

/-- What is not found is not held, also after a rehash. -/
theorem Sound.not_holds {after : Table N V} (hsound : Sound t)
    (hholds : ∀ k v, after.Holds k v ↔ t.Holds k v) (hget : luaHGet t k = none) (v : V) :
    ¬ after.Holds k v := by
  rw [hholds, ← hsound.get_eq_some_iff, Table.get, hget]
  exact fun hnone ↦ by cases hnone

/-- Two tables that hold the same have the same best size of the array. -/
theorem Consistent.rehashSizes_congr {after : Table N V} (hconsistent : Consistent t)
    (hafter : Consistent after) (hholds : ∀ k v, after.Holds k v ↔ t.Holds k v)
    (hget : luaHGet t k = none) (hget' : luaHGet after k = none) :
    (rehashSizes after k).1 = (rehashSizes t k).1 := by
  have hkeys : countedKeys after k = countedKeys t k := by
    refine Finset.ext fun a ↦ ?_
    rw [mem_countedKeys, mem_countedKeys]
    exact and_congr_right fun _ ↦ and_congr_right fun _ ↦
      or_congr_left (exists_congr fun v ↦ hholds _ v)
  have hoptimal := (hafter.rehashSizes_eq hget').1
  rw [hkeys] at hoptimal
  exact hoptimal.unique (hconsistent.rehashSizes_eq hget).1

/-- When the array has its best size, `newkey` needs at most one rehash, of the nodes only. -/
theorem Sound.newkey_of_same (hsound : Sound t) (hget : luaHGet t k = none)
    (hsame : (rehashSizes t k).1 = t.sizearray) (mem : Memory) (depth : ℕ) :
    Inserts t k (newkey mem (depth + 2) t k) := by
  by_cases hcrowded : Crowded t k
  swap
  · obtain ⟨after, slot, hafter, hadded⟩ :=
      hsound.newkey_of_not_crowded hget hcrowded mem (depth + 1)
    exact .inl ⟨after, slot, hafter, hadded.inserted, hadded.sameArray, fun _ ↦ hadded.filled⟩
  obtain ⟨hposition, hsound₀⟩ := hsound.getfreepos_of_crowded hcrowded
  have hget₀ : luaHGet (t.setLast 0) k = none := hget
  have hsame₀ : (rehashSizes (t.setLast 0) k).1 = (t.setLast 0).sizearray :=
    (hsound.rehashSizes_congr hsound₀.toConsistent (fun _ _ ↦ .rfl) hget hget₀).trans hsame
  have hnodes := hsound₀.rehashSizes_same hget₀ hsame₀
  have hpart := hsound₀.resizeHashpart mem (Nat.le_refl _) hsound₀.sizearray
    (fun s hs ↦ (hsound₀.card_staying_le hget₀ fun j hj ↦
      ⟨(hs j hj).1, hsame₀.symm ▸ (hs j hj).2⟩).trans (ceillog2_le_iff.1 (Nat.le_refl _)))
    fun hless ↦ absurd hless (Nat.lt_irrefl _)
  rw [atLeast_self] at hpart
  rw [newkey, if_pos hcrowded.1, hposition]
  dsimp only
  rw [Tables.rehash, Tables.resize, hsame₀, if_neg (Nat.lt_irrefl _)]
  dsimp only [Outcome.andThen]
  rcases hpart with ⟨after, hafter, hchains, hsound', harray, hlog, hsize, hholds⟩ | ⟨hthrows, -⟩
  · rw [hafter]
    dsimp only
    rw [if_neg (Nat.lt_irrefl _)]
    dsimp only
    have hroom : liveCount after < after.sizenode := by
      have hle := hsound'.liveCount_le_of_holds hsize hholds
      have hceil : (rehashSizes (t.setLast 0) k).2 ≤ 2 ^ after.lsizenode :=
        ceillog2_le_iff.1 hlog.ge
      rw [Table.sizenode]
      omega
    have hget' : luaHGet after k = none := by
      have hout : ¬ InArray after k := by
        rw [InArray, hsize]
        exact (luaHGet_eq_none hget).1
      rw [luaHGet_of_not_inArray hout]
      refine hsound'.findNode_eq_none fun i hi hkey ↦ ?_
      rcases hval : (after.node i).val with - | v
      · rw [(hchains.mixed.free i hi hval).1] at hkey
        cases hkey
      · exact hsound₀.not_holds hholds hget₀ v (.inr ⟨i, hi, hkey, hval⟩)
    obtain ⟨last, slot, hlast, hadded⟩ := hsound'.newkey_of_not_crowded hget'
      (hchains.not_crowded hsound' hroom) mem depth
    have hinserted := hadded.inserted
    refine .inl ⟨last, slot, ?_, ⟨hinserted.sound, fun k' v ↦ (hinserted.holds k' v).trans
      (hholds k' v), hinserted.get⟩, ?_⟩
    · rw [luaHSet, hget']
      exact hlast
    · exact ⟨SameArray.trans ⟨harray.sizearray, harray.beyond, harray.length⟩ hadded.sameArray,
        fun hfree ↦ absurd hcrowded hfree⟩
  · rw [hthrows]
    exact .inr ⟨t.setLast 0, rfl, hsound₀, hcrowded⟩

/-- What inserting a key that is not in the table comes to, when the array may get another size. -/
def InsertsAnywhere (t : Table N V) (k : Key N) (outcome : Outcome (Table N V) Slot) : Prop :=
  (∃ after slot, outcome = .returns after slot ∧ Inserted t k after slot) ∨
  ∃ after, outcome = .throws after ∧ Sound after

theorem Inserts.anywhere {outcome : Outcome (Table N V) Slot} (hinserts : Inserts t k outcome) :
    InsertsAnywhere t k outcome := by
  rcases hinserts with ⟨after, slot, houtcome, hinserted, -⟩ | ⟨after, houtcome, hsound, -⟩
  · exact .inl ⟨after, slot, houtcome, hinserted⟩
  · exact .inr ⟨after, houtcome, hsound⟩

/-- The rehash that `newkey` does. -/
theorem Sound.rehash_newkey (hsound : Sound t) (hget : luaHGet t k = none) (mem : Memory)
    (depth : ℕ) :
    Keeps t (rehashSizes t k).1 (Tables.rehash (Tables.newkey mem (depth + 2)) mem t k) :=
  hsound.rehash mem hget fun _ _ hsound' hget' hsame ↦ hsound'.newkey_of_same hget' hsame mem depth

/-- A key that is not in the table is inserted, or memory runs out. -/
theorem Sound.newkey (hsound : Sound t) (hget : luaHGet t k = none) (mem : Memory) (depth : ℕ) :
    InsertsAnywhere t k (Tables.newkey mem (depth + 3) t k) := by
  by_cases hcrowded : Crowded t k
  swap
  · obtain ⟨after, slot, hafter, hadded⟩ :=
      hsound.newkey_of_not_crowded hget hcrowded mem (depth + 2)
    exact .inl ⟨after, slot, hafter, hadded.inserted⟩
  obtain ⟨hposition, hsound₀⟩ := hsound.getfreepos_of_crowded hcrowded
  have hget₀ : luaHGet (t.setLast 0) k = none := hget
  rw [Tables.newkey, if_pos hcrowded.1, hposition]
  dsimp only
  rcases hsound₀.rehash_newkey hget₀ mem depth with
    ⟨after, hafter, hsound', hholds, hsize⟩ | ⟨after, hthrows, hsound', -⟩
  · rw [hafter]
    dsimp only [Outcome.andThen]
    rw [luaHSet]
    rcases hget' : luaHGet after k with - | slot
    · have hsame : (rehashSizes after k).1 = after.sizearray := by
        rw [hsize]
        exact hsound₀.rehashSizes_congr hsound'.toConsistent hholds hget₀ hget'
      rcases (hsound'.newkey_of_same hget' hsame mem depth).anywhere with
        ⟨last, slot, hlast, hinserted⟩ | ⟨last, hthrows, hlastsound⟩
      · exact .inl ⟨last, slot, hlast, hinserted.sound,
          fun k' v ↦ (hinserted.holds k' v).trans (hholds k' v), hinserted.get⟩
      · exact .inr ⟨last, hthrows, hlastsound⟩
    · exact .inl ⟨after, slot, rfl, hsound', hholds, hget'⟩
  · rw [hthrows]
    exact .inr ⟨after, rfl, hsound'⟩

end Newkey

end Elua.Lua.Tables
