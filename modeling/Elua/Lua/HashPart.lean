import Elua.Lua.Compaction

/-!
# Rehashing the nodes

With what `Compacting` and `Mixed` say of its loops, `Resizable.resizeHashpart` is what a call of
`resize_hashpart` does: it keeps the values, and afterwards every node is on the chain that starts
at its main position (`Chains`). It throws only if the vector has to grow, before it has changed
anything.
-/

set_option autoImplicit false
set_option relaxedAutoImplicit false

namespace Elua.Lua.Tables

open Foundation Links

variable {N : KeyNumbers} {V : Type*} {t : Table N V}

/-! ### The vector afterwards -/

/-- The vector can be rehashed: its first `oldh` nodes are loose, and the others are empty. -/
structure Ready (oldh nh : ℕ) (t : Table N V) : Prop where
  loose : Loose nh (· < oldh) t
  unlinked : ∀ j, oldh ≤ j → (t.node j).next = none
  empty : ∀ j, oldh ≤ j → j < nh → t.node j = emptyNode
  lastfree : t.lastfree = nh
  length : t.sizearray ≤ t.array.length
  dummy : t.dummy = false
  sizenode : t.sizenode = nh

/-- A table whose nodes have been moved to their chains. -/
structure Chains (t : Table N V) : Prop where
  mixed : Mixed t
  settled : ∀ i, Live t i → Settled t i
  outside : ∀ i k, Live t i → (t.node i).key = .key k → ¬ InArray t k
  lastfree : t.lastfree = t.sizenode
  dummy : t.dummy = false

/-- What is the same in the array after a rehash. -/
structure SameArray (t₀ t : Table N V) : Prop where
  sizearray : t.sizearray = t₀.sizearray
  beyond : ∀ j, t₀.sizearray ≤ j → t.array[j]? = t₀.array[j]?
  length : t.array.length = t₀.array.length

section Rehash

variable {oldh nh lsize : ℕ} {t₀ : Table N V}

theorem Ready.compacting (hready : Ready oldh nh t₀) : Compacting oldh nh 0 t₀ t₀ := by
  have hkept : ∀ j, Kept oldh nh 0 j ↔ j < oldh :=
    fun j ↦ and_iff_left (.inl (Nat.zero_le j))
  have hamong : Kept oldh nh 0 = (· < oldh) := funext fun j ↦ propext (hkept j)
  constructor
  · rw [hamong]
    exact hready.loose
  · intro k v
    rw [hamong]
  · rintro j (hj | hj)
    · exact absurd hj (Nat.not_lt_zero j)
    · exact hready.unlinked j hj
  · exact fun j hj ↦ absurd hj (Nat.not_lt_zero j)
  · exact fun j hj ↦ absurd hj (Nat.not_lt_zero j)
  · exact fun j hj ↦ absurd hj (Nat.not_lt_zero j)
  · exact hready.lastfree.le
  · exact fun _ ↦ hready.lastfree
  · exact fun _ _ ↦ rfl
  · exact fun _ _ ↦ rfl
  · rfl
  · rfl

theorem nodeHolds_of_same {t' : Table N V} (hnode : t'.node = t.node) (hsize : t'.sizenode = nh)
    {k : Key N} {v : V} : NodeHolds t' k v ↔ NodesHold (· < nh) t k v := by
  rw [NodeHolds, hnode, hsize]
  rfl

/-- When the loop is over, no node has a link. -/
theorem Compacting.mixed (hafter : Compacting oldh nh oldh t₀ t) (hready : Ready oldh nh t₀)
    {t' : Table N V} (hnode : t'.node = t.node) (hsize : t'.sizenode = nh) :
    Mixed t' ∧ (∀ k v, NodeHolds t' k v ↔ NodesHold (Kept oldh nh oldh) t k v) ∧
      ∀ i, Live t' i → Used (Kept oldh nh oldh) t i := by
  have hnone : ∀ j, t'.next j = none := by
    intro j
    rw [Table.next, hnode]
    exact hafter.unlinked j (Nat.lt_or_ge j oldh)
  have hempty : ∀ j, oldh ≤ j → j < nh → t.node j = emptyNode := by
    intro j hj hjnh
    rw [hafter.fresh j hj]
    exact hready.empty j hj hjnh
  have hused : ∀ i, Live t' i → Used (Kept oldh nh oldh) t i := by
    rintro i ⟨hi, hval⟩
    rw [hnode] at hval
    rw [hsize] at hi
    rcases Nat.lt_or_ge i oldh with hless | hge
    · exact ⟨⟨hless, .inr hi⟩, hval⟩
    · rw [hempty i hge hi] at hval
      exact absurd rfl hval
  have hisolated : ∀ j, Isolated t'.next j :=
    fun j ↦ ⟨hnone j, fun b hb ↦ by rw [hnone b] at hb; cases hb⟩
  refine ⟨?_, fun k v ↦ ?_, hused⟩
  · constructor
    · refine ⟨fun {a b c} ha _ ↦ ?_, fun _ ↦ 0, fun a b hnext ↦ ?_⟩
      · rw [hnone a] at ha
        cases ha
      · rw [hnone a] at hnext
        cases hnext
    · intro a b hnext
      rw [hnone a] at hnext
      cases hnext
    · intro i hi hval
      rw [hnode] at hval ⊢
      rw [hsize] at hi
      refine ⟨?_, hisolated i⟩
      rcases Nat.lt_or_ge i oldh with hless | hge
      · exact hafter.cleared i hless hi hval
      · rw [hempty i hge hi]
        rfl
    · intro i hlive
      obtain ⟨k, hkey⟩ := hafter.loose.keyed i (hused i hlive)
      exact ⟨_, mainOf_eq_some_iff.2 ⟨k, hnode ▸ hkey, rfl⟩⟩
    · intro a b hnext
      rw [hnone a] at hnext
      cases hnext
    · intro i j hi hj hkey
      rw [hnode] at hkey
      exact hafter.loose.distinct i j (hused i hi) (hused j hj) hkey
  · rw [nodeHolds_of_same hnode hsize]
    refine exists_congr fun j ↦ ?_
    constructor
    · rintro ⟨hj, hkey, hval⟩
      rcases Nat.lt_or_ge j oldh with hless | hge
      · exact ⟨⟨hless, .inr hj⟩, hkey, hval⟩
      · rw [hempty j hge hj] at hval
        cases hval
    · rintro ⟨hj, hkey, hval⟩
      have hjold := hj.1
      exact ⟨hj.2.resolve_left (Nat.not_le_of_lt hjold), hkey, hval⟩

theorem ceillog2_two_pow (l : ℕ) : ceillog2 (2 ^ l) = l := by
  rw [ceillog2]
  rcases Nat.eq_zero_or_pos l with rfl | hl
  · rfl
  · have hone : 1 < 2 ^ l := Nat.one_lt_two_pow (Nat.ne_of_gt hl)
    have hsplit : 2 ^ l = 2 * 2 ^ (l - 1) := by
      rw [← pow_succ', Nat.sub_add_cancel hl]
    rw [if_neg (Nat.not_le_of_lt hone)]
    have hlog : Nat.log2 (2 ^ l - 1) = l - 1 := by
      rw [Nat.log2_eq_iff (by omega), Nat.sub_add_cancel hl]
      omega
    omega

/-- The last loop runs, on the vector with its new size. -/
theorem Compacting.chains (hafter : Compacting oldh nh oldh t₀ t) (hready : Ready oldh nh t₀)
    (t' : Table N V) (ht' : t' = { t with lsizenode := t'.lsizenode, lastfree := nh })
    (hsize : t'.sizenode = nh) :
    ∃ last, (List.range nh).foldlM chainNode t' = some last ∧ Chains last ∧ SameArray t₀ last ∧
      last.lsizenode = t'.lsizenode ∧
      ∀ k v, last.Holds k v ↔ ArrayHolds t₀ k v ∨ NodesHold (· < oldh) t₀ k v := by
  have hnode : t'.node = t.node := by rw [ht']
  have harray : t'.array = t.array := by rw [ht']
  have hsizearray : t'.sizearray = t.sizearray := by rw [ht']
  have hdummy : t'.dummy = false := by
    rw [ht', hafter.rest]
    exact hready.dummy
  obtain ⟨hmixed, hnodes, hused⟩ := hafter.mixed hready hnode hsize
  obtain ⟨last, hlast, hmixed', hholds, hsettled, hrest⟩ :=
    hmixed.chainNodes hdummy (Nat.le_of_eq hsize.symm)
  have hlastnode : last.sizenode = nh := by
    rw [hrest]
    exact hsize
  have hlastarray : last.array = t.array := by
    rw [hrest]
    exact harray
  have hlastsize : last.sizearray = t.sizearray := by
    rw [hrest]
    exact hsizearray
  refine ⟨last, hlast, ⟨hmixed', ?_, ?_, ?_, ?_⟩, ⟨?_, ?_, ?_⟩, ?_, fun k v ↦ ?_⟩
  · exact fun i hlive ↦ hsettled i (hlastnode ▸ hlive.1) hlive
  · rintro i k hlive hkey ⟨hlow, hhigh⟩
    obtain ⟨v, hval⟩ := Option.ne_none_iff_exists'.1 hlive.2
    obtain ⟨j, hj, hkeyj, hvalj⟩ := (hholds k v).1 ⟨i, hlive.1, hkey, hval⟩
    have husedj := hused j ⟨hj, fun hnone ↦ by rw [hnone] at hvalj; cases hvalj⟩
    rw [hnode] at hkeyj
    exact hafter.outside j husedj.1.1 k husedj hkeyj ⟨hlow, hlastsize ▸ hhigh⟩
  · rw [hlastnode, hrest, ht']
  · rw [hrest]
    exact hdummy
  · exact hlastsize.trans hafter.sizearray
  · rw [hlastarray]
    exact hafter.beyond
  · rw [hlastarray]
    exact hafter.length
  · rw [hrest]
  · rw [← hafter.holds]
    exact or_congr (arrayHolds_congr hlastarray hlastsize) ((hholds k v).trans (hnodes k v))

/-- The last part of `resize_hashpart`. No search for a free node is in vain, and no loop runs on. -/
theorem Ready.rehashNodes (mem : Memory) (hready : Ready oldh (2 ^ lsize) t₀)
    (hlsize : lsize ≤ maxBits) (hlsizenode : t₀.lsizenode = lsize) :
    ∃ last, rehashNodes mem oldh (2 ^ lsize) t₀ = .returns last () ∧ Chains last ∧
      SameArray t₀ last ∧ last.lsizenode = lsize ∧
      ∀ k v, last.Holds k v ↔ ArrayHolds t₀ k v ∨ NodesHold (· < oldh) t₀ k v := by
  obtain ⟨after, hloop, hafter⟩ :=
    hready.compacting.loop hready.length (Nat.le_refl oldh)
  have hpos : 2 ^ lsize ≠ 0 := Nat.ne_of_gt (Nat.two_pow_pos lsize)
  have hdummy : after.dummy = false := by
    rw [hafter.rest]
    exact hready.dummy
  have hafterlog : after.lsizenode = lsize := by
    rw [hafter.rest]
    exact hlsizenode
  rw [Tables.rehashNodes, hloop]
  dsimp only
  by_cases hshrink : 2 ^ lsize < oldh
  · have hnode : (fun i ↦ if oldh ≤ i ∧ i < 2 ^ lsize then emptyNode else after.node i) =
        after.node := funext fun i ↦ if_neg (by omega)
    obtain ⟨last, hlast, hrest⟩ := hafter.chains hready
      { after with lsizenode := lsize, lastfree := 2 ^ lsize } rfl rfl
    refine ⟨last, ?_, hrest⟩
    rw [if_pos hshrink, resizenodevector, if_neg hpos, ceillog2_two_pow,
      if_neg (Nat.not_lt_of_le hlsize), hdummy]
    dsimp only
    rw [if_neg Bool.false_ne_true, if_pos (.inl (Nat.le_of_lt hshrink)), hnode, ceillog2_two_pow]
    have hlast' : (List.range (2 ^ lsize)).foldlM chainNode
        { after with lsizenode := lsize, dummy := false, lastfree := 2 ^ lsize } = some last := by
      rw [← hdummy]
      exact hlast
    dsimp only [Outcome.andThen]
    rw [hlast']
  · obtain ⟨last, hlast, hchains, hsame, hlog, hholds⟩ := hafter.chains hready after
      (by rw [← hafter.lastfree (Nat.le_of_not_lt hshrink)]) (by rw [Table.sizenode, hafterlog])
    refine ⟨last, ?_, hchains, hsame, hlog.trans hafterlog, hholds⟩
    rw [if_neg hshrink]
    dsimp only [Outcome.andThen]
    rw [hlast]

/-- The number of nodes that are not those of `dummynode`. -/
def Table.oldhsize (t : Table N V) : ℕ := if t.dummy then 0 else t.sizenode

/-- The nodes can be moved to a vector of `nh` nodes. -/
structure Resizable (nh : ℕ) (t : Table N V) : Prop where
  loose : Loose nh (· < t.sizenode) t
  unlinked : ∀ j, t.sizenode ≤ j → (t.node j).next = none
  dummy : t.dummy = true → ∀ j, t.node j = emptyNode
  length : t.sizearray ≤ t.array.length

theorem Resizable.lt_oldhsize (hresizable : Resizable nh t) {j : ℕ} (hj : j < t.sizenode)
    (hval : (t.node j).val ≠ none) : j < t.oldhsize := by
  rw [Table.oldhsize]
  split_ifs with hdummy
  · rw [hresizable.dummy hdummy j] at hval
    exact absurd rfl hval
  · exact hj

theorem oldhsize_le (t : Table N V) : t.oldhsize ≤ t.sizenode := by
  rw [Table.oldhsize]
  split_ifs
  · exact Nat.zero_le _
  · exact Nat.le_refl _

theorem Resizable.unlinked_of_le (hresizable : Resizable nh t) {j : ℕ} (hj : t.oldhsize ≤ j) :
    (t.node j).next = none := by
  rw [Table.oldhsize] at hj
  split_ifs at hj with hdummy
  · rw [hresizable.dummy hdummy j]
    rfl
  · exact hresizable.unlinked j hj

/-- The vector with its new size, if the nodes before are the old ones. -/
theorem Resizable.ready (hresizable : Resizable nh t) (t' : Table N V)
    (hold : ∀ j < t.oldhsize, t'.node j = t.node j)
    (hnew : ∀ j, t.oldhsize ≤ j → t'.node j = emptyNode ∨ nh ≤ j ∧ t'.node j = t.node j)
    (harray : t'.array = t.array) (hsizearray : t'.sizearray = t.sizearray)
    (hlastfree : t'.lastfree = nh) (hdummy : t'.dummy = false) (hsize : t'.sizenode = nh) :
    Ready t.oldhsize nh t' ∧ ∀ k v, ArrayHolds t' k v ∨ NodesHold (· < t.oldhsize) t' k v ↔
      t.Holds k v := by
  have hused : ∀ j, Used (· < t.oldhsize) t' j → Used (· < t.sizenode) t j := by
    rintro j ⟨hj, hval⟩
    rw [hold j hj] at hval
    exact ⟨Nat.lt_of_lt_of_le hj (oldhsize_le t), hval⟩
  have hplace : Relocated id (· < t.sizenode) t (· < t.oldhsize) t' := by
    refine ⟨hused, fun j hj ↦ ?_, fun j hj ↦ ?_, fun _ _ _ _ heq ↦ heq⟩
    · rw [hold j hj.1]
      rfl
    · rw [hold j hj.1]
      rfl
  constructor
  · constructor
    · exact hresizable.loose.relocate hplace hsizearray
        (hplace.apart hresizable.loose harray hsizearray)
    · intro j hj
      rcases hnew j hj with hempty | ⟨-, hsame⟩
      · rw [hempty]
        rfl
      · rw [hsame]
        exact hresizable.unlinked_of_le hj
    · intro j hj hjnh
      exact (hnew j hj).resolve_right fun hge ↦ Nat.not_lt_of_le hge.1 hjnh
    · exact hlastfree
    · rw [hsizearray, harray]
      exact hresizable.length
    · exact hdummy
    · exact hsize
  · refine fun k v ↦ or_congr (arrayHolds_congr harray hsizearray) (hplace.nodesHold fun j hj ↦ ?_)
    have hlt := hresizable.lt_oldhsize hj.1 hj.2
    refine ⟨j, ⟨hlt, ?_⟩, rfl⟩
    rw [hold j hlt]
    exact hj.2

/-- `resize_hashpart` keeps all values. It throws only if the vector has to grow. -/
theorem Resizable.resizeHashpart (mem : Memory) {nhsize : ℕ}
    (hresizable : Resizable (2 ^ ceillog2 nhsize) t) :
    (∃ last, resizeHashpart mem t nhsize = .returns last () ∧ Chains last ∧ SameArray t last ∧
      last.lsizenode = ceillog2 nhsize ∧ ceillog2 nhsize ≤ maxBits ∧
      ∀ k v, last.Holds k v ↔ t.Holds k v) ∨
    resizeHashpart mem t nhsize = .throws t ∧
      (maxBits < ceillog2 nhsize ∨ t.oldhsize < 2 ^ ceillog2 nhsize) := by
  have hpos : 2 ^ ceillog2 nhsize ≠ 0 := Nat.ne_of_gt (Nat.two_pow_pos _)
  have hold : (if t.dummy = true then 0 else t.sizenode) = t.oldhsize := rfl
  rw [Tables.resizeHashpart, hold]
  by_cases hbits : maxBits < ceillog2 nhsize
  · rw [if_pos hbits]
    exact .inr ⟨rfl, .inl hbits⟩
  rw [if_neg hbits]
  by_cases hgrow : t.oldhsize < 2 ^ ceillog2 nhsize
  · rw [if_pos hgrow, resizenodevector, if_neg hpos, ceillog2_two_pow, if_neg hbits]
    have hold' : (if t.dummy = true then 0 else t.oldhsize) = t.oldhsize := by
      rw [Table.oldhsize]
      split_ifs
      · rfl
      · rfl
    dsimp only
    rw [hold', ceillog2_two_pow]
    by_cases hmem : mem.nodes t.oldhsize (2 ^ ceillog2 nhsize) = true
    · obtain ⟨hready, hholds⟩ := hresizable.ready { t with
          node := fun i ↦ if t.oldhsize ≤ i ∧ i < 2 ^ ceillog2 nhsize then emptyNode else t.node i
          lsizenode := ceillog2 nhsize
          dummy := false
          lastfree := 2 ^ ceillog2 nhsize }
        (fun j hj ↦ if_neg fun hge ↦ Nat.not_lt_of_le hge.1 hj)
        (fun j hj ↦ by
          by_cases hjnh : j < 2 ^ ceillog2 nhsize
          · exact .inl (if_pos ⟨hj, hjnh⟩)
          · exact .inr ⟨Nat.le_of_not_lt hjnh, if_neg fun hlt ↦ hjnh hlt.2⟩) rfl rfl rfl rfl rfl
      obtain ⟨last, hlast, hchains, hsame, hlog, hholds'⟩ :=
        hready.rehashNodes mem (Nat.le_of_not_lt hbits) rfl
      rw [if_pos (.inr hmem)]
      exact .inl ⟨last, hlast, hchains, ⟨hsame.1, hsame.2, hsame.3⟩, hlog,
        Nat.le_of_not_lt hbits, fun k v ↦ (hholds' k v).trans (hholds k v)⟩
    · have hfails : ¬ (2 ^ ceillog2 nhsize ≤ t.oldhsize ∨
          mem.nodes t.oldhsize (2 ^ ceillog2 nhsize) = true) :=
        fun hor ↦ hor.elim (Nat.not_le_of_lt hgrow) hmem
      rw [if_neg hfails]
      exact .inr ⟨rfl, .inr hgrow⟩
  · have hdummy : t.dummy = false := by
      have hpos' : 0 < 2 ^ ceillog2 nhsize := Nat.two_pow_pos _
      by_contra htrue
      rw [Table.oldhsize, if_pos (Bool.eq_true_of_not_eq_false htrue)] at hgrow
      exact hgrow hpos'
    obtain ⟨hready, hholds⟩ := hresizable.ready { t with
        lsizenode := ceillog2 nhsize
        lastfree := 2 ^ ceillog2 nhsize } (fun _ _ ↦ rfl)
      (fun j hj ↦ .inr ⟨Nat.le_trans (Nat.le_of_not_lt hgrow) hj, rfl⟩) rfl rfl rfl hdummy rfl
    obtain ⟨last, hlast, hchains, hsame, hlog, hholds'⟩ :=
      hready.rehashNodes mem (Nat.le_of_not_lt hbits) rfl
    rw [if_neg hgrow]
    exact .inl ⟨last, hlast, hchains, ⟨hsame.1, hsame.2, hsame.3⟩, hlog,
        Nat.le_of_not_lt hbits, fun k v ↦ (hholds' k v).trans (hholds k v)⟩

end Rehash

end Elua.Lua.Tables
