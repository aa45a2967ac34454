import Elua.Lua.HashPart

/-!
# The invariant of tables

`Consistent` says that every node with a key is on the chain that starts at its main position, and
that a node is in its own main position if another one has the same, unless its key is dead. So a
search finds a key that is in the table (`Consistent.get_eq_some_iff`). `Sound` adds that there is
no free node behind `lastfree`. A key is put into its main position (`Consistent.setKey`), after the
node there has been moved away if it is not in its own one (`Consistent.exchange`), or behind the
node in its main position (`Consistent.linkKey`).
-/

set_option autoImplicit false
set_option relaxedAutoImplicit false

namespace Elua.Lua.Tables

open Foundation Links

variable {N : KeyNumbers} {V : Type*} {t : Table N V}

/-- Every key is where it is looked for. -/
structure Consistent (t : Table N V) : Prop where
  chained : Chained t.next
  bounded : Bounded t
  free : ∀ i < t.sizenode, (t.node i).key = .nil → (t.node i).val = none ∧ Isolated t.next i
  keyed : ∀ i, Live t i → ∃ k, (t.node i).key = .key k
  reached : ∀ i < t.sizenode, ∀ m, t.mainOf i = some m → Reaches t.next m i
  own : ∀ i < t.sizenode, ∀ m, t.mainOf i = some m →
    t.mainOf m = some m ∨ (t.node m).key = .dead
  distinct : ∀ i < t.sizenode, ∀ j < t.sizenode, ∀ k, (t.node i).key = .key k →
    (t.node j).key = .key k → i = j
  apart : ∀ i k, Live t i → (t.node i).key = .key k → ¬ InArray t k
  length : t.sizearray ≤ t.array.length
  sizearray : t.sizearray ≤ intMax
  lsizenode : t.lsizenode ≤ maxBits
  dummy : t.dummy = true → t.lastfree = 0 ∧ ∀ i, t.node i = emptyNode

/-- What holds of every table, between calls. -/
structure Sound (t : Table N V) : Prop extends Consistent t where
  lastfree : t.lastfree ≤ t.sizenode
  full : t.dummy = false → ∀ i < t.sizenode, t.lastfree ≤ i → (t.node i).key ≠ .nil

theorem mainOf_of_key {i : ℕ} {k : Key N} (hkey : (t.node i).key = .key k) :
    t.mainOf i = some (mainposition t.sizenode k) :=
  mainOf_eq_some_iff.2 ⟨k, hkey, rfl⟩

theorem mainOf_ne_some {i m : ℕ} (hkey : ∀ k, (t.node i).key ≠ .key k) : t.mainOf i ≠ some m := by
  intro hmain
  obtain ⟨k, hk, -⟩ := mainOf_eq_some_iff.1 hmain
  exact hkey k hk

theorem Live.ne_none {i : ℕ} (hi : i < t.sizenode) {v : V} (hval : (t.node i).val = some v) :
    Live t i :=
  ⟨hi, fun hnone ↦ by rw [hnone] at hval; cases hval⟩

/-- Nodes that have been moved to their chains are consistent. -/
theorem Chains.sound (hchains : Chains t) (hlength : t.sizearray ≤ t.array.length)
    (hsizearray : t.sizearray ≤ intMax) (hbits : t.lsizenode ≤ maxBits) : Sound t := by
  have hmixed := hchains.mixed
  have hlive : ∀ i < t.sizenode, (t.node i).key ≠ .nil → Live t i :=
    fun i hi hkey ↦ ⟨hi, fun hval ↦ hkey (hmixed.free i hi hval).1⟩
  have hkeyed : ∀ i, Live t i → ∃ k, (t.node i).key = .key k := by
    intro i hi
    obtain ⟨m, hmain⟩ := hmixed.keyed i hi
    obtain ⟨k, hkey, -⟩ := mainOf_eq_some_iff.1 hmain
    exact ⟨k, hkey⟩
  have hreached : ∀ i < t.sizenode, ∀ m, t.mainOf i = some m → Reaches t.next m i := by
    intro i hi m hmain
    obtain ⟨k, hkey, -⟩ := mainOf_eq_some_iff.1 hmain
    obtain ⟨m', hmain', hreach⟩ := hchains.settled i (hlive i hi fun hnil ↦ by
      rw [hnil] at hkey
      cases hkey)
    obtain rfl := Option.some.inj (hmain'.symm.trans hmain)
    exact hreach
  refine ⟨⟨hmixed.chained, hmixed.bounded, ?_, hkeyed, hreached, ?_, ?_, hchains.outside, hlength,
    hsizearray, hbits, ?_⟩, hchains.lastfree.le, ?_⟩
  · intro i hi hnil
    have hval : (t.node i).val = none := by
      by_contra hval
      obtain ⟨k, hkey⟩ := hkeyed i ⟨hi, hval⟩
      rw [hnil] at hkey
      cases hkey
    exact ⟨hval, (hmixed.free i hi hval).2⟩
  · intro i hi m hmain
    exact .inl ((hmixed.mainOf_eq (hreached i hi m hmain)).symm.trans hmain)
  · intro i hi j hj k hkey hkey'
    refine hmixed.distinct i j (hlive i hi fun hnil ↦ ?_) (hlive j hj fun hnil ↦ ?_)
      (hkey.trans hkey'.symm)
    · rw [hnil] at hkey
      cases hkey
    · rw [hnil] at hkey'
      cases hkey'
  · intro hdummy
    rw [hchains.dummy] at hdummy
    cases hdummy
  · intro _ i hi hlast
    rw [hchains.lastfree] at hlast
    exact absurd hi (Nat.not_lt_of_le hlast)

/-! ### Searching -/

theorem luaHGet_of_inArray {k : Key N} (hin : InArray t k) :
    luaHGet t k = some (.array (arrayindex k - 1).toNat) := by
  have hk := eq_of_arrayindex hin.1
  rcases k with n | str | b | ⟨tt, address⟩
  · have hindex := hin
    rw [InArray, arrayindex] at hindex
    rw [luaHGet, arrayindex]
    split_ifs at hindex ⊢ with hint
    · rw [luaHGetnum, if_pos hindex]
    · omega
  all_goals cases hk

theorem luaHGet_of_not_inArray {k : Key N} (hout : ¬ InArray t k) : luaHGet t k = findNode t k := by
  rcases k with n | str | b | ⟨tt, address⟩
  · rw [luaHGet]
    rw [InArray, arrayindex] at hout
    split_ifs at hout ⊢ with hint
    · rw [luaHGetnum, if_neg hout, hint]
    · rfl
  all_goals rfl

theorem luaHGet_eq_none {k : Key N} (hget : luaHGet t k = none) :
    ¬ InArray t k ∧ findNode t k = none := by
  have hout : ¬ InArray t k := fun hin ↦ by
    rw [luaHGet_of_inArray hin] at hget
    cases hget
  exact ⟨hout, luaHGet_of_not_inArray hout ▸ hget⟩

section Search

variable {k : Key N} {v : V}

theorem Consistent.mem_chain (hconsistent : Consistent t) {i : ℕ} (hi : i < t.sizenode)
    (hkey : (t.node i).key = .key k) : i ∈ t.chain (mainposition t.sizenode k) :=
  (mem_chain_iff hconsistent.chained hconsistent.bounded (mainposition_lt t k)).2
    (hconsistent.reached i hi _ (mainOf_of_key hkey))

theorem Consistent.findNode_eq_some (hconsistent : Consistent t) {i : ℕ} (hi : i < t.sizenode)
    (hkey : (t.node i).key = .key k) : findNode t k = some (.node i) := by
  have hmem := hconsistent.mem_chain hi hkey
  rw [findNode]
  rcases hfind : (t.chain (mainposition t.sizenode k)).find? fun i ↦ (t.node i).key = .key k with
    - | j
  · have hnone := List.find?_eq_none.1 hfind i hmem
    simp [hkey] at hnone
  · have hkeyj : (t.node j).key = .key k := by simpa using List.find?_some hfind
    have hreach := (mem_chain_iff hconsistent.chained hconsistent.bounded (mainposition_lt t k)).1
      (List.mem_of_find?_eq_some hfind)
    have hj : j < t.sizenode :=
      hreach.rule (· < t.sizenode) (mainposition_lt t k) fun c d _ hnext ↦
        (hconsistent.bounded c d hnext).2
    rw [hconsistent.distinct j hj i hi k hkeyj hkey]
    rfl

theorem Consistent.findNode_eq_some_iff (hconsistent : Consistent t) {slot : Slot} :
    findNode t k = some slot ↔ ∃ i < t.sizenode, slot = .node i ∧ (t.node i).key = .key k := by
  constructor
  · intro hfind
    by_cases hsome : ∃ i < t.sizenode, (t.node i).key = .key k
    · obtain ⟨i, hi, hkey⟩ := hsome
      rw [hconsistent.findNode_eq_some hi hkey] at hfind
      exact ⟨i, hi, (Option.some.inj hfind).symm, hkey⟩
    · rw [findNode] at hfind
      obtain ⟨j, hj, rfl⟩ := Option.map_eq_some_iff.1 hfind
      have hkeyj : (t.node j).key = .key k := by simpa using List.find?_some hj
      have hreach := (mem_chain_iff hconsistent.chained hconsistent.bounded (mainposition_lt t k)).1
        (List.mem_of_find?_eq_some hj)
      have hlt : j < t.sizenode :=
        hreach.rule (· < t.sizenode) (mainposition_lt t k) fun c d _ hnext ↦
          (hconsistent.bounded c d hnext).2
      exact absurd ⟨j, hlt, hkeyj⟩ hsome
  · rintro ⟨i, hi, rfl, hkey⟩
    exact hconsistent.findNode_eq_some hi hkey

theorem Consistent.findNode_eq_none (hconsistent : Consistent t)
    (hne : ∀ i < t.sizenode, (t.node i).key ≠ .key k) : findNode t k = none := by
  rcases hfind : findNode t k with - | slot
  · rfl
  · obtain ⟨i, hi, -, hkey⟩ := hconsistent.findNode_eq_some_iff.1 hfind
    exact absurd hkey (hne i hi)

theorem Consistent.ne_key (hconsistent : Consistent t) (hfind : findNode t k = none) {i : ℕ}
    (hi : i < t.sizenode) : (t.node i).key ≠ .key k := by
  intro hkey
  rw [hconsistent.findNode_eq_some hi hkey] at hfind
  cases hfind

/-- A search finds the values that the table holds. -/
theorem Consistent.get_eq_some_iff (hconsistent : Consistent t) :
    t.get k = some v ↔ t.Holds k v := by
  rw [Table.get]
  by_cases hin : InArray t k
  · rw [luaHGet_of_inArray hin]
    constructor
    · exact fun hread ↦ .inl ⟨hin, hread⟩
    · rintro (⟨-, hread⟩ | ⟨i, hi, hkey, hval⟩)
      · exact hread
      · exact absurd hin (hconsistent.apart i k (.ne_none hi hval) hkey)
  · rw [luaHGet_of_not_inArray hin]
    constructor
    · intro hread
      obtain ⟨slot, hfind, hvalue⟩ := Option.bind_eq_some_iff.1 hread
      obtain ⟨i, hi, rfl, hkey⟩ := hconsistent.findNode_eq_some_iff.1 hfind
      exact .inr ⟨i, hi, hkey, hvalue⟩
    · rintro (⟨hin', -⟩ | ⟨i, hi, hkey, hval⟩)
      · exact absurd hin' hin
      · rw [hconsistent.findNode_eq_some hi hkey]
        exact hval

end Search

/-! ### Putting a key into a node -/

/-- A node gets a key. -/
def Table.setKey (t : Table N V) (i : ℕ) (k : Key N) : Table N V :=
  t.setNode i { t.node i with key := .key k }

section SetKey

variable {n mp : ℕ} {k : Key N}

theorem key_setKey (x : ℕ) :
    ((t.setKey n k).node x).key = if x = n then .key k else (t.node x).key := by
  split_ifs with hx
  · rw [hx, Table.setKey, node_setNode_self]
  · rw [Table.setKey, node_setNode_of_ne _ _ hx]

theorem val_setKey (x : ℕ) : ((t.setKey n k).node x).val = (t.node x).val := by
  by_cases hx : x = n
  · rw [hx, Table.setKey, node_setNode_self]
  · rw [Table.setKey, node_setNode_of_ne _ _ hx]

theorem next_setKey : (t.setKey n k).next = t.next := by
  funext x
  rw [Table.next, Table.next]
  by_cases hx : x = n
  · rw [hx, Table.setKey, node_setNode_self]
  · rw [Table.setKey, node_setNode_of_ne _ _ hx]

theorem mainOf_setKey_self : (t.setKey n k).mainOf n = some (mainposition t.sizenode k) := by
  have hkey : ((t.setKey n k).node n).key = .key k := by
    rw [key_setKey, if_pos rfl]
  exact mainOf_of_key hkey

theorem mainOf_setKey_of_ne {x : ℕ} (hx : x ≠ n) : (t.setKey n k).mainOf x = t.mainOf x := by
  unfold Table.mainOf
  rw [key_setKey, if_neg hx]
  rfl

theorem nodeHolds_setKey (hval : (t.node n).val = none) {k' : Key N} {v : V} :
    NodeHolds (t.setKey n k) k' v ↔ NodeHolds t k' v := by
  refine exists_congr fun i ↦ and_congr_right fun _ ↦ ?_
  rw [val_setKey, key_setKey]
  split_ifs with hi
  · rw [hi, hval]
    constructor
    · rintro ⟨-, hnone⟩
      cases hnone
    · rintro ⟨-, hnone⟩
      cases hnone
  · rfl

theorem Live.of_setKey (hval : (t.node n).val = none) {i : ℕ} (hlive : Live (t.setKey n k) i) :
    i ≠ n ∧ Live t i := by
  have hvalue := hlive.2
  rw [val_setKey] at hvalue
  refine ⟨?_, hlive.1, hvalue⟩
  rintro rfl
  exact hvalue hval

theorem Consistent.distinct_setKey (hconsistent : Consistent t) (hfind : findNode t k = none)
    (n i : ℕ) (hi : i < t.sizenode) (j : ℕ) (hj : j < t.sizenode) (k' : Key N)
    (hkey : ((t.setKey n k).node i).key = .key k') (hkey' : ((t.setKey n k).node j).key = .key k') :
    i = j := by
  rw [key_setKey] at hkey hkey'
  split_ifs at hkey hkey' with hin hjn hjn
  · exact hin.trans hjn.symm
  · exact absurd (hkey'.trans hkey.symm) (hconsistent.ne_key hfind hj)
  · exact absurd (hkey.trans hkey'.symm) (hconsistent.ne_key hfind hi)
  · exact hconsistent.distinct i hi j hj k' hkey hkey'

/-- The key is put into its main position. -/
theorem Consistent.setKey (hconsistent : Consistent t) (hdummy : t.dummy = false)
    (hval : (t.node (mainposition t.sizenode k)).val = none) (hfind : findNode t k = none) :
    Consistent (t.setKey (mainposition t.sizenode k) k) := by
  constructor
  · rw [next_setKey]
    exact hconsistent.chained
  · intro a b hnext
    rw [next_setKey] at hnext
    exact hconsistent.bounded a b hnext
  · intro i hi hnil
    rw [key_setKey] at hnil
    split_ifs at hnil
    rw [val_setKey, next_setKey]
    exact hconsistent.free i hi hnil
  · intro i hlive
    obtain ⟨hne, hlive'⟩ := hlive.of_setKey hval
    rw [key_setKey, if_neg hne]
    exact hconsistent.keyed i hlive'
  · intro i hi m hmain
    rw [next_setKey]
    by_cases hin : i = mainposition t.sizenode k
    · rw [hin, mainOf_setKey_self] at hmain
      rw [hin, ← Option.some.inj hmain]
      exact .refl _
    · rw [mainOf_setKey_of_ne hin] at hmain
      exact hconsistent.reached i hi m hmain
  · intro i hi m hmain
    by_cases hm : m = mainposition t.sizenode k
    · rw [hm]
      exact .inl mainOf_setKey_self
    · have hin : i ≠ mainposition t.sizenode k := by
        rintro rfl
        rw [mainOf_setKey_self] at hmain
        exact hm (Option.some.inj hmain).symm
      rw [mainOf_setKey_of_ne hin] at hmain
      rw [mainOf_setKey_of_ne hm, key_setKey, if_neg hm]
      exact hconsistent.own i hi m hmain
  · exact hconsistent.distinct_setKey hfind _
  · intro i k' hlive hkey
    obtain ⟨hne, hlive'⟩ := hlive.of_setKey hval
    rw [key_setKey, if_neg hne] at hkey
    exact hconsistent.apart i k' hlive' hkey
  · exact hconsistent.length
  · exact hconsistent.sizearray
  · exact hconsistent.lsizenode
  · intro htrue
    exact absurd (hdummy.symm.trans htrue) Bool.false_ne_true

/-- A node out of its main position changes its place with a free one. -/
theorem Consistent.exchange (hconsistent : Consistent t) (hdummy : t.dummy = false)
    (hn : n < t.sizenode) (hnil : (t.node n).key = .nil) (hmp : mp < t.sizenode) {k' : Key N}
    (hkey : (t.node mp).key = .key k') (hother : mainposition t.sizenode k' ≠ mp) :
    Consistent (t.exchange n mp) := by
  have hroot : ∀ i < t.sizenode, ∀ m, t.mainOf i = some m → Equiv.swap n mp m = m := by
    intro i hi m hmain
    refine Equiv.swap_apply_of_ne_of_ne ?_ ?_
    · rintro rfl
      have hi := (hconsistent.free m hn hnil).2.eq_of_reaches (hconsistent.reached i hi m hmain)
      rw [← hi] at hmain
      exact mainOf_ne_some (fun k hk ↦ by rw [hnil] at hk; cases hk) hmain
    · rintro rfl
      rcases hconsistent.own i hi m hmain with hself | hdead
      · rw [mainOf_of_key hkey] at hself
        exact hother (Option.some.inj hself)
      · rw [hkey] at hdead
        cases hdead
  have hlt : ∀ {x}, Equiv.swap n mp x < t.sizenode ↔ x < t.sizenode := swap_lt hn hmp
  have hlive : ∀ i, Live (t.exchange n mp) i → Live t (Equiv.swap n mp i) :=
    fun i hi ↦ ⟨hlt.2 hi.1, hi.2⟩
  constructor
  · exact hconsistent.chained.exchange
  · intro a b hnext
    obtain ⟨ha, hb⟩ := hconsistent.bounded _ _ (of_exchange_eq_some hnext)
    exact ⟨hlt.1 ha, hlt.1 hb⟩
  · intro i hi hfree
    obtain ⟨hval, hisolated⟩ := hconsistent.free _ (hlt.2 hi) hfree
    refine ⟨hval, ?_⟩
    have hafter : Isolated (Links.exchange t.next n mp) _ := hisolated.exchange
    rw [Equiv.swap_apply_self] at hafter
    exact hafter
  · exact fun i hi ↦ hconsistent.keyed _ (hlive i hi)
  · intro i hi m hmain
    rw [mainOf_exchange] at hmain
    have hreach := hconsistent.reached _ (hlt.2 hi) m hmain
    have hafter : Reaches (Links.exchange t.next n mp) _ _ := hreach.exchange
    rw [hroot _ (hlt.2 hi) m hmain, Equiv.swap_apply_self] at hafter
    exact hafter
  · intro i hi m hmain
    rw [mainOf_exchange] at hmain ⊢
    rw [node_exchange, hroot _ (hlt.2 hi) m hmain]
    exact hconsistent.own _ (hlt.2 hi) m hmain
  · intro i hi j hj k hkeyi hkeyj
    exact (Equiv.swap n mp).injective
      (hconsistent.distinct _ (hlt.2 hi) _ (hlt.2 hj) k hkeyi hkeyj)
  · exact fun i k hi hkeyi ↦ hconsistent.apart _ k (hlive i hi) hkeyi
  · exact hconsistent.length
  · exact hconsistent.sizearray
  · exact hconsistent.lsizenode
  · intro htrue
    exact absurd (hdummy.symm.trans htrue) Bool.false_ne_true

/-- A free node with the key is put behind the node in its main position, which is in its own. -/
theorem Consistent.linkKey (hconsistent : Consistent t) (hdummy : t.dummy = false)
    (hn : n < t.sizenode) (hnil : (t.node n).key = .nil)
    (hmain : t.mainOf mp = some mp) (hk : mainposition t.sizenode k = mp)
    (hfind : findNode t k = none) : Consistent ((t.behind mp n).setKey n k) := by
  obtain ⟨hval, hisolated⟩ := hconsistent.free n hn hnil
  have hne : mp ≠ n := by
    rintro rfl
    exact mainOf_ne_some (fun k hk ↦ by rw [hnil] at hk; cases hk) hmain
  have hmp : mp < t.sizenode := mainOf_lt hmain
  have hnext : ((t.behind mp n).setKey n k).next = link t.next mp n := by
    rw [next_setKey, next_behind hne]
  have hkeys : ∀ x, (((t.behind mp n).setKey n k).node x).key =
      if x = n then .key k else (t.node x).key := by
    intro x
    rw [key_setKey, node_behind hne]
  have hvals : ∀ x, (((t.behind mp n).setKey n k).node x).val = (t.node x).val := by
    intro x
    rw [val_setKey, node_behind hne]
  have hmains : ∀ x, x ≠ n → ((t.behind mp n).setKey n k).mainOf x = t.mainOf x := by
    intro x hx
    rw [mainOf_setKey_of_ne hx, mainOf_behind hne]
  have hmainn : ((t.behind mp n).setKey n k).mainOf n = some mp := by
    rw [mainOf_setKey_self]
    exact congrArg some hk
  have hlive : ∀ i, Live ((t.behind mp n).setKey n k) i → i ≠ n ∧ Live t i := by
    rintro i ⟨hi, hvalue⟩
    rw [hvals] at hvalue
    refine ⟨?_, hi, hvalue⟩
    rintro rfl
    exact hvalue hval
  have hfirst : link t.next mp n mp = some n := if_pos rfl
  constructor
  · rw [hnext]
    exact hconsistent.chained.link hisolated (Ne.symm hne)
  · intro a b hab
    rw [hnext, link] at hab
    split_ifs at hab with hamp han
    · obtain rfl := Option.some.inj hab
      exact ⟨hamp ▸ hmp, hn⟩
    · exact ⟨han ▸ hn, (hconsistent.bounded _ _ hab).2⟩
    · exact hconsistent.bounded a b hab
  · intro i hi hfree
    rw [hkeys] at hfree
    split_ifs at hfree with hin
    obtain ⟨hvali, hisolatedi⟩ := hconsistent.free i hi hfree
    have himp : i ≠ mp := by
      rintro rfl
      exact mainOf_ne_some (fun k hk ↦ by rw [hfree] at hk; cases hk) hmain
    rw [hvals, hnext]
    refine ⟨hvali, ?_, fun b hb ↦ ?_⟩
    · rw [link, if_neg himp, if_neg hin, hisolatedi.next_eq]
    · rw [link] at hb
      split_ifs at hb
      · exact hin (Option.some.inj hb).symm
      · exact hisolatedi.ne_some _ hb
      · exact hisolatedi.ne_some _ hb
  · intro i hi
    obtain ⟨hin, hlivei⟩ := hlive i hi
    rw [hkeys, if_neg hin]
    exact hconsistent.keyed i hlivei
  · intro i hi m hm
    rw [hnext]
    by_cases hin : i = n
    · subst hin
      obtain rfl := Option.some.inj (hmainn.symm.trans hm)
      exact .head hfirst (.refl _)
    · rw [hmains i hin] at hm
      exact (hconsistent.reached i hi m hm).link hisolated (Ne.symm hne)
  · intro i hi m hm
    by_cases hin : i = n
    · subst hin
      obtain rfl := Option.some.inj (hmainn.symm.trans hm)
      rw [hmains mp hne]
      exact .inl hmain
    · rw [hmains i hin] at hm
      have hmn : m ≠ n := by
        rintro rfl
        have hself := hisolated.eq_of_reaches (hconsistent.reached i hi m hm)
        exact hin hself.symm
      rw [hmains m hmn, hkeys, if_neg hmn]
      exact hconsistent.own i hi m hm
  · intro i hi j hj k' hkey hkey'
    rw [key_setKey, node_behind hne] at hkey hkey'
    refine hconsistent.distinct_setKey hfind n i hi j hj k' ?_ ?_
    · rw [key_setKey]
      exact hkey
    · rw [key_setKey]
      exact hkey'
  · intro i k' hi hkey
    obtain ⟨hin, hlivei⟩ := hlive i hi
    rw [hkeys, if_neg hin] at hkey
    exact hconsistent.apart i k' hlivei hkey
  · exact hconsistent.length
  · exact hconsistent.sizearray
  · exact hconsistent.lsizenode
  · intro htrue
    exact absurd (hdummy.symm.trans htrue) Bool.false_ne_true

end SetKey

/-! ### Inserting a key -/

/-- The search for a free node has come to an index. -/
def Table.setLast (t : Table N V) (l : ℕ) : Table N V := { t with lastfree := l }

theorem Consistent.setLast (hconsistent : Consistent t) (hdummy : t.dummy = false) (l : ℕ) :
    Consistent (t.setLast l) where
  chained := hconsistent.chained
  bounded := hconsistent.bounded
  free := hconsistent.free
  keyed := hconsistent.keyed
  reached := hconsistent.reached
  own := hconsistent.own
  distinct := hconsistent.distinct
  apart := hconsistent.apart
  length := hconsistent.length
  sizearray := hconsistent.sizearray
  lsizenode := hconsistent.lsizenode
  dummy := fun htrue ↦ absurd (hdummy.symm.trans htrue) Bool.false_ne_true

/-- The key has a slot, and the table holds what it held. -/
structure Inserted (t : Table N V) (k : Key N) (after : Table N V) (slot : Slot) : Prop where
  sound : Sound after
  holds : ∀ k' v, after.Holds k' v ↔ t.Holds k' v
  get : luaHGet after k = some slot

/-- `newkey` has to rehash: the main position is taken, and no node is free. -/
def Crowded (t : Table N V) (k : Key N) : Prop :=
  ((t.node (mainposition t.sizenode k)).val.isSome = true ∨ t.dummy = true) ∧
    (getfreepos t).1 = none

/-- How many nodes have had a key since the last rehash. -/
def keyedCount (t : Table N V) : ℕ :=
  ((Finset.range t.sizenode).filter fun i ↦ (t.node i).key ≠ .nil).card

/-- The vector has at most one free node fewer. -/
structure Filled (t after : Table N V) : Prop where
  lsizenode : after.lsizenode = t.lsizenode
  dummy : after.dummy = t.dummy
  keyedCount_le : keyedCount after ≤ keyedCount t + 1

theorem Filled.refl (t : Table N V) : Filled t t := ⟨rfl, rfl, Nat.le_succ _⟩

theorem Filled.of_keys {after : Table N V} (hlsize : after.lsizenode = t.lsizenode)
    (hdummy : after.dummy = t.dummy) (i : ℕ)
    (hkeys : ∀ x < t.sizenode, (after.node x).key ≠ .nil → x = i ∨ (t.node x).key ≠ .nil) :
    Filled t after := by
  refine ⟨hlsize, hdummy, ?_⟩
  have hsubset : ((Finset.range after.sizenode).filter fun x ↦ (after.node x).key ≠ .nil) ⊆
      insert i ((Finset.range t.sizenode).filter fun x ↦ (t.node x).key ≠ .nil) := by
    intro x hx
    obtain ⟨hrange, hkey⟩ := Finset.mem_filter.1 hx
    have hlt : x < t.sizenode := by
      have hafter := Finset.mem_range.1 hrange
      rwa [Table.sizenode, hlsize] at hafter
    rcases hkeys x hlt hkey with rfl | hbefore
    · exact Finset.mem_insert_self ..
    · exact Finset.mem_insert_of_mem (Finset.mem_filter.2 ⟨Finset.mem_range.2 hlt, hbefore⟩)
  exact (Finset.card_le_card hsubset).trans (Finset.card_insert_le _ _)

section Insert

variable {k : Key N}

/-- In a crowded vector, every node has had a key. -/
theorem Sound.key_ne_nil (hsound : Sound t) (hcrowded : Crowded t k) (hdummy : t.dummy = false)
    {i : ℕ} (hi : i < t.sizenode) : (t.node i).key ≠ .nil := by
  rcases hfree : freeBelow t.node t.lastfree with ⟨l, found⟩
  have hfound : found = none := by
    have hnone := hcrowded.2
    rw [getfreepos, hfree] at hnone
    exact hnone
  rcases Nat.lt_or_ge i t.lastfree with hless | hge
  · exact (freeBelow_none (hfound ▸ hfree)).2 i hless
  · exact hsound.full hdummy i hi hge

/-- What `newkey` goes on with when it has to rehash. -/
theorem Sound.getfreepos_of_crowded (hsound : Sound t) (hcrowded : Crowded t k) :
    getfreepos t = (none, t.setLast 0) ∧ Sound (t.setLast 0) := by
  rcases hfree : freeBelow t.node t.lastfree with ⟨l, found⟩
  have hfound : found = none := by
    have hnone := hcrowded.2
    rw [Tables.getfreepos, hfree] at hnone
    exact hnone
  rw [hfound] at hfree
  have hzero := (freeBelow_none hfree).1
  constructor
  · rw [Tables.getfreepos, hfree, hzero]
    rfl
  · rcases hdummy : t.dummy with - | -
    · exact ⟨hsound.toConsistent.setLast hdummy 0, Nat.zero_le _,
        fun _ i hi _ ↦ hsound.key_ne_nil hcrowded hdummy hi⟩
    · have hlast := (hsound.dummy hdummy).1
      have hsame : t.setLast 0 = t := by
        rw [← hlast]
        rfl
      rw [hsame]
      exact hsound

theorem Sound.sizenode_le_keyedCount (hsound : Sound t) (hcrowded : Crowded t k)
    (hdummy : t.dummy = false) : t.sizenode ≤ keyedCount t := by
  have hall : Finset.range t.sizenode ⊆
      (Finset.range t.sizenode).filter fun i ↦ (t.node i).key ≠ .nil := fun i hi ↦
    Finset.mem_filter.2 ⟨hi, hsound.key_ne_nil hcrowded hdummy (Finset.mem_range.1 hi)⟩
  have hcard := Finset.card_le_card hall
  rwa [Finset.card_range] at hcard

/-- What inserting a key without a rehash does. -/
structure Added (t : Table N V) (k : Key N) (after : Table N V) (slot : Slot) : Prop where
  inserted : Inserted t k after slot
  sameArray : SameArray t after
  filled : Filled t after

/-- A node has got the key. -/
theorem Added.of_node {after : Table N V} {i : ℕ} (hsound : Sound after)
    (hget : luaHGet t k = none) (harray : after.array = t.array)
    (hsize : after.sizearray = t.sizearray)
    (hnodes : ∀ k' v, NodeHolds after k' v ↔ NodeHolds t k' v) (hi : i < after.sizenode)
    (hkey : (after.node i).key = .key k) (hfilled : Filled t after) :
    Added t k after (.node i) := by
  have hout : ¬ InArray after k := by
    rw [InArray, hsize]
    exact (luaHGet_eq_none hget).1
  refine ⟨⟨hsound, fun k' v ↦ or_congr (arrayHolds_congr harray hsize) (hnodes k' v), ?_⟩,
    ⟨hsize, fun j _ ↦ by rw [harray], by rw [harray]⟩, hfilled⟩
  rw [luaHGet_of_not_inArray hout]
  exact hsound.findNode_eq_some hi hkey

/-- The main position is free. -/
theorem Sound.insert_main (hsound : Sound t) (hget : luaHGet t k = none) (hdummy : t.dummy = false)
    (hval : (t.node (mainposition t.sizenode k)).val = none) :
    Added t k (t.setKey (mainposition t.sizenode k) k) (.node (mainposition t.sizenode k)) := by
  have hconsistent := hsound.toConsistent.setKey hdummy hval (luaHGet_eq_none hget).2
  refine .of_node ⟨hconsistent, hsound.lastfree, fun _ i hi hlast ↦ ?_⟩ hget rfl rfl
    (fun _ _ ↦ nodeHolds_setKey hval) (mainposition_lt t k) ?_
    (.of_keys rfl rfl (mainposition t.sizenode k) fun x _ hkey ↦ ?_)
  · rw [key_setKey]
    split_ifs
    · exact fun hnil ↦ by cases hnil
    · exact hsound.full hdummy i hi hlast
  · rw [key_setKey, if_pos rfl]
  · rw [key_setKey] at hkey
    split_ifs at hkey with hx
    · exact .inl hx
    · exact .inr hkey

section Free

variable {n : ℕ}

/-- The node in the main position is out of its own one, and gives way to the key. -/
theorem Sound.insert_exchange (hsound : Sound t) (hget : luaHGet t k = none)
    (hdummy : t.dummy = false) (hn : n < t.sizenode) (hnil : (t.node n).key = .nil)
    (hused : ∀ j, n < j → j < t.lastfree → (t.node j).key ≠ .nil) {k' : Key N}
    (hkey : (t.node (mainposition t.sizenode k)).key = .key k')
    (hother : mainposition t.sizenode k' ≠ mainposition t.sizenode k) :
    Added t k
      (((t.setLast n).exchange n (mainposition t.sizenode k)).setKey (mainposition t.sizenode k) k)
      (.node (mainposition t.sizenode k)) := by
  have hmp := mainposition_lt t k
  have hne : n ≠ mainposition t.sizenode k := by
    intro heq
    rw [← heq, hnil] at hkey
    cases hkey
  have hlast := hsound.toConsistent.setLast hdummy n
  have hmoved := hlast.exchange hdummy hn hnil hmp hkey hother
  have hnode : (((t.setLast n).exchange n (mainposition t.sizenode k)).node
      (mainposition t.sizenode k)).val = none := by
    rw [node_exchange, Equiv.swap_apply_right]
    exact (hsound.free n hn hnil).1
  have hfind : findNode ((t.setLast n).exchange n
      (mainposition t.sizenode k)) k = none := by
    refine hmoved.findNode_eq_none fun i hi ↦ ?_
    exact hsound.ne_key (luaHGet_eq_none hget).2 ((swap_lt hn hmp).2 hi)
  have hkey' := hmoved.setKey hdummy hnode hfind
  refine .of_node ⟨hkey', Nat.le_of_lt hn, fun _ i hi hle ↦ ?_⟩ hget rfl rfl
    (fun k' v ↦ (nodeHolds_setKey hnode).trans (nodeHolds_exchange hn hmp)) hmp ?_
    (.of_keys rfl rfl n fun x _ hx ↦ ?_)
  · rw [key_setKey]
    split_ifs with himp
    · exact fun hfree ↦ by cases hfree
    · change (t.node (Equiv.swap n (mainposition t.sizenode k) i)).key ≠ .nil
      by_cases hin : i = n
      · rw [hin, Equiv.swap_apply_left, hkey]
        exact fun hfree ↦ by cases hfree
      · rw [Equiv.swap_apply_of_ne_of_ne hin himp]
        change n ≤ i at hle
        rcases Nat.lt_or_ge i t.lastfree with hless | hge
        · exact hused i (by omega) hless
        · exact hsound.full hdummy i hi hge
  · rw [key_setKey, if_pos rfl]
  · by_cases hxn : x = n
    · exact .inl hxn
    · refine .inr ?_
      by_cases hxmp : x = mainposition t.sizenode k
      · rw [hxmp, hkey]
        exact fun hfree ↦ by cases hfree
      · rw [key_setKey, if_neg hxmp, node_exchange,
          Equiv.swap_apply_of_ne_of_ne hxn hxmp] at hx
        exact hx

/-- The node in the main position is in its own one, and the key is put behind it. -/
theorem Sound.insert_behind (hsound : Sound t) (hget : luaHGet t k = none)
    (hdummy : t.dummy = false) (hn : n < t.sizenode) (hnil : (t.node n).key = .nil)
    (hused : ∀ j, n < j → j < t.lastfree → (t.node j).key ≠ .nil)
    (hmain : t.mainOf (mainposition t.sizenode k) = some (mainposition t.sizenode k)) :
    Added t k (((t.setLast n).behind (mainposition t.sizenode k) n).setKey n k) (.node n) := by
  have hne : mainposition t.sizenode k ≠ n := by
    intro heq
    rw [heq] at hmain
    exact mainOf_ne_some (fun k hk ↦ by rw [hnil] at hk; cases hk) hmain
  have hlast := hsound.toConsistent.setLast hdummy n
  have hlinked := hlast.linkKey hdummy hn hnil hmain rfl (luaHGet_eq_none hget).2
  have hnode : (((t.setLast n).behind (mainposition t.sizenode k) n).node
      n).val = none := by
    rw [node_behind hne]
    exact (hsound.free n hn hnil).1
  refine .of_node ⟨hlinked, Nat.le_of_lt hn, fun _ i hi hle ↦ ?_⟩ hget rfl rfl
    (fun k' v ↦ (nodeHolds_setKey hnode).trans (nodeHolds_behind hne)) hn ?_
    (.of_keys rfl rfl n fun x _ hx ↦ ?_)
  · rw [key_setKey]
    split_ifs with hin
    · exact fun hfree ↦ by cases hfree
    · rw [node_behind hne]
      change n ≤ i at hle
      change (t.node i).key ≠ .nil
      rcases Nat.lt_or_ge i t.lastfree with hless | hge
      · exact hused i (by omega) hless
      · exact hsound.full hdummy i hi hge
  · rw [key_setKey, if_pos rfl]
  · rw [key_setKey] at hx
    split_ifs at hx with hxn
    · exact .inl hxn
    · rw [node_behind hne] at hx
      exact .inr hx

end Free

/-- With a free node, `newkey` returns. -/
theorem Sound.newkey_of_not_crowded (hsound : Sound t) (hget : luaHGet t k = none)
    (hroom : ¬ Crowded t k) (mem : Memory) (depth : ℕ) :
    ∃ after slot, newkey mem (depth + 1) t k = .returns after slot ∧ Added t k after slot := by
  have hmp := mainposition_lt t k
  rw [newkey]
  by_cases htaken : (t.node (mainposition t.sizenode k)).val.isSome = true ∨ t.dummy = true
  · obtain ⟨n, hn⟩ := Option.ne_none_iff_exists'.1 fun hnone ↦ hroom ⟨htaken, hnone⟩
    rcases hfree : freeBelow t.node t.lastfree with ⟨l, found⟩
    have hfound : found = some n := by
      rw [Tables.getfreepos, hfree] at hn
      exact hn
    rw [hfound] at hfree
    obtain ⟨rfl, hlt, hnil, hused⟩ := freeBelow_some hfree
    have hlsize : l < t.sizenode := Nat.lt_of_lt_of_le hlt hsound.lastfree
    have hdummy : t.dummy = false := by
      by_contra htrue
      have hzero := (hsound.dummy (Bool.eq_true_of_not_eq_false htrue)).1
      omega
    have hval : (t.node (mainposition t.sizenode k)).val ≠ none :=
      htaken.elim Option.isSome_iff_ne_none.1 fun htrue ↦
        absurd (hdummy.symm.trans htrue) Bool.false_ne_true
    obtain ⟨k', hkey⟩ := hsound.keyed _ ⟨hmp, hval⟩
    have hmain := mainOf_of_key hkey
    have hposition : getfreepos t = (some l, t.setLast l) := by
      rw [Tables.getfreepos, hfree]
      rfl
    have hmain' : (t.setLast l).mainOf (mainposition t.sizenode k) =
        some (mainposition t.sizenode k') := hmain
    rw [if_pos htaken, hposition]
    dsimp only
    rw [hmain']
    dsimp only
    by_cases hother : mainposition t.sizenode k' = mainposition t.sizenode k
    · rw [if_neg (not_not.2 hother)]
      exact ⟨_, _, rfl, hsound.insert_behind hget hdummy hlsize hnil hused (hother ▸ hmain)⟩
    · have hreach := hsound.reached _ hmp _ hmain
      obtain ⟨prev, hprev, hnext⟩ := findPrevNode_of_reaches hsound.chained hsound.bounded
        (mainposition_lt t k') hreach hother
      have hprev' : findPrevNode (t.setLast l) (mainposition t.sizenode k')
          (mainposition t.sizenode k) = some prev := hprev
      have hne : mainposition t.sizenode k ≠ l := by
        rintro heq
        rw [heq, hnil] at hkey
        cases hkey
      have hempty := (hsound.free l hlsize hnil).1
      have hisolated := (hsound.free l hlsize hnil).2
      have hafter : (((t.setLast l).setNext prev (some l)).setNode l
          (((t.setLast l).setNext prev (some l)).node (mainposition t.sizenode k))).setNode
            (mainposition t.sizenode k) ⟨.key k, none, none⟩ =
          ((t.setLast l).exchange l (mainposition t.sizenode k)).setKey
            (mainposition t.sizenode k) k := by
        have hnode : ((t.setLast l).exchange l (mainposition t.sizenode k)).node
            (mainposition t.sizenode k) = ⟨.nil, none, none⟩ := by
          rw [node_exchange, Equiv.swap_apply_right]
          refine Node.ext hnil hempty ?_
          change (t.next l).map _ = none
          rw [hisolated.next_eq]
          rfl
        have hchained : Chained (t.setLast l).next := hsound.chained
        have hisolated' : Isolated (t.setLast l).next l := hisolated
        have hnext' : (t.setLast l).next prev = some (mainposition t.sizenode k) := hnext
        have hexchange : (((t.setLast l).setNext prev (some l)).setNode l
            (((t.setLast l).setNext prev (some l)).node (mainposition t.sizenode k))).setNode
              (mainposition t.sizenode k) ((t.setLast l).node l) =
            (t.setLast l).exchange l (mainposition t.sizenode k) :=
          exchange_of_link hne hchained hisolated' hnext'
        rw [Table.setKey, hnode, ← hexchange, setNode_setNode]
      rw [if_pos hother, hprev']
      dsimp only
      rw [hafter]
      exact ⟨_, _, rfl, hsound.insert_exchange hget hdummy hlsize hnil hused hkey hother⟩
  · rw [if_neg htaken]
    have hval : (t.node (mainposition t.sizenode k)).val = none := by
      by_contra hval
      exact htaken (.inl (Option.isSome_iff_ne_none.2 hval))
    have hdummy : t.dummy = false := Bool.eq_false_iff.2 fun htrue ↦ htaken (.inr htrue)
    exact ⟨_, _, rfl, hsound.insert_main hget hdummy hval⟩

end Insert

end Elua.Lua.Tables
