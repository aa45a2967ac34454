import Elua.Lua.TableNodes
import Mathlib.Data.Finset.Card
import Mathlib.Data.Finset.Range

/-!
# Moving nodes to their chains

The last loop of `resize_hashpart` starts from nodes without links and moves one after the other to
its main position or onto the chain that starts there. In between, `Mixed` holds: a link leads
between nodes with one main position only, and to nodes that are reached from there (`Settled`). So
a node that is not settled has no links, and it can change its place with the node in its main
position: `move_node` does nothing else (`Table.exchange`) unless it puts the node on a chain.

Every turn that has to be repeated puts one more node into its main position, so the loop ends
(`Mixed.moveLoop`), and after the last turn all nodes are settled (`Mixed.chainNodes`).
-/

set_option autoImplicit false
set_option relaxedAutoImplicit false

namespace Elua.Lua.Tables

open Foundation Links

variable {N : KeyNumbers} {V : Type*} {t : Table N V}

/-! ### Positions and chains -/

theorem sizenode_pos (t : Table N V) : 0 < t.sizenode := Nat.two_pow_pos _

theorem hashmod_lt (bits : ℕ) (n : UInt32) : hashmod (2 ^ bits) n < 2 ^ bits := by
  have hpos := Nat.two_pow_pos bits
  have hodd : 0 < (2 ^ bits - 1) ||| 1 := Nat.lt_of_lt_of_le Nat.zero_lt_one Nat.right_le_or
  rcases Nat.eq_zero_or_pos bits with rfl | hbits
  · exact Nat.mod_lt _ hodd
  · have hle : (2 ^ bits - 1) ||| 1 < 2 ^ bits :=
      Nat.or_lt_two_pow (by omega) (Nat.one_lt_two_pow (by omega))
    exact Nat.lt_trans (Nat.mod_lt _ hodd) hle

theorem mainposition_lt (t : Table N V) (k : Key N) : mainposition t.sizenode k < t.sizenode := by
  rcases k with n | str | b | ⟨tt, address⟩
  · change hashnum _ n < _
    rw [hashnum]
    split_ifs
    · exact sizenode_pos t
    · exact hashmod_lt _ _
  · exact Nat.lt_of_le_pred (sizenode_pos t) Nat.and_le_right
  · exact Nat.lt_of_le_pred (sizenode_pos t) Nat.and_le_right
  · exact hashmod_lt _ _

theorem mainOf_eq_some_iff {i m : ℕ} :
    t.mainOf i = some m ↔ ∃ k, (t.node i).key = .key k ∧ mainposition t.sizenode k = m := by
  unfold Table.mainOf
  split
  · next k hkey =>
    constructor
    · intro hmain
      exact ⟨k, hkey, Option.some.inj hmain⟩
    · rintro ⟨other, hother, hmain⟩
      rw [NodeKey.key.inj (hkey.symm.trans hother), hmain]
  · next hother =>
    constructor
    · intro hnone
      cases hnone
    · rintro ⟨k, hkey, -⟩
      exact absurd hkey (hother k)

theorem mainOf_lt {i m : ℕ} (hmain : t.mainOf i = some m) : m < t.sizenode := by
  obtain ⟨k, -, rfl⟩ := mainOf_eq_some_iff.1 hmain
  exact mainposition_lt t k

/-- The links stay within the vector. -/
def Bounded (t : Table N V) : Prop := ∀ a b, t.next a = some b → a < t.sizenode ∧ b < t.sizenode

theorem mem_chain_iff (hchained : Chained t.next) (hbounded : Bounded t) {a b : ℕ}
    (ha : a < t.sizenode) : b ∈ t.chain a ↔ Reaches t.next a b :=
  hchained.mem_chainFrom_iff ha fun c d hnext ↦ (hbounded c d hnext).2

theorem findPrevNode_of_reaches (hchained : Chained t.next) (hbounded : Bounded t) {mp i : ℕ}
    (hmp : mp < t.sizenode) (hreach : Reaches t.next mp i) (hne : mp ≠ i) :
    ∃ prev, findPrevNode t mp i = some prev ∧ t.next prev = some i := by
  obtain ⟨prev, hprev, hnext⟩ := hreach.exists_prev hne
  rcases hfind : findPrevNode t mp i with - | found
  · have hnone := List.find?_eq_none.1 hfind prev ((mem_chain_iff hchained hbounded hmp).2 hprev)
    simp [hnext] at hnone
  · have hfound := List.find?_some hfind
    exact ⟨found, rfl, by simpa using hfound⟩

theorem reaches_of_findPrevNode (hchained : Chained t.next) (hbounded : Bounded t) {mp i prev : ℕ}
    (hmp : mp < t.sizenode) (hfind : findPrevNode t mp i = some prev) :
    t.next prev = some i ∧ Reaches t.next mp i := by
  have hmem := (mem_chain_iff hchained hbounded hmp).1 (List.mem_of_find?_eq_some hfind)
  have hnext : t.next prev = some i := by simpa using List.find?_some hfind
  exact ⟨hnext, hmem.tail hnext⟩

/-! ### The partially rehashed vector -/

/-- The node is on the chain that starts at its main position. -/
def Settled (t : Table N V) (i : ℕ) : Prop := ∃ m, t.mainOf i = some m ∧ Reaches t.next m i

/-- A node of the vector that has a value. -/
def Live (t : Table N V) (i : ℕ) : Prop := i < t.sizenode ∧ (t.node i).val ≠ none

/-- The vector while its nodes are moved to their chains. -/
structure Mixed (t : Table N V) : Prop where
  chained : Chained t.next
  bounded : Bounded t
  free : ∀ i < t.sizenode, (t.node i).val = none →
    (t.node i).key = .nil ∧ Isolated t.next i
  keyed : ∀ i, Live t i → ∃ m, t.mainOf i = some m
  linked : ∀ a b, t.next a = some b →
    ∃ m, t.mainOf a = some m ∧ t.mainOf b = some m ∧ Reaches t.next m a
  distinct : ∀ i j, Live t i → Live t j → (t.node i).key = (t.node j).key → i = j

/-- The nodes hold the value under the key. -/
def NodeHolds (t : Table N V) (k : Key N) (v : V) : Prop :=
  ∃ i < t.sizenode, (t.node i).key = .key k ∧ (t.node i).val = some v

/-- A node that has a link, or that a link leads to, is settled. -/
theorem Mixed.isolated (hmixed : Mixed t) {i : ℕ} (hunsettled : ¬ Settled t i) :
    Isolated t.next i := by
  constructor
  · rcases hnext : t.next i with - | b
    · rfl
    · obtain ⟨m, hmain, -, hreach⟩ := hmixed.linked i b hnext
      exact absurd ⟨m, hmain, hreach⟩ hunsettled
  · intro a hnext
    obtain ⟨m, -, hmain, hreach⟩ := hmixed.linked a i hnext
    exact hunsettled ⟨m, hmain, hreach.tail hnext⟩

/-- All nodes of a chain have one main position. -/
theorem Mixed.mainOf_eq (hmixed : Mixed t) {a b : ℕ} (hreach : Reaches t.next a b) :
    t.mainOf b = t.mainOf a := by
  refine hreach.rule (fun c ↦ t.mainOf c = t.mainOf a) rfl fun c d hc hnext ↦ ?_
  obtain ⟨m, hmain, hmain', -⟩ := hmixed.linked c d hnext
  exact hmain'.trans (hmain.symm.trans hc)

/-! ### Nodes that change their places -/

/-- The table when two nodes have changed their places. -/
def Table.exchange (t : Table N V) (i j : ℕ) : Table N V :=
  { t with
    node := fun x ↦
      { t.node (Equiv.swap i j x) with
        next := (t.next (Equiv.swap i j x)).map (Equiv.swap i j) } }

section Exchange

variable {c mp : ℕ}

theorem mainOf_exchange (x : ℕ) : (t.exchange c mp).mainOf x = t.mainOf (Equiv.swap c mp x) := rfl

theorem swap_lt {size : ℕ} (hc : c < size) (hmp : mp < size) {x : ℕ} :
    Equiv.swap c mp x < size ↔ x < size := by
  rw [Equiv.swap_apply_def]
  split_ifs with hxc hxmp
  · exact ⟨fun _ ↦ hxc ▸ hc, fun _ ↦ hmp⟩
  · exact ⟨fun _ ↦ hxmp ▸ hmp, fun _ ↦ hc⟩
  · rfl

theorem nodeHolds_exchange (hc : c < t.sizenode) (hmp : mp < t.sizenode) {k : Key N} {v : V} :
    NodeHolds (t.exchange c mp) k v ↔ NodeHolds t k v := by
  constructor
  · rintro ⟨i, hi, hkey, hval⟩
    exact ⟨Equiv.swap c mp i, (swap_lt hc hmp).2 hi, hkey, hval⟩
  · rintro ⟨i, hi, hkey, hval⟩
    refine ⟨Equiv.swap c mp i, (swap_lt hc hmp).2 hi, ?_, ?_⟩
    · change (t.node (Equiv.swap c mp (Equiv.swap c mp i))).key = _
      rw [Equiv.swap_apply_self]
      exact hkey
    · change (t.node (Equiv.swap c mp (Equiv.swap c mp i))).val = _
      rw [Equiv.swap_apply_self]
      exact hval

/-- A node that is not settled, and whose main position is free or holds a node out of its own main
position: no chain starts at either of the two. -/
structure Movable (t : Table N V) (c mp : ℕ) : Prop where
  main : t.mainOf c = some mp
  unsettled : ¬ Settled t c
  other : t.mainOf mp ≠ some mp
  lt : c < t.sizenode

theorem Movable.ne (hmovable : Movable t c mp) : mp ≠ c := by
  rintro rfl
  exact hmovable.other hmovable.main

theorem Movable.root (hmovable : Movable t c mp) (hmixed : Mixed t) {x m : ℕ}
    (hmain : t.mainOf x = some m) (hreach : Reaches t.next m x) : m ≠ c ∧ m ≠ mp := by
  have hself : t.mainOf m = some m := (hmixed.mainOf_eq hreach).symm.trans hmain
  constructor
  · rintro rfl
    exact hmovable.ne (Option.some.inj (hmovable.main.symm.trans hself))
  · rintro rfl
    exact hmovable.other hself

theorem Movable.swap_root (hmovable : Movable t c mp) (hmixed : Mixed t) {x m : ℕ}
    (hmain : t.mainOf x = some m) (hreach : Reaches t.next m x) : Equiv.swap c mp m = m :=
  Equiv.swap_apply_of_ne_of_ne (hmovable.root hmixed hmain hreach).1
    (hmovable.root hmixed hmain hreach).2

/-- A settled node stays settled where it has been put. -/
theorem Movable.settled (hmovable : Movable t c mp) (hmixed : Mixed t) {x : ℕ}
    (hsettled : Settled t (Equiv.swap c mp x)) : Settled (t.exchange c mp) x := by
  obtain ⟨m, hmain, hreach⟩ := hsettled
  refine ⟨m, hmain, ?_⟩
  have hafter : Reaches (Links.exchange t.next c mp) _ _ := hreach.exchange
  rw [hmovable.swap_root hmixed hmain hreach, Equiv.swap_apply_self] at hafter
  exact hafter

theorem Movable.settled_main (hmovable : Movable t c mp) : Settled (t.exchange c mp) mp := by
  refine ⟨mp, ?_, .refl mp⟩
  rw [mainOf_exchange, Equiv.swap_apply_right]
  exact hmovable.main

theorem Movable.mixed (hmovable : Movable t c mp) (hmixed : Mixed t) : Mixed (t.exchange c mp) := by
  have hlt := mainOf_lt hmovable.main
  constructor
  · exact hmixed.chained.exchange
  · intro a b hnext
    obtain ⟨ha, hb⟩ := hmixed.bounded _ _ (of_exchange_eq_some hnext)
    exact ⟨(swap_lt hmovable.lt hlt).1 ha, (swap_lt hmovable.lt hlt).1 hb⟩
  · intro i hi hval
    obtain ⟨hkey, hisolated⟩ := hmixed.free _ ((swap_lt hmovable.lt hlt).2 hi) hval
    refine ⟨hkey, ?_⟩
    have hafter : Isolated (Links.exchange t.next c mp) _ := hisolated.exchange
    rw [Equiv.swap_apply_self] at hafter
    exact hafter
  · intro i hlive
    exact hmixed.keyed _ ⟨(swap_lt hmovable.lt hlt).2 hlive.1, hlive.2⟩
  · intro a b hnext
    obtain ⟨m, hmain, hmain', hreach⟩ := hmixed.linked _ _ (of_exchange_eq_some hnext)
    refine ⟨m, hmain, hmain', ?_⟩
    have hafter : Reaches (Links.exchange t.next c mp) _ _ := hreach.exchange
    rw [hmovable.swap_root hmixed hmain hreach, Equiv.swap_apply_self] at hafter
    exact hafter
  · intro i j hi hj hkey
    exact (Equiv.swap c mp).injective (hmixed.distinct _ _
      ⟨(swap_lt hmovable.lt hlt).2 hi.1, hi.2⟩ ⟨(swap_lt hmovable.lt hlt).2 hj.1, hj.2⟩ hkey)

/-! ### What `move_node` does -/

theorem Node.eq_of_next {n : Node N V} {next : Option ℕ} (hnext : n.next = next) :
    { n with next := next } = n := by
  subst hnext
  rfl

/-- Links to other nodes are as they were. -/
theorem map_swap_of_ne {link : Option ℕ} (hne : ∀ y, link = some y → y ≠ c ∧ y ≠ mp) :
    link.map (Equiv.swap c mp) = link := by
  rcases link with - | y
  · rfl
  · rw [Option.map_some, Equiv.swap_apply_of_ne_of_ne (hne y rfl).1 (hne y rfl).2]

theorem node_exchange (x : ℕ) : (t.exchange c mp).node x =
    { t.node (Equiv.swap c mp x) with
      next := (t.next (Equiv.swap c mp x)).map (Equiv.swap c mp) } := rfl

theorem node_exchange_of_links {x : ℕ}
    (hne : ∀ y, t.next (Equiv.swap c mp x) = some y → y ≠ c ∧ y ≠ mp) :
    (t.exchange c mp).node x = t.node (Equiv.swap c mp x) := by
  rw [node_exchange, map_swap_of_ne hne]
  exact Node.eq_of_next rfl

theorem exchange_of_isolated (hc : Isolated t.next c) (hmp : Isolated t.next mp) :
    (t.setNode c (t.node mp)).setNode mp (t.node c) = t.exchange c mp := by
  refine Table.ext rfl rfl (funext fun x ↦ ?_) rfl rfl rfl
  rw [node_exchange_of_links fun y hnext ↦ ⟨fun hyc ↦ hc.ne_some _ (hyc ▸ hnext),
    fun hymp ↦ hmp.ne_some _ (hymp ▸ hnext)⟩]
  by_cases hxmp : x = mp
  · rw [hxmp, node_setNode_self, Equiv.swap_apply_right]
  · rw [node_setNode_of_ne _ _ hxmp]
    by_cases hxc : x = c
    · rw [hxc, node_setNode_self, Equiv.swap_apply_left]
    · rw [node_setNode_of_ne _ _ hxc, Equiv.swap_apply_of_ne_of_ne hxc hxmp]

theorem exchange_of_link (hne : mp ≠ c) (hchained : Chained t.next) (hc : Isolated t.next c)
    {prev : ℕ} (hprev : t.next prev = some mp) :
    ((t.setNext prev (some c)).setNode c ((t.setNext prev (some c)).node mp)).setNode mp
      (t.node c) = t.exchange c mp := by
  have hprevmp : mp ≠ prev := by
    rintro rfl
    obtain ⟨rank, hrank⟩ := hchained.ends
    exact Nat.lt_irrefl _ (hrank _ _ hprev)
  have hprevc : prev ≠ c := by
    rintro rfl
    rw [hc.next_eq] at hprev
    cases hprev
  have hswap : Equiv.swap c mp prev = prev := Equiv.swap_apply_of_ne_of_ne hprevc (Ne.symm hprevmp)
  refine Table.ext rfl rfl (funext fun x ↦ ?_) rfl rfl rfl
  by_cases hxprev : x = prev
  · rw [hxprev, node_setNode_of_ne _ _ (Ne.symm hprevmp), node_setNode_of_ne _ _ hprevc,
      node_exchange, hswap, hprev, Option.map_some, Equiv.swap_apply_right]
    exact node_setNode_self ..
  · rw [node_exchange_of_links fun y hnext ↦ ⟨fun hyc ↦ hc.ne_some _ (hyc ▸ hnext), fun hymp ↦ ?_⟩]
    · by_cases hxmp : x = mp
      · rw [hxmp, node_setNode_self, Equiv.swap_apply_right]
      · rw [node_setNode_of_ne _ _ hxmp]
        by_cases hxc : x = c
        · rw [hxc, node_setNode_self, Equiv.swap_apply_left]
          exact node_setNode_of_ne _ _ hprevmp
        · rw [node_setNode_of_ne _ _ hxc, Equiv.swap_apply_of_ne_of_ne hxc hxmp]
          exact node_setNode_of_ne _ _ hxprev
    · have hsame : Equiv.swap c mp x = prev := hchained.injective (hymp ▸ hnext) hprev
      rw [Equiv.swap_apply_eq_iff, hswap] at hsame
      exact hxprev hsame

/-- A free node has nothing in it. -/
theorem Mixed.node_eq_emptyNode (hmixed : Mixed t) {i : ℕ} (hi : i < t.sizenode)
    (hval : (t.node i).val = none) : t.node i = emptyNode := by
  obtain ⟨hkey, hisolated⟩ := hmixed.free i hi hval
  have hnext : (t.node i).next = none := hisolated.next_eq
  rcases hnode : t.node i with ⟨key, val, next⟩
  rw [hnode] at hkey hval hnext
  dsimp only at hkey hval hnext
  rw [hkey, hval, hnext]
  rfl

end Exchange

/-- The table when a node has been put behind its main position. -/
def Table.behind (t : Table N V) (mp c : ℕ) : Table N V :=
  (t.setNext c (t.next mp)).setNext mp (some c)

section Behind

variable {c mp : ℕ}

theorem node_behind (hne : mp ≠ c) (x : ℕ) :
    (t.behind mp c).node x = { t.node x with next := link t.next mp c x } := by
  rw [Table.behind, Table.setNext, link]
  by_cases hxmp : x = mp
  · rw [hxmp, node_setNode_self, if_pos rfl, Table.setNext, node_setNode_of_ne _ _ hne]
  · rw [node_setNode_of_ne _ _ hxmp, if_neg hxmp, Table.setNext]
    by_cases hxc : x = c
    · rw [hxc, node_setNode_self, if_pos rfl]
    · rw [node_setNode_of_ne _ _ hxc, if_neg hxc]
      rfl

theorem next_behind (hne : mp ≠ c) : (t.behind mp c).next = link t.next mp c := by
  funext x
  rw [Table.next, node_behind hne]

theorem mainOf_behind (hne : mp ≠ c) (x : ℕ) : (t.behind mp c).mainOf x = t.mainOf x := by
  unfold Table.mainOf
  rw [node_behind hne]
  rfl

theorem nodeHolds_behind (hne : mp ≠ c) {k : Key N} {v : V} :
    NodeHolds (t.behind mp c) k v ↔ NodeHolds t k v := by
  refine exists_congr fun i ↦ and_congr_right fun _ ↦ ?_
  rw [node_behind hne]

theorem Settled.behind (hne : mp ≠ c) (hisolated : Isolated t.next c) {x : ℕ}
    (hsettled : Settled t x) : Settled (t.behind mp c) x := by
  obtain ⟨m, hmain, hreach⟩ := hsettled
  refine ⟨m, (mainOf_behind hne x).trans hmain, ?_⟩
  rw [next_behind hne]
  exact hreach.link hisolated (Ne.symm hne)

/-- A node that is not settled is put behind the node in its main position, which is in its own. -/
theorem Mixed.behind (hmixed : Mixed t) (hne : mp ≠ c) (hc : t.mainOf c = some mp)
    (hmp : t.mainOf mp = some mp) (hunsettled : ¬ Settled t c) (hlt : c < t.sizenode)
    (hlivec : (t.node c).val ≠ none) (hlivemp : (t.node mp).val ≠ none) :
    Mixed (t.behind mp c) ∧ Settled (t.behind mp c) c := by
  have hisolated := hmixed.isolated hunsettled
  have hfirst : link t.next mp c mp = some c := if_pos rfl
  constructor
  · constructor
    · rw [next_behind hne]
      exact hmixed.chained.link hisolated (Ne.symm hne)
    · intro a b hnext
      rw [next_behind hne, link] at hnext
      split_ifs at hnext with hamp hac
      · obtain rfl := Option.some.inj hnext
        have hmplt := mainOf_lt hc
        exact ⟨hamp ▸ hmplt, hlt⟩
      · exact ⟨hac ▸ hlt, (hmixed.bounded _ _ hnext).2⟩
      · exact hmixed.bounded a b hnext
    · intro i hi hval
      rw [node_behind hne] at hval ⊢
      obtain ⟨hkey, hfree⟩ := hmixed.free i hi hval
      have himp : i ≠ mp := fun heq ↦ hlivemp (heq ▸ hval)
      have hic : i ≠ c := fun heq ↦ hlivec (heq ▸ hval)
      refine ⟨hkey, ?_, fun b hnext ↦ ?_⟩
      · rw [next_behind hne, link, if_neg himp, if_neg hic, hfree.next_eq]
      · rw [next_behind hne, link] at hnext
        split_ifs at hnext
        · exact hic (Option.some.inj hnext).symm
        · exact hfree.ne_some _ hnext
        · exact hfree.ne_some _ hnext
    · intro i hlive
      rw [mainOf_behind hne]
      refine hmixed.keyed i ⟨hlive.1, ?_⟩
      have hval := hlive.2
      rwa [node_behind hne] at hval
    · intro a b hnext
      rw [mainOf_behind hne, mainOf_behind hne]
      rw [next_behind hne] at hnext ⊢
      rw [link] at hnext
      split_ifs at hnext with hamp hac
      · obtain rfl := Option.some.inj hnext
        subst hamp
        exact ⟨a, hmp, hc, .refl a⟩
      · obtain ⟨m, hmain, hmain', -⟩ := hmixed.linked _ _ hnext
        obtain rfl := Option.some.inj (hmp.symm.trans hmain)
        subst hac
        exact ⟨mp, hc, hmain', .head hfirst (.refl a)⟩
      · obtain ⟨m, hmain, hmain', hreach⟩ := hmixed.linked a b hnext
        exact ⟨m, hmain, hmain', hreach.link hisolated (Ne.symm hne)⟩
    · intro i j hi hj hkey
      have hvali := hi.2
      have hvalj := hj.2
      rw [node_behind hne] at hvali hvalj
      rw [node_behind hne, node_behind hne] at hkey
      exact hmixed.distinct i j ⟨hi.1, hvali⟩ ⟨hj.1, hvalj⟩ hkey
  · refine ⟨mp, (mainOf_behind hne c).trans hc, ?_⟩
    rw [next_behind hne]
    exact .head hfirst (.refl c)

end Behind

section Moves

variable {c : ℕ} {after : Table N V}

/-- What moving a node does: the values stay in the vector, and all other nodes that were settled
are settled. -/
structure Moved (c : ℕ) (t after : Table N V) : Prop where
  mixed : Mixed after
  holds : ∀ k v, NodeHolds after k v ↔ NodeHolds t k v
  settled : ∀ i, i ≠ c → (Live t i → Settled t i) → Live after i → Settled after i
  rest : after = { t with node := after.node }

theorem Moved.trans {first second : Table N V} (hfirst : Moved c t first)
    (hsecond : Moved c first second) : Moved c t second where
  mixed := hsecond.mixed
  holds := fun k v ↦ (hsecond.holds k v).trans (hfirst.holds k v)
  settled := fun i hne hsettled ↦ hsecond.settled i hne (hfirst.settled i hne hsettled)
  rest := by
    rw [hsecond.rest, hfirst.rest]

theorem Mixed.moved_self (hmixed : Mixed t) (c : ℕ) : Moved c t t :=
  ⟨hmixed, fun _ _ ↦ .rfl, fun _ _ hsettled ↦ hsettled, rfl⟩

theorem Movable.moved {mp : ℕ} (hmovable : Movable t c mp) (hmixed : Mixed t) :
    Moved c t (t.exchange c mp) where
  mixed := hmovable.mixed hmixed
  holds := fun _ _ ↦ nodeHolds_exchange hmovable.lt (mainOf_lt hmovable.main)
  settled := by
    intro i hic hsettled hlive
    by_cases himp : i = mp
    · rw [himp]
      exact hmovable.settled_main
    · have hsame : Equiv.swap c mp i = i := Equiv.swap_apply_of_ne_of_ne hic himp
      refine hmovable.settled hmixed ?_
      rw [hsame]
      have hval := hlive.2
      rw [node_exchange, hsame] at hval
      exact hsettled ⟨hlive.1, hval⟩
  rest := rfl

/-- How many nodes are in their main positions. -/
def inPlace (t : Table N V) : ℕ :=
  ((Finset.range t.sizenode).filter fun i ↦ t.mainOf i = some i).card

theorem inPlace_le (t : Table N V) : inPlace t ≤ t.sizenode := by
  have hle := Finset.card_filter_le (Finset.range t.sizenode) fun i ↦ t.mainOf i = some i
  rwa [Finset.card_range] at hle

/-- A node comes to its main position, and no other one leaves it. -/
theorem Movable.inPlace_lt {mp : ℕ} (hmovable : Movable t c mp) :
    inPlace t < inPlace (t.exchange c mp) := by
  have hmplt : mp < t.sizenode := mainOf_lt hmovable.main
  refine Finset.card_lt_card ?_
  rw [Finset.ssubset_iff_of_subset]
  · refine ⟨mp, ?_, ?_⟩
    · rw [Finset.mem_filter, Finset.mem_range, mainOf_exchange, Equiv.swap_apply_right]
      exact ⟨hmplt, hmovable.main⟩
    · rw [Finset.mem_filter]
      exact fun hmem ↦ hmovable.other hmem.2
  · intro i hi
    rw [Finset.mem_filter] at hi ⊢
    refine ⟨hi.1, ?_⟩
    have hic : i ≠ c := by
      rintro rfl
      exact hmovable.ne (Option.some.inj (hmovable.main.symm.trans hi.2))
    have himp : i ≠ mp := by
      rintro rfl
      exact hmovable.other hi.2
    rw [mainOf_exchange, Equiv.swap_apply_of_ne_of_ne hic himp]
    exact hi.2

/-- A result of `move_node`. If the node has to be moved again, there is one more in its main
position. -/
def Moves (t : Table N V) (c : ℕ) (result : Option (Table N V × Bool)) : Prop :=
  ∃ after done, result = some (after, done) ∧ Moved c t after ∧
    (done = true → Live after c → Settled after c) ∧
    (done = false → Live after c ∧ inPlace t < inPlace after)

theorem Moved.moves (hmoved : Moved c t after) (hsettled : Live after c → Settled after c) :
    Moves t c (some (after, true)) :=
  ⟨after, true, rfl, hmoved, fun _ ↦ hsettled, fun hdone ↦ Bool.noConfusion hdone⟩

theorem Mixed.not_settled (hmixed : Mixed t) {i m : ℕ} (hmain : t.mainOf i = some m) (hne : m ≠ i)
    (hfind : findPrevNode t m i = none) : ¬ Settled t i := by
  rintro ⟨other, hother, hreach⟩
  obtain rfl := Option.some.inj (hmain.symm.trans hother)
  obtain ⟨prev, hprev, -⟩ :=
    findPrevNode_of_reaches hmixed.chained hmixed.bounded (mainOf_lt hmain) hreach hne
  rw [hfind] at hprev
  cases hprev

/-- The main position is free. -/
theorem Mixed.moves_free (hmixed : Mixed t) {mp : ℕ} (hlt : c < t.sizenode)
    (hmain : t.mainOf c = some mp) (hunsettled : ¬ Settled t c) (hfree : (t.node mp).val = none) :
    Moves t c (some ((t.setNode mp (t.node c)).setNode c emptyNode, true)) := by
  have hmplt := mainOf_lt hmain
  have hempty := hmixed.node_eq_emptyNode hmplt hfree
  have hother : t.mainOf mp ≠ some mp := by
    rw [Table.mainOf, hempty]
    exact fun hnone ↦ by cases hnone
  have hmovable : Movable t c mp := ⟨hmain, hunsettled, hother, hlt⟩
  have hexchange : (t.setNode mp (t.node c)).setNode c emptyNode = t.exchange c mp := by
    rw [← exchange_of_isolated (hmixed.isolated hunsettled) (hmixed.free mp hmplt hfree).2, hempty,
      Table.setNode, Table.setNode, Table.setNode, Table.setNode, Function.update_comm hmovable.ne]
  rw [hexchange]
  refine (hmovable.moved hmixed).moves fun hlive ↦ absurd hfree ?_
  have hval := hlive.2
  rwa [node_exchange, Equiv.swap_apply_left] at hval

/-- The colliding node is in its own main position. -/
theorem Mixed.moves_behind (hmixed : Mixed t) {mp : ℕ} (hlive : Live t c)
    (hmain : t.mainOf c = some mp) (hne : mp ≠ c) (hunsettled : ¬ Settled t c)
    (hval : (t.node mp).val ≠ none) (hown : t.mainOf mp = some mp) :
    Moves t c (some ((t.setNext c (t.next mp)).setNext mp (some c), true)) := by
  obtain ⟨hbehind, hsettled⟩ := hmixed.behind hne hmain hown hunsettled hlive.1 hlive.2 hval
  have hmoved : Moved c t (t.behind mp c) := by
    refine ⟨hbehind, fun _ _ ↦ nodeHolds_behind hne, fun i _ hbefore hafter ↦ ?_, rfl⟩
    have hval := hafter.2
    rw [node_behind hne] at hval
    exact (hbefore ⟨hafter.1, hval⟩).behind hne (hmixed.isolated hunsettled)
  exact hmoved.moves fun _ ↦ hsettled

/-- The colliding node is out of its main position: the two change their places, and it is done if
the colliding node was on its chain. -/
theorem Mixed.moves_exchange (hmixed : Mixed t) {mp othermp : ℕ} (hlt : c < t.sizenode)
    (hmain : t.mainOf c = some mp) (hne : mp ≠ c) (hunsettled : ¬ Settled t c)
    (hval : (t.node mp).val ≠ none) (hothermp : t.mainOf mp = some othermp)
    (hother : othermp ≠ mp) :
    Moves t c
      (match findPrevNode t othermp mp with
      | some prev =>
        some (((t.setNext prev (some c)).setNode c ((t.setNext prev (some c)).node mp)).setNode mp
          (t.node c), true)
      | none => some ((t.setNode c (t.node mp)).setNode mp (t.node c), false)) := by
  have hisolated := hmixed.isolated hunsettled
  have hmovable : Movable t c mp :=
    ⟨hmain, hunsettled, fun heq ↦ hother (Option.some.inj (hothermp.symm.trans heq)), hlt⟩
  rcases hprev : findPrevNode t othermp mp with - | prev
  · have hunlinked := hmixed.isolated (hmixed.not_settled hothermp hother hprev)
    dsimp only
    rw [exchange_of_isolated hisolated hunlinked]
    refine ⟨_, false, rfl, hmovable.moved hmixed, (fun hdone ↦ by cases hdone),
      fun _ ↦ ⟨⟨hlt, ?_⟩, hmovable.inPlace_lt⟩⟩
    rwa [node_exchange, Equiv.swap_apply_left]
  · obtain ⟨hnext, hreach⟩ :=
      reaches_of_findPrevNode hmixed.chained hmixed.bounded (mainOf_lt hothermp) hprev
    dsimp only
    rw [exchange_of_link hne hmixed.chained hisolated hnext]
    refine (hmovable.moved hmixed).moves fun _ ↦ hmovable.settled hmixed ?_
    rw [Equiv.swap_apply_left]
    exact ⟨othermp, hothermp, hreach⟩

theorem Mixed.moveNode (hmixed : Mixed t) (hdummy : t.dummy = false) (hlive : Live t c) :
    Moves t c (moveNode t c) := by
  obtain ⟨mp, hmain⟩ := hmixed.keyed c hlive
  have hmplt := mainOf_lt hmain
  rw [Tables.moveNode, hmain]
  dsimp only
  by_cases hself : mp = c
  · rw [if_pos hself]
    exact (hmixed.moved_self c).moves fun _ ↦ ⟨c, hself ▸ hmain, .refl c⟩
  rw [if_neg hself]
  rcases hfind : findPrevNode t mp c with - | prev
  · have hunsettled := hmixed.not_settled hmain hself hfind
    rw [if_neg (by rw [Option.isSome_none]; exact Bool.false_ne_true)]
    by_cases hval : (t.node mp).val = none
    · rw [if_neg (by rw [hval, hdummy]; simp)]
      exact hmixed.moves_free hlive.1 hmain hunsettled hval
    · obtain ⟨othermp, hothermp⟩ := hmixed.keyed mp ⟨hmplt, hval⟩
      rw [if_pos (.inl (Option.isSome_iff_ne_none.2 hval)), hothermp]
      dsimp only
      by_cases hother : othermp = mp
      · rw [if_neg (not_not.2 hother)]
        exact hmixed.moves_behind hlive hmain hself hunsettled hval (hother ▸ hothermp)
      · rw [if_pos hother]
        exact hmixed.moves_exchange hlive.1 hmain hself hunsettled hval hothermp hother
  · rw [if_pos Option.isSome_some]
    have hreach := (reaches_of_findPrevNode hmixed.chained hmixed.bounded hmplt hfind).2
    exact (hmixed.moved_self c).moves fun _ ↦ ⟨mp, hmain, hreach⟩

/-- The loop that moves a node ends. -/
theorem Mixed.moveLoop (turns : ℕ) (hmixed : Mixed t) (hdummy : t.dummy = false) (hlive : Live t c)
    (hturns : t.sizenode - inPlace t < turns) :
    ∃ after, moveLoop turns t c = some after ∧ Moved c t after ∧
      (Live after c → Settled after c) := by
  induction turns generalizing t with
  | zero => exact absurd hturns (Nat.not_lt_zero _)
  | succ turns ih =>
    obtain ⟨after, done, hmove, hmoved, hdone, hagain⟩ := hmixed.moveNode hdummy hlive
    rw [Tables.moveLoop, hmove]
    cases done with
    | true => exact ⟨after, rfl, hmoved, hdone rfl⟩
    | false =>
      obtain ⟨hlive', hless⟩ := hagain rfl
      have hsize : after.sizenode = t.sizenode := by rw [hmoved.rest]; rfl
      have hdummy' : after.dummy = false := by rw [hmoved.rest]; exact hdummy
      have hle := inPlace_le after
      obtain ⟨last, hlast, hmoved', hsettled⟩ := ih hmoved.mixed hdummy' hlive' (by omega)
      exact ⟨last, hlast, hmoved.trans hmoved', hsettled⟩

/-- The first nodes are moved to their chains. -/
theorem Mixed.chainNodes (hmixed : Mixed t) (hdummy : t.dummy = false) {count : ℕ}
    (hcount : count ≤ t.sizenode) :
    ∃ after, (List.range count).foldlM chainNode t = some after ∧ Mixed after ∧
      (∀ k v, NodeHolds after k v ↔ NodeHolds t k v) ∧
      (∀ i < count, Live after i → Settled after i) ∧ after = { t with node := after.node } := by
  induction count with
  | zero => exact ⟨t, rfl, hmixed, fun _ _ ↦ .rfl, fun i hi ↦ absurd hi (Nat.not_lt_zero i), rfl⟩
  | succ count ih =>
    obtain ⟨before, hbefore, hmixed', hholds, hsettled, hrest⟩ := ih (Nat.le_of_succ_le hcount)
    have hsize : before.sizenode = t.sizenode := by rw [hrest]; rfl
    have hdummy' : before.dummy = false := by rw [hrest]; exact hdummy
    have hturn : ∃ after, chainNode before count = some after ∧ Moved count before after ∧
        (Live after count → Settled after count) := by
      rw [chainNode]
      by_cases hval : (before.node count).val = none
      · rw [hval]
        exact ⟨before, rfl, hmixed'.moved_self count, fun hlive ↦ absurd hval hlive.2⟩
      · rw [if_pos (Option.isSome_iff_ne_none.2 hval)]
        exact hmixed'.moveLoop _ hdummy' ⟨hsize ▸ hcount, hval⟩ (by omega)
    obtain ⟨after, hafter, hmoved, hlast⟩ := hturn
    refine ⟨after, ?_, hmoved.mixed, fun k v ↦ (hmoved.holds k v).trans (hholds k v),
      fun i hi hlive ↦ ?_, ?_⟩
    · rw [List.range_succ, List.foldlM_append, hbefore]
      change ([count].foldlM chainNode before) = some after
      rw [List.foldlM_cons, hafter]
      rfl
    · rcases Nat.lt_succ_iff_lt_or_eq.1 hi with hless | rfl
      · exact hmoved.settled i (Nat.ne_of_lt hless) (hsettled i hless) hlive
      · exact hlast hlive
    · rw [hmoved.rest, hrest]

end Moves

end Elua.Lua.Tables
