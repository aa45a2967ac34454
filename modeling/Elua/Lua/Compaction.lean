import Elua.Lua.NodeMoves

/-!
# Compacting the nodes

`resize_hashpart` works in place. The loop before the last one breaks all chains, moves the integer
keys that fit there to the array, and, if the vector gets smaller, moves every node behind its new
end to a free one before it. `Compacting` is what holds after a number of its turns: the nodes that
are still to be kept hold the values there were, and at most as many of them stay in the vector as
it will have nodes. So the search for a free node finds one (`Compacting.step`).
-/

set_option autoImplicit false
set_option relaxedAutoImplicit false

namespace Elua.Lua.Tables

open Foundation Links

variable {N : KeyNumbers} {V : Type*} {t : Table N V}

/-! ### The array -/

/-- The key belongs to the array. -/
def InArray (t : Table N V) (k : Key N) : Prop := 1 ≤ arrayindex k ∧ arrayindex k ≤ t.sizearray

/-- The array holds the value under the key. -/
def ArrayHolds (t : Table N V) (k : Key N) (v : V) : Prop :=
  InArray t k ∧ t.array.getD (arrayindex k - 1).toNat none = some v

/-- The table holds the value under the key. -/
def Table.Holds (t : Table N V) (k : Key N) (v : V) : Prop := ArrayHolds t k v ∨ NodeHolds t k v

theorem eq_of_arrayindex {k : Key N} (hpos : 1 ≤ arrayindex k) :
    k = .number (N.castNum (arrayindex k)) := by
  rcases k with n | str | b | ⟨tt, address⟩
  · rw [arrayindex] at hpos ⊢
    split_ifs at hpos ⊢ with hint
    · rw [hint]
    · omega
  all_goals
    rw [arrayindex] at hpos
    · omega
    · rintro n hn
      cases hn

theorem arrayindex_castNum {a : ℤ} (hlow : -intMax - 1 ≤ a) (hhigh : a ≤ intMax) :
    arrayindex (Key.number (N.castNum a) : Key N) = a := by
  rw [arrayindex, N.number2int_castNum a hlow hhigh, if_pos rfl]

theorem key_ext {k k' : Key N} (hpos : 1 ≤ arrayindex k) (hsame : arrayindex k = arrayindex k') :
    k = k' := by
  have hk := eq_of_arrayindex hpos
  have hk' := eq_of_arrayindex (hsame ▸ hpos)
  rw [hsame] at hk
  exact hk.trans hk'.symm

theorem arrayHolds_set {k : Key N} (hin : InArray t k) (hlength : t.sizearray ≤ t.array.length)
    (value : Option V) {k' : Key N} {v : V} :
    ArrayHolds { t with array := t.array.set (arrayindex k - 1).toNat value } k' v ↔
      if k' = k then value = some v else ArrayHolds t k' v := by
  have hlt : (arrayindex k - 1).toNat < t.array.length := by
    have hle := hin.2
    have hpos := hin.1
    omega
  change InArray t k' ∧ (t.array.set _ _).getD _ none = some v ↔ _
  split_ifs with hsame
  · subst hsame
    rw [List.getD_eq_getElem?_getD, List.getElem?_set_self hlt, Option.getD_some]
    exact and_iff_right hin
  · refine and_congr_right fun hin' ↦ ?_
    have hne : (arrayindex k - 1).toNat ≠ (arrayindex k' - 1).toNat := by
      intro heq
      have hpos := hin.1
      have hpos' := hin'.1
      exact hsame (key_ext hpos' (by omega))
    rw [List.getD_eq_getElem?_getD, List.getElem?_set_ne hne, List.getD_eq_getElem?_getD]

/-- A node goes to the array. -/
def Table.toArray (t : Table N V) (i : ℕ) (k : Key N) : Table N V :=
  { t.setNode i emptyNode with array := t.array.set (arrayindex k - 1).toNat (t.node i).val }

theorem arrayHolds_toArray {i : ℕ} {k : Key N} (hin : InArray t k)
    (hlength : t.sizearray ≤ t.array.length) {k' : Key N} {v : V} :
    ArrayHolds (t.toArray i k) k' v ↔
      if k' = k then (t.node i).val = some v else ArrayHolds t k' v :=
  arrayHolds_set hin hlength (t.node i).val

/-! ### Free nodes -/

theorem freeBelow_none {node : ℕ → Node N V} {l l' : ℕ} (hfree : freeBelow node l = (l', none)) :
    l' = 0 ∧ ∀ j < l, (node j).key ≠ .nil := by
  induction l with
  | zero => exact ⟨(Prod.mk.inj hfree).1.symm, fun j hj ↦ absurd hj (Nat.not_lt_zero j)⟩
  | succ l ih =>
    rw [freeBelow] at hfree
    by_cases hnil : (node l).key = .nil
    · rw [if_pos hnil] at hfree
      cases hfree
    · rw [if_neg hnil] at hfree
      obtain ⟨hzero, hused⟩ := ih hfree
      refine ⟨hzero, fun j hj ↦ ?_⟩
      rcases Nat.lt_succ_iff_lt_or_eq.1 hj with hless | rfl
      · exact hused j hless
      · exact hnil

theorem freeBelow_some {node : ℕ → Node N V} {l l' n : ℕ}
    (hfree : freeBelow node l = (l', some n)) :
    l' = n ∧ n < l ∧ (node n).key = .nil ∧ ∀ j, n < j → j < l → (node j).key ≠ .nil := by
  induction l with
  | zero => cases hfree
  | succ l ih =>
    rw [freeBelow] at hfree
    split_ifs at hfree with hnil
    · obtain ⟨hl, hn⟩ := Prod.mk.inj hfree
      obtain rfl := Option.some.inj hn
      exact ⟨hl.symm, Nat.lt_succ_self _, hnil, fun j hlow hhigh ↦ absurd hhigh (by omega)⟩
    · obtain ⟨hl, hlt, hkey, hused⟩ := ih hfree
      refine ⟨hl, Nat.lt_succ_of_lt hlt, hkey, fun j hlow hhigh ↦ ?_⟩
      rcases Nat.lt_succ_iff_lt_or_eq.1 hhigh with hless | rfl
      · exact hused j hlow hless
      · exact hnil

/-! ### A turn of the loop -/

/-- A node is moved to a free one. -/
def Table.moveDown (t : Table N V) (i n : ℕ) : Table N V :=
  ({ t.setNext i none with lastfree := n }).setNode n { t.node i with next := none }

/-- What a turn does: it clears a node without a value, moves a node to the array, leaves a node
where it is, or moves it to a free one, unless it finds none. -/
inductive CompactTurn (nhsize : ℕ) (t : Table N V) (i : ℕ) : Option (Table N V) → Prop
  | clear (hval : (t.node i).val = none) : CompactTurn nhsize t i (some (t.setNode i emptyNode))
  | toArray {k : Key N} (hkey : (t.node i).key = .key k) (hval : (t.node i).val ≠ none)
      (hin : InArray t k) : CompactTurn nhsize t i (some (t.toArray i k))
  | stay {k : Key N} (hkey : (t.node i).key = .key k) (hval : (t.node i).val ≠ none)
      (hout : ¬ InArray t k) (hi : i < nhsize) : CompactTurn nhsize t i (some (t.setNext i none))
  | moveDown {k : Key N} (hkey : (t.node i).key = .key k) (hval : (t.node i).val ≠ none)
      (hout : ¬ InArray t k) (hi : nhsize ≤ i) {n : ℕ} (hn : n < t.lastfree)
      (hfree : (t.node n).key = .nil)
      (hused : ∀ j, n < j → j < t.lastfree → (t.node j).key ≠ .nil) :
      CompactTurn nhsize t i (some (t.moveDown i n))
  | stuck {k : Key N} (hkey : (t.node i).key = .key k) (hval : (t.node i).val ≠ none)
      (hout : ¬ InArray t k) (hi : nhsize ≤ i)
      (hused : ∀ j < t.lastfree, (t.node j).key ≠ .nil) : CompactTurn nhsize t i none

theorem key_setNext (t : Table N V) (i x : ℕ) (next : Option ℕ) :
    ((t.setNext i next).node x).key = (t.node x).key := by
  by_cases hx : x = i
  · rw [hx, Table.setNext, node_setNode_self]
  · rw [Table.setNext, node_setNode_of_ne _ _ hx]

theorem val_setNext (t : Table N V) (i x : ℕ) (next : Option ℕ) :
    ((t.setNext i next).node x).val = (t.node x).val := by
  by_cases hx : x = i
  · rw [hx, Table.setNext, node_setNode_self]
  · rw [Table.setNext, node_setNode_of_ne _ _ hx]

theorem setNode_setNode (t : Table N V) (i : ℕ) (n n' : Node N V) :
    (t.setNode i n).setNode i n' = t.setNode i n' := by
  rw [Table.setNode, Table.setNode, Table.setNode, Function.update_idem]

theorem compactTurn (nhsize : ℕ) (i : ℕ)
    (hkeyed : (t.node i).val ≠ none → ∃ k, (t.node i).key = .key k) :
    CompactTurn nhsize t i (compactNode nhsize t i) := by
  have hnode : (t.setNext i none).node i = { t.node i with next := none } := node_setNode_self ..
  rw [compactNode]
  dsimp only
  rw [hnode]
  by_cases hval : (t.node i).val = none
  · have hempty : (t.setNext i none).setNode i
        { ({ t.node i with next := none } : Node N V) with key := .nil } =
          t.setNode i emptyNode := by
      rw [Table.setNext, setNode_setNode]
      exact congrArg (t.setNode i) (Node.ext rfl hval rfl)
    rw [if_pos (Option.isNone_iff_eq_none.2 hval), hempty]
    exact .clear hval
  obtain ⟨k, hkey⟩ := hkeyed hval
  rw [if_neg (fun hnone ↦ hval (Option.isNone_iff_eq_none.1 hnone)), moveNumber, hnode]
  dsimp only
  rw [hkey]
  dsimp only
  by_cases hin : InArray t k
  · have hmoved : ({ (t.setNext i none).setNode i ⟨.nil, none, none⟩ with
        array := t.array.set (arrayindex k - 1).toNat (t.node i).val } : Table N V) =
          t.toArray i k := by
      rw [Table.setNext, setNode_setNode]
      rfl
    have hin' : 1 ≤ arrayindex k ∧ arrayindex k ≤ ((t.setNext i none).sizearray : ℤ) := hin
    rw [if_pos hin']
    change CompactTurn nhsize t i (some { (t.setNext i none).setNode i ⟨.nil, none, none⟩ with
      array := t.array.set (arrayindex k - 1).toNat (t.node i).val })
    rw [hmoved]
    exact .toArray hkey hval hin
  · have hout : ¬ (1 ≤ arrayindex k ∧ arrayindex k ≤ ((t.setNext i none).sizearray : ℤ)) := hin
    rw [if_neg hout]
    dsimp only
    by_cases hi : nhsize ≤ i
    · rw [if_pos hi, getfreepos]
      have hkeys : ∀ j, ((t.setNext i none).node j).key = (t.node j).key :=
        fun j ↦ key_setNext t i j none
      rcases hfree : freeBelow (t.setNext i none).node (t.setNext i none).lastfree with ⟨l, - | n⟩
      · obtain ⟨-, hused⟩ := freeBelow_none hfree
        exact .stuck hkey hval hin hi fun j hj ↦ hkeys j ▸ hused j hj
      · obtain ⟨rfl, hlt, hnil, hused⟩ := freeBelow_some hfree
        rw [hkeys] at hnil
        change CompactTurn nhsize t i (some (({ t.setNext i none with lastfree := l }).setNode l
          ((t.setNext i none).node i)))
        rw [hnode]
        refine .moveDown hkey hval hin hi hlt hnil fun j hlow hhigh ↦ ?_
        rw [← hkeys]
        exact hused j hlow hhigh
    · rw [if_neg hi]
      exact .stay hkey hval hin (Nat.lt_of_not_le hi)

/-! ### Nodes that are put elsewhere -/

/-- A node among the given ones that has a value. -/
def Used (among : ℕ → Prop) (t : Table N V) (j : ℕ) : Prop := among j ∧ (t.node j).val ≠ none

/-- A node among the given ones holds the value under the key. -/
def NodesHold (among : ℕ → Prop) (t : Table N V) (k : Key N) (v : V) : Prop :=
  ∃ j, among j ∧ (t.node j).key = .key k ∧ (t.node j).val = some v

/-- What the loop can start from, whatever the links are: the nodes have different keys, the array
has no values under these, and the keys that do not belong to it fit into a vector of `nh` nodes. -/
structure Loose (nh : ℕ) (among : ℕ → Prop) (t : Table N V) : Prop where
  keyed : ∀ j, Used among t j → ∃ k, (t.node j).key = .key k
  distinct : ∀ j j', Used among t j → Used among t j' → (t.node j).key = (t.node j').key → j = j'
  apart : ∀ j k, Used among t j → (t.node j).key = .key k → ∀ v, ¬ ArrayHolds t k v
  fits : ∀ s : Finset ℕ,
    (∀ j ∈ s, Used among t j ∧ ∀ k, (t.node j).key = .key k → ¬ InArray t k) → s.card ≤ nh

/-- Each used node of the second table is one of the first table. -/
structure Relocated (place : ℕ → ℕ) (among : ℕ → Prop) (t : Table N V) (among' : ℕ → Prop)
    (t' : Table N V) : Prop where
  used : ∀ j, Used among' t' j → Used among t (place j)
  key : ∀ j, Used among' t' j → (t.node (place j)).key = (t'.node j).key
  val : ∀ j, Used among' t' j → (t.node (place j)).val = (t'.node j).val
  injective : ∀ j j', Used among' t' j → Used among' t' j' → place j = place j' → j = j'

section Relocated

variable {nh : ℕ} {place : ℕ → ℕ} {among among' : ℕ → Prop} {t' : Table N V}

theorem Loose.relocate (hloose : Loose nh among t) (hplace : Relocated place among t among' t')
    (hsize : t'.sizearray = t.sizearray)
    (hapart : ∀ j k, Used among' t' j → (t'.node j).key = .key k → ∀ v, ¬ ArrayHolds t' k v) :
    Loose nh among' t' := by
  constructor
  · intro j hused
    rw [← hplace.key j hused]
    exact hloose.keyed _ (hplace.used j hused)
  · intro j j' hused hused' hkey
    rw [← hplace.key j hused, ← hplace.key j' hused'] at hkey
    exact hplace.injective j j' hused hused'
      (hloose.distinct _ _ (hplace.used j hused) (hplace.used j' hused') hkey)
  · exact hapart
  · intro s hs
    have hinjective : Set.InjOn place (s : Set ℕ) := fun j hj j' hj' ↦
      hplace.injective j j' (hs j hj).1 (hs j' hj').1
    rw [← Finset.card_image_of_injOn hinjective]
    refine hloose.fits _ fun i hi ↦ ?_
    obtain ⟨j, hj, rfl⟩ := Finset.mem_image.1 hi
    obtain ⟨hused, hout⟩ := hs j hj
    refine ⟨hplace.used j hused, fun k hkey hin ↦ hout k ?_ ?_⟩
    · rw [← hplace.key j hused, hkey]
    · rw [InArray, hsize]
      exact hin

theorem arrayHolds_congr (harray : t'.array = t.array) (hsize : t'.sizearray = t.sizearray)
    {k : Key N} {v : V} : ArrayHolds t' k v ↔ ArrayHolds t k v := by
  rw [ArrayHolds, ArrayHolds, InArray, InArray, harray, hsize]

theorem Relocated.apart (hplace : Relocated place among t among' t') (hloose : Loose nh among t)
    (harray : t'.array = t.array) (hsize : t'.sizearray = t.sizearray) (j : ℕ) (k : Key N)
    (hused : Used among' t' j) (hkey : (t'.node j).key = .key k) (v : V) : ¬ ArrayHolds t' k v := by
  rw [arrayHolds_congr harray hsize]
  exact hloose.apart _ k (hplace.used j hused) ((hplace.key j hused).trans hkey) v

theorem Relocated.nodesHold (hplace : Relocated place among t among' t')
    (honto : ∀ i, Used among t i → ∃ j, Used among' t' j ∧ place j = i) {k : Key N} {v : V} :
    NodesHold among' t' k v ↔ NodesHold among t k v := by
  constructor
  · rintro ⟨j, hj, hkey, hval⟩
    have hused : Used among' t' j := ⟨hj, fun hnone ↦ by rw [hnone] at hval; cases hval⟩
    exact ⟨place j, (hplace.used j hused).1, (hplace.key j hused).trans hkey,
      (hplace.val j hused).trans hval⟩
  · rintro ⟨i, hi, hkey, hval⟩
    obtain ⟨j, hused, rfl⟩ := honto i ⟨hi, fun hnone ↦ by rw [hnone] at hval; cases hval⟩
    exact ⟨j, hused.1, (hplace.key j hused).symm.trans hkey, (hplace.val j hused).symm.trans hval⟩

end Relocated

/-! ### The loop -/

/-- The nodes that are to be kept before a turn: those that the loop has not come to, and those
before the new end. -/
def Kept (oldh nh i j : ℕ) : Prop := j < oldh ∧ (i ≤ j ∨ j < nh)

/-- What holds before a turn of the loop. -/
structure Compacting (oldh nh i : ℕ) (t₀ t : Table N V) : Prop where
  loose : Loose nh (Kept oldh nh i) t
  holds : ∀ k v, ArrayHolds t k v ∨ NodesHold (Kept oldh nh i) t k v ↔
    ArrayHolds t₀ k v ∨ NodesHold (· < oldh) t₀ k v
  unlinked : ∀ j, j < i ∨ oldh ≤ j → (t.node j).next = none
  cleared : ∀ j < i, j < nh → (t.node j).val = none → (t.node j).key = .nil
  outside : ∀ j < i, ∀ k, Used (Kept oldh nh i) t j → (t.node j).key = .key k → ¬ InArray t k
  full : ∀ j < i, j < nh → t.lastfree ≤ j → (t.node j).key ≠ .nil
  lastfree_le : t.lastfree ≤ nh
  lastfree : i ≤ nh → t.lastfree = nh
  fresh : ∀ j, oldh ≤ j → t.node j = t₀.node j
  beyond : ∀ j, t₀.sizearray ≤ j → t.array[j]? = t₀.array[j]?
  length : t.array.length = t₀.array.length
  rest : t = { t₀ with array := t.array, node := t.node, lastfree := t.lastfree }

section Turn

variable {oldh nh i : ℕ} {t₀ : Table N V}

theorem Compacting.sizearray (hbefore : Compacting oldh nh i t₀ t) :
    t.sizearray = t₀.sizearray := by
  rw [hbefore.rest]

/-- What a turn leaves in the place of the node: nothing, or the same node without its link. -/
def Leaves (nh i : ℕ) (t : Table N V) (left : Node N V) : Prop :=
  left = emptyNode ∨ i < nh ∧ left = { t.node i with next := none } ∧ (t.node i).val ≠ none ∧
    ∀ k, (t.node i).key = .key k → ¬ InArray t k

variable {left : Node N V} {array : List (Option V)}

theorem Leaves.used (hleaves : Leaves nh i t left) {j : ℕ}
    (hused : Used (Kept oldh nh (i + 1)) { t.setNode i left with array := array } j) :
    Used (Kept oldh nh i) t j ∧ (j = i → left ≠ emptyNode) := by
  obtain ⟨⟨hj, hstays⟩, hval⟩ := hused
  change ((t.setNode i left).node j).val ≠ none at hval
  by_cases hji : j = i
  · subst hji
    rw [node_setNode_self] at hval
    have hfull : left ≠ emptyNode := by
      rintro rfl
      exact hval rfl
    obtain ⟨-, -, hvalue, -⟩ := hleaves.resolve_left hfull
    exact ⟨⟨⟨hj, .inl (Nat.le_refl j)⟩, hvalue⟩, fun _ ↦ hfull⟩
  · rw [node_setNode_of_ne _ _ hji] at hval
    exact ⟨⟨⟨hj, hstays.imp Nat.le_of_succ_le id⟩, hval⟩, fun heq ↦ absurd heq hji⟩

theorem Leaves.relocated (hleaves : Leaves nh i t left) :
    Relocated id (Kept oldh nh i) t (Kept oldh nh (i + 1))
      { t.setNode i left with array := array } := by
  have hsame : ∀ j, Used (Kept oldh nh (i + 1)) { t.setNode i left with array := array } j →
      (t.node j).key = ((t.setNode i left).node j).key ∧
        (t.node j).val = ((t.setNode i left).node j).val := by
    intro j hused
    by_cases hji : j = i
    · subst hji
      obtain ⟨-, hsame, -⟩ := hleaves.resolve_left ((hleaves.used hused).2 rfl)
      rw [node_setNode_self, hsame]
      exact ⟨rfl, rfl⟩
    · rw [node_setNode_of_ne _ _ hji]
      exact ⟨rfl, rfl⟩
  exact ⟨fun j hused ↦ (hleaves.used hused).1, fun j hused ↦ (hsame j hused).1,
    fun j hused ↦ (hsame j hused).2, fun _ _ _ _ heq ↦ heq⟩

/-- A turn that moves no node within the vector. -/
theorem Compacting.leave (hbefore : Compacting oldh nh i t₀ t) (hi : i < oldh)
    (hleaves : Leaves nh i t left) (hlength : array.length = t.array.length)
    (hbeyond : ∀ j, t.sizearray ≤ j → array[j]? = t.array[j]?)
    (hapart : ∀ j k, Used (Kept oldh nh (i + 1)) { t.setNode i left with array := array } j →
      ((t.setNode i left).node j).key = .key k →
        ∀ v, ¬ ArrayHolds { t.setNode i left with array := array } k v)
    (hholds : ∀ k v, ArrayHolds { t.setNode i left with array := array } k v ∨
      NodesHold (Kept oldh nh (i + 1)) { t.setNode i left with array := array } k v ↔
        ArrayHolds t k v ∨ NodesHold (Kept oldh nh i) t k v) :
    Compacting oldh nh (i + 1) t₀ { t.setNode i left with array := array } := by
  have hother : ∀ j, j ≠ i → (t.setNode i left).node j = t.node j :=
    fun j hne ↦ node_setNode_of_ne t left hne
  have hself : (t.setNode i left).node i = left := node_setNode_self ..
  constructor
  · exact hbefore.loose.relocate hleaves.relocated rfl hapart
  · exact fun k v ↦ (hholds k v).trans (hbefore.holds k v)
  · intro j hj
    change ((t.setNode i left).node j).next = none
    by_cases hji : j = i
    · rw [hji, hself]
      rcases hleaves with rfl | ⟨-, rfl, -⟩
      · rfl
      · rfl
    · rw [hother j hji]
      exact hbefore.unlinked j (by omega)
  · intro j hj hjnh hval
    change ((t.setNode i left).node j).val = none at hval
    change ((t.setNode i left).node j).key = .nil
    by_cases hji : j = i
    · rw [hji, hself] at hval ⊢
      rcases hleaves with rfl | ⟨-, rfl, hvalue, -⟩
      · rfl
      · exact absurd hval hvalue
    · rw [hother j hji] at hval ⊢
      exact hbefore.cleared j (by omega) hjnh hval
  · intro j hj k hused hkey
    change ((t.setNode i left).node j).key = .key k at hkey
    obtain ⟨hused', hfull⟩ := hleaves.used hused
    by_cases hji : j = i
    · obtain ⟨-, hsame, -, hout⟩ := hleaves.resolve_left (hfull hji)
      rw [hji, hself, hsame] at hkey
      exact hout k hkey
    · rw [hother j hji] at hkey
      exact hbefore.outside j (by omega) k hused' hkey
  · intro j hj hjnh hlast
    have hji : j ≠ i := by
      rintro rfl
      have heq := hbefore.lastfree (Nat.le_of_lt hjnh)
      change t.lastfree ≤ j at hlast
      omega
    change ((t.setNode i left).node j).key ≠ .nil
    rw [hother j hji]
    exact hbefore.full j (by omega) hjnh hlast
  · exact hbefore.lastfree_le
  · exact fun hle ↦ hbefore.lastfree (Nat.le_of_succ_le hle)
  · intro j hj
    rw [← hbefore.fresh j hj]
    exact hother j (by omega)
  · intro j hj
    rw [← hbefore.beyond j hj]
    exact hbeyond j (hbefore.sizearray ▸ hj)
  · exact hlength.trans hbefore.length
  · rw [hbefore.rest]
    rfl

theorem Compacting.clear (hbefore : Compacting oldh nh i t₀ t) (hi : i < oldh)
    (hval : (t.node i).val = none) : Compacting oldh nh (i + 1) t₀ (t.setNode i emptyNode) := by
  have hleaves : Leaves nh i t emptyNode := .inl rfl
  have hplace : Relocated id (Kept oldh nh i) t (Kept oldh nh (i + 1)) (t.setNode i emptyNode) :=
    hleaves.relocated
  refine hbefore.leave hi hleaves rfl (fun _ _ ↦ rfl) (hplace.apart hbefore.loose rfl rfl)
    fun k v ↦ or_congr (arrayHolds_congr rfl rfl) (hplace.nodesHold fun j hused ↦ ?_)
  obtain ⟨⟨hj, hstays⟩, hvalue⟩ := hused
  have hji : j ≠ i := by
    rintro rfl
    exact hvalue hval
  refine ⟨j, ⟨⟨hj, hstays.imp (fun hle ↦ ?_) id⟩, ?_⟩, rfl⟩
  · exact Nat.lt_of_le_of_ne hle (Ne.symm hji)
  · rw [node_setNode_of_ne _ _ hji]
    exact hvalue

theorem Compacting.stay (hbefore : Compacting oldh nh i t₀ t) (hi : i < oldh) {k : Key N}
    (hkey : (t.node i).key = .key k) (hval : (t.node i).val ≠ none) (hout : ¬ InArray t k)
    (hinh : i < nh) : Compacting oldh nh (i + 1) t₀ (t.setNext i none) := by
  have hleaves : Leaves nh i t { t.node i with next := none } :=
    .inr ⟨hinh, rfl, hval, fun k' hkey' ↦ NodeKey.key.inj (hkey.symm.trans hkey') ▸ hout⟩
  have hplace : Relocated id (Kept oldh nh i) t (Kept oldh nh (i + 1)) (t.setNext i none) :=
    hleaves.relocated
  refine hbefore.leave hi hleaves rfl (fun _ _ ↦ rfl) (hplace.apart hbefore.loose rfl rfl)
    fun k v ↦ or_congr (arrayHolds_congr rfl rfl) (hplace.nodesHold fun j hused ↦ ?_)
  obtain ⟨⟨hj, hstays⟩, hvalue⟩ := hused
  refine ⟨j, ⟨⟨hj, ?_⟩, ?_⟩, rfl⟩
  · omega
  · rw [val_setNext]
    exact hvalue

theorem Compacting.toArray (hbefore : Compacting oldh nh i t₀ t) (hi : i < oldh)
    (hlength : t₀.sizearray ≤ t₀.array.length) {k : Key N} (hkey : (t.node i).key = .key k)
    (hval : (t.node i).val ≠ none) (hin : InArray t k) :
    Compacting oldh nh (i + 1) t₀ (t.toArray i k) := by
  have hleaves : Leaves nh i t emptyNode := .inl rfl
  have hlength' : t.sizearray ≤ t.array.length := by
    rw [hbefore.sizearray, hbefore.length]
    exact hlength
  have hself : Used (Kept oldh nh i) t i := ⟨⟨hi, .inl (Nat.le_refl i)⟩, hval⟩
  have hother : ∀ j, j ≠ i → (t.setNode i emptyNode).node j = t.node j :=
    fun j hne ↦ node_setNode_of_ne t _ hne
  have hfresh : ∀ j, Used (Kept oldh nh (i + 1)) (t.toArray i k) j →
      j ≠ i ∧ (t.node j).key ≠ .key k := by
    intro j hused
    have hji : j ≠ i := fun heq ↦ (hleaves.used hused).2 heq rfl
    exact ⟨hji, fun heq ↦ hji (hbefore.loose.distinct j i (hleaves.used hused).1 hself
      (heq.trans hkey.symm))⟩
  refine hbefore.leave hi hleaves List.length_set (fun j hj ↦ ?_) (fun j k' hused hkey' v ↦ ?_)
    fun k' v ↦ ?_
  · have hne : (arrayindex k - 1).toNat ≠ j := by
      have hpos := hin.1
      have hle := hin.2
      omega
    exact List.getElem?_set_ne hne
  · obtain ⟨hji, hne⟩ := hfresh j hused
    rw [hother j hji] at hkey'
    have hsame : k' ≠ k := by
      rintro rfl
      exact hne hkey'
    change ¬ ArrayHolds (t.toArray i k) k' v
    rw [arrayHolds_toArray hin hlength', if_neg hsame]
    exact hbefore.loose.apart j k' (hleaves.used hused).1 hkey' v
  · change ArrayHolds (t.toArray i k) k' v ∨ NodesHold _ (t.toArray i k) k' v ↔ _
    rw [arrayHolds_toArray hin hlength']
    by_cases hsame : k' = k
    · subst hsame
      rw [if_pos rfl]
      constructor
      · rintro (hvalue | ⟨j, hj, hkey', hvalue⟩)
        · exact .inr ⟨i, hself.1, hkey, hvalue⟩
        · obtain ⟨hji, hne⟩ := hfresh j ⟨hj, fun hnone ↦ by rw [hnone] at hvalue; cases hvalue⟩
          change ((t.setNode i emptyNode).node j).key = _ at hkey'
          rw [hother j hji] at hkey'
          exact absurd hkey' hne
      · rintro (hvalue | ⟨j, hj, hkey', hvalue⟩)
        · exact absurd hvalue (hbefore.loose.apart i k' hself hkey v)
        · obtain rfl := hbefore.loose.distinct j i
            ⟨hj, fun hnone ↦ by rw [hnone] at hvalue; cases hvalue⟩ hself (hkey'.trans hkey.symm)
          exact .inl hvalue
    · rw [if_neg hsame]
      refine or_congr_right (exists_congr fun j ↦ ?_)
      change Kept oldh nh (i + 1) j ∧ ((t.setNode i emptyNode).node j).key = _ ∧
        ((t.setNode i emptyNode).node j).val = _ ↔ _
      by_cases hji : j = i
      · subst hji
        rw [node_setNode_self]
        constructor
        · rintro ⟨-, hkey', -⟩
          cases hkey'
        · rintro ⟨-, hkey', -⟩
          exact absurd (NodeKey.key.inj (hkey'.symm.trans hkey)) hsame
      · rw [hother j hji]
        refine and_congr_left fun _ ↦ and_congr_right fun _ ↦ or_congr_left ?_
        omega

/-- The search for a free node finds one. -/
theorem Compacting.exists_free (hbefore : Compacting oldh nh i t₀ t) (hi : i < oldh) {k : Key N}
    (hkey : (t.node i).key = .key k) (hval : (t.node i).val ≠ none) (hout : ¬ InArray t k)
    (hnh : nh ≤ i) : ¬ ∀ j < t.lastfree, (t.node j).key ≠ .nil := by
  intro hused
  have hall : ∀ j < nh, (t.node j).val ≠ none := by
    intro j hj hnone
    have hnil := hbefore.cleared j (by omega) hj hnone
    rcases Nat.lt_or_ge j t.lastfree with hless | hge
    · exact hused j hless hnil
    · exact hbefore.full j (by omega) hj hge hnil
  have hle := hbefore.loose.fits (insert i (Finset.range nh)) fun j hj ↦ by
    rcases Finset.mem_insert.1 hj with rfl | hmem
    · exact ⟨⟨⟨hi, .inl (Nat.le_refl _)⟩, hval⟩,
        fun k' hkey' ↦ NodeKey.key.inj (hkey.symm.trans hkey') ▸ hout⟩
    · have hjnh := Finset.mem_range.1 hmem
      have hlive : Used (Kept oldh nh i) t j := ⟨⟨by omega, .inr hjnh⟩, hall j hjnh⟩
      exact ⟨hlive, fun k' hkey' ↦ hbefore.outside j (by omega) k' hlive hkey'⟩
  rw [Finset.card_insert_of_notMem (by rw [Finset.mem_range]; omega), Finset.card_range] at hle
  omega

/-- The node is moved to the free one. -/
theorem Compacting.moveDown (hbefore : Compacting oldh nh i t₀ t) (hi : i < oldh) {k : Key N}
    (hkey : (t.node i).key = .key k) (hval : (t.node i).val ≠ none) (hout : ¬ InArray t k)
    (hnh : nh ≤ i) {n : ℕ} (hn : n < t.lastfree) (hfree : (t.node n).key = .nil)
    (hused : ∀ j, n < j → j < t.lastfree → (t.node j).key ≠ .nil) :
    Compacting oldh nh (i + 1) t₀ (t.moveDown i n) := by
  have hnnh : n < nh := Nat.lt_of_lt_of_le hn hbefore.lastfree_le
  have hni : n ≠ i := by omega
  have hfull : Used (Kept oldh nh i) t i := ⟨⟨hi, .inl (Nat.le_refl i)⟩, hval⟩
  have hself : (t.moveDown i n).node n = { t.node i with next := none } := node_setNode_self ..
  have hleft : (t.moveDown i n).node i = { t.node i with next := none } := by
    have hfirst : (t.moveDown i n).node i = (t.setNext i none).node i :=
      node_setNode_of_ne _ _ (Ne.symm hni)
    rw [hfirst, Table.setNext, node_setNode_self]
  have hother : ∀ j, j ≠ i → j ≠ n → (t.moveDown i n).node j = t.node j := by
    intro j hji hjn
    have hfirst : (t.moveDown i n).node j = (t.setNext i none).node j := node_setNode_of_ne _ _ hjn
    rw [hfirst, Table.setNext, node_setNode_of_ne _ _ hji]
  have hempty : (t.node n).val = none := by
    by_contra hvalue
    obtain ⟨k', hkey'⟩ := hbefore.loose.keyed n ⟨⟨by omega, .inr hnnh⟩, hvalue⟩
    rw [hfree] at hkey'
    cases hkey'
  have hplace : Relocated (fun j ↦ if j = n then i else j) (Kept oldh nh i) t
      (Kept oldh nh (i + 1)) (t.moveDown i n) := by
    have hne : ∀ j, Used (Kept oldh nh (i + 1)) (t.moveDown i n) j → j ≠ i := by
      rintro j ⟨⟨hj, hstays⟩, -⟩
      omega
    constructor
    · intro j hlive
      split_ifs with hjn
      · exact hfull
      · obtain ⟨⟨hj, hstays⟩, hvalue⟩ := hlive
        rw [hother j (by omega) hjn] at hvalue
        exact ⟨⟨hj, hstays.imp Nat.le_of_succ_le id⟩, hvalue⟩
    · intro j hlive
      split_ifs with hjn
      · rw [hjn, hself]
      · rw [hother j (hne j hlive) hjn]
    · intro j hlive
      split_ifs with hjn
      · rw [hjn, hself]
      · rw [hother j (hne j hlive) hjn]
    · intro j j' hlive hlive' heq
      have hji := hne j hlive
      have hji' := hne j' hlive'
      split_ifs at heq with hjn hjn' hjn'
      · rw [hjn, hjn']
      · exact absurd heq.symm hji'
      · exact absurd heq hji
      · exact heq
  constructor
  · exact hbefore.loose.relocate hplace rfl (hplace.apart hbefore.loose rfl rfl)
  · refine fun k' v ↦ Iff.trans (or_congr (arrayHolds_congr rfl rfl)
      (hplace.nodesHold fun j hlive ↦ ?_)) (hbefore.holds k' v)
    by_cases hji : j = i
    · refine ⟨n, ⟨⟨by omega, .inr hnnh⟩, ?_⟩, ?_⟩
      · rw [hself]
        exact hval
      · rw [if_pos rfl, hji]
    · have hjn : j ≠ n := by
        rintro rfl
        exact hlive.2 hempty
      obtain ⟨⟨hj, hstays⟩, hvalue⟩ := hlive
      refine ⟨j, ⟨⟨hj, by omega⟩, ?_⟩, if_neg hjn⟩
      rw [hother j hji hjn]
      exact hvalue
  · intro j hj
    by_cases hjn : j = n
    · rw [hjn, hself]
    · by_cases hji : j = i
      · rw [hji, hleft]
      · rw [hother j hji hjn]
        exact hbefore.unlinked j (by omega)
  · intro j hj hjnh hnone
    have hji : j ≠ i := by omega
    by_cases hjn : j = n
    · rw [hjn, hself] at hnone
      exact absurd hnone hval
    · rw [hother j hji hjn] at hnone ⊢
      exact hbefore.cleared j (by omega) hjnh hnone
  · intro j hj k' hlive hkey'
    by_cases hjn : j = n
    · rw [hjn, hself] at hkey'
      exact NodeKey.key.inj (hkey.symm.trans hkey') ▸ hout
    · have hji : j ≠ i := by
        obtain ⟨⟨-, hstays⟩, -⟩ := hlive
        omega
      obtain ⟨⟨hjold, hstays⟩, hvalue⟩ := hlive
      rw [hother j hji hjn] at hkey' hvalue
      exact hbefore.outside j (by omega) k' ⟨⟨hjold, by omega⟩, hvalue⟩ hkey'
  · intro j hj hjnh hlast
    change n ≤ j at hlast
    by_cases hjn : j = n
    · rw [hjn, hself, hkey]
      exact fun hnil ↦ by cases hnil
    · rw [hother j (by omega) hjn]
      rcases Nat.lt_or_ge j t.lastfree with hless | hge
      · exact hused j (by omega) hless
      · exact hbefore.full j (by omega) hjnh hge
  · exact Nat.le_of_lt hnnh
  · intro hle
    omega
  · intro j hj
    rw [← hbefore.fresh j hj]
    exact hother j (by omega) (by omega)
  · exact hbefore.beyond
  · exact hbefore.length
  · rw [hbefore.rest]
    rfl

theorem Compacting.step (hbefore : Compacting oldh nh i t₀ t) (hi : i < oldh)
    (hlength : t₀.sizearray ≤ t₀.array.length) :
    ∃ after, compactNode nh t i = some after ∧ Compacting oldh nh (i + 1) t₀ after := by
  have hkeyed : (t.node i).val ≠ none → ∃ k, (t.node i).key = .key k :=
    fun hval ↦ hbefore.loose.keyed i ⟨⟨hi, .inl (Nat.le_refl i)⟩, hval⟩
  generalize hresult : compactNode nh t i = result
  rcases hresult ▸ compactTurn nh i hkeyed with
    hval | ⟨hkey, hval, hin⟩ | ⟨hkey, hval, hout, hlt⟩ | ⟨hkey, hval, hout, hge, hn, hfree, hused⟩ |
    ⟨hkey, hval, hout, hge, hused⟩
  · exact ⟨_, rfl, hbefore.clear hi hval⟩
  · exact ⟨_, rfl, hbefore.toArray hi hlength hkey hval hin⟩
  · exact ⟨_, rfl, hbefore.stay hi hkey hval hout hlt⟩
  · exact ⟨_, rfl, hbefore.moveDown hi hkey hval hout hge hn hfree hused⟩
  · exact absurd hused (hbefore.exists_free hi hkey hval hout hge)

/-- The whole loop. -/
theorem Compacting.loop (hstart : Compacting oldh nh 0 t₀ t₀)
    (hlength : t₀.sizearray ≤ t₀.array.length) {count : ℕ} (hcount : count ≤ oldh) :
    ∃ after, (List.range count).foldlM (compactNode nh) t₀ = some after ∧
      Compacting oldh nh count t₀ after := by
  induction count with
  | zero => exact ⟨t₀, rfl, hstart⟩
  | succ count ih =>
    obtain ⟨before, hbefore, hinvariant⟩ := ih (Nat.le_of_succ_le hcount)
    obtain ⟨after, hafter, hnext⟩ := hinvariant.step hcount hlength
    refine ⟨after, ?_, hnext⟩
    rw [List.range_succ, List.foldlM_append, hbefore]
    change ([count].foldlM (compactNode nh) before) = some after
    rw [List.foldlM_cons, hafter]
    rfl

end Turn

end Elua.Lua.Tables
