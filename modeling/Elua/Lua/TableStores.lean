import Elua.Lua.TableInvariant

/-!
# Storing values

A program stores values in the slots that `luaH_set` gives it, and the collector clears slots and
lets keys die (`removeentry`). Both keep a table `Sound`, and a value that is stored changes what
the table holds under one key (`Sound.store`).
-/

set_option autoImplicit false
set_option relaxedAutoImplicit false

namespace Elua.Lua.Tables

open Foundation Links

variable {N : KeyNumbers} {V : Type*} {t : Table N V}

/-! ### Nodes -/

/-- A node gets a value. -/
def Table.setVal (t : Table N V) (i : ℕ) (value : Option V) : Table N V := t.store value (.node i)

/-- `removeentry`. -/
def removeentry (t : Table N V) (i : ℕ) : Table N V :=
  match (t.node i).key with
  | .key k => if k.collectable then t.setNode i { t.node i with key := .dead } else t
  | _ => t

section Nodes

variable {i : ℕ} {value : Option V}

theorem key_setVal (x : ℕ) : ((t.setVal i value).node x).key = (t.node x).key := by
  by_cases hx : x = i
  · rw [hx, Table.setVal, Table.store, node_setNode_self]
  · rw [Table.setVal, Table.store, node_setNode_of_ne _ _ hx]

theorem val_setVal (x : ℕ) :
    ((t.setVal i value).node x).val = if x = i then value else (t.node x).val := by
  split_ifs with hx
  · rw [hx, Table.setVal, Table.store, node_setNode_self]
  · rw [Table.setVal, Table.store, node_setNode_of_ne _ _ hx]

theorem next_setVal : (t.setVal i value).next = t.next := by
  funext x
  rw [Table.next, Table.next]
  by_cases hx : x = i
  · rw [hx, Table.setVal, Table.store, node_setNode_self]
  · rw [Table.setVal, Table.store, node_setNode_of_ne _ _ hx]

theorem mainOf_setVal (x : ℕ) : (t.setVal i value).mainOf x = t.mainOf x := by
  unfold Table.mainOf
  rw [key_setVal]
  rfl

theorem Sound.setVal (hsound : Sound t) (hi : i < t.sizenode)
    (hkey : value ≠ none → ∃ k, (t.node i).key = .key k ∧ ¬ InArray t k) :
    Sound (t.setVal i value) := by
  have hlive : ∀ x, Live (t.setVal i value) x → x = i ∧ value ≠ none ∨ Live t x := by
    rintro x ⟨hx, hval⟩
    rw [val_setVal] at hval
    split_ifs at hval with hxi
    · exact .inl ⟨hxi, hval⟩
    · exact .inr ⟨hx, hval⟩
  refine ⟨⟨?_, ?_, ?_, ?_, ?_, ?_, ?_, ?_, hsound.length, hsound.sizearray, hsound.lsizenode, ?_⟩,
    hsound.lastfree, ?_⟩
  · rw [next_setVal]
    exact hsound.chained
  · intro a b hnext
    rw [next_setVal] at hnext
    exact hsound.bounded a b hnext
  · intro x hx hnil
    rw [key_setVal] at hnil
    rw [val_setVal, next_setVal]
    obtain ⟨hval, hisolated⟩ := hsound.free x hx hnil
    refine ⟨?_, hisolated⟩
    split_ifs with hxi
    · by_contra hvalue
      obtain ⟨k, hk, -⟩ := hkey hvalue
      rw [← hxi, hnil] at hk
      cases hk
    · exact hval
  · intro x hx
    rw [key_setVal]
    rcases hlive x hx with ⟨rfl, hvalue⟩ | hlive'
    · obtain ⟨k, hk, -⟩ := hkey hvalue
      exact ⟨k, hk⟩
    · exact hsound.keyed x hlive'
  · intro x hx m hmain
    rw [mainOf_setVal] at hmain
    rw [next_setVal]
    exact hsound.reached x hx m hmain
  · intro x hx m hmain
    rw [mainOf_setVal] at hmain ⊢
    rw [key_setVal]
    exact hsound.own x hx m hmain
  · intro x hx y hy k hxk hyk
    rw [key_setVal] at hxk hyk
    exact hsound.distinct x hx y hy k hxk hyk
  · intro x k hx hxk
    rw [key_setVal] at hxk
    rcases hlive x hx with ⟨rfl, hvalue⟩ | hlive'
    · obtain ⟨k', hk', hout⟩ := hkey hvalue
      rw [NodeKey.key.inj (hxk.symm.trans hk')]
      exact hout
    · exact hsound.apart x k hlive' hxk
  · intro hdummy
    obtain ⟨hlast, hempty⟩ := hsound.dummy hdummy
    refine ⟨hlast, fun x ↦ ?_⟩
    by_cases hxi : x = i
    · have hnone : value = none := by
        by_contra hvalue
        obtain ⟨k, hk, -⟩ := hkey hvalue
        rw [hempty i] at hk
        cases hk
      rw [hxi, Table.setVal, Table.store, node_setNode_self, hempty i, hnone]
      rfl
    · rw [Table.setVal, Table.store, node_setNode_of_ne _ _ hxi]
      exact hempty x
  · intro hdummy x hx hlast
    rw [key_setVal]
    exact hsound.full hdummy x hx hlast

theorem Sound.removeentry (hsound : Sound t) (hi : i < t.sizenode)
    (hval : (t.node i).val = none) : Sound (removeentry t i) := by
  rw [Tables.removeentry]
  rcases hkey : (t.node i).key with - | - | k
  · exact hsound
  · exact hsound
  dsimp only
  split_ifs with hcollectable
  swap
  · exact hsound
  have hself : (t.setNode i { t.node i with key := .dead }).node i =
      { t.node i with key := .dead } := node_setNode_self ..
  have hother : ∀ x, x ≠ i → (t.setNode i { t.node i with key := .dead }).node x = t.node x :=
    fun x hx ↦ node_setNode_of_ne t _ hx
  have hvals : ∀ x, ((t.setNode i { t.node i with key := .dead }).node x).val = (t.node x).val := by
    intro x
    by_cases hx : x = i
    · rw [hx, hself]
    · rw [hother x hx]
  have hnext : (t.setNode i { t.node i with key := .dead }).next = t.next := by
    funext x
    rw [Table.next, Table.next]
    by_cases hx : x = i
    · rw [hx, hself]
    · rw [hother x hx]
  have hlive : ∀ x, Live (t.setNode i { t.node i with key := .dead }) x → x ≠ i ∧ Live t x := by
    rintro x ⟨hx, hvalue⟩
    rw [hvals] at hvalue
    exact ⟨fun hxi ↦ hvalue (hxi ▸ hval), hx, hvalue⟩
  have hmain : ∀ x m, (t.setNode i { t.node i with key := .dead }).mainOf x = some m →
      x ≠ i ∧ t.mainOf x = some m := by
    intro x m hx
    obtain ⟨k', hk', hm⟩ := mainOf_eq_some_iff.1 hx
    have hxi : x ≠ i := by
      rintro rfl
      rw [hself] at hk'
      cases hk'
    rw [hother x hxi] at hk'
    exact ⟨hxi, mainOf_eq_some_iff.2 ⟨k', hk', hm⟩⟩
  refine ⟨⟨?_, ?_, ?_, ?_, ?_, ?_, ?_, ?_, hsound.length, hsound.sizearray, hsound.lsizenode, ?_⟩,
    hsound.lastfree, ?_⟩
  · rw [hnext]
    exact hsound.chained
  · intro a b hab
    rw [hnext] at hab
    exact hsound.bounded a b hab
  · intro x hx hnil
    have hxi : x ≠ i := by
      rintro rfl
      rw [hself] at hnil
      cases hnil
    rw [hother x hxi] at hnil ⊢
    rw [hnext]
    exact hsound.free x hx hnil
  · intro x hx
    obtain ⟨hxi, hlive'⟩ := hlive x hx
    rw [hother x hxi]
    exact hsound.keyed x hlive'
  · intro x hx m hm
    rw [hnext]
    exact hsound.reached x hx m (hmain x m hm).2
  · intro x hx m hm
    by_cases hmi : m = i
    · rw [hmi, hself]
      exact .inr rfl
    · rw [Table.mainOf, hother m hmi]
      exact hsound.own x hx m (hmain x m hm).2
  · intro x hx y hy k' hxk hyk
    have hxi : x ≠ i := by
      rintro rfl
      rw [hself] at hxk
      cases hxk
    have hyi : y ≠ i := by
      rintro rfl
      rw [hself] at hyk
      cases hyk
    rw [hother x hxi] at hxk
    rw [hother y hyi] at hyk
    exact hsound.distinct x hx y hy k' hxk hyk
  · intro x k' hx hxk
    obtain ⟨hxi, hlive'⟩ := hlive x hx
    rw [hother x hxi] at hxk
    exact hsound.apart x k' hlive' hxk
  · intro hdummy
    obtain ⟨-, hempty⟩ := hsound.dummy hdummy
    rw [hempty i] at hkey
    cases hkey
  · intro hdummy x hx hlast
    by_cases hxi : x = i
    · rw [hxi, hself]
      exact fun hnil ↦ by cases hnil
    · rw [hother x hxi]
      exact hsound.full hdummy x hx hlast

end Nodes

/-! ### The array -/

/-- A sound table whose array has other values. -/
theorem Sound.setArray (hsound : Sound t) {array : List (Option V)}
    (hlength : array.length = t.array.length) : Sound { t with array := array } := by
  refine ⟨⟨hsound.chained, hsound.bounded, hsound.free, hsound.keyed, hsound.reached, hsound.own,
    hsound.distinct, hsound.apart, ?_, hsound.sizearray, hsound.lsizenode, hsound.dummy⟩,
    hsound.lastfree, hsound.full⟩
  rw [hlength]
  exact hsound.length

/-! ### A slot -/

/-- A value is stored in the slot of a key. -/
theorem Sound.store (hsound : Sound t) {k : Key N} {slot : Slot} (hget : luaHGet t k = some slot)
    (value : Option V) :
    Sound (t.store value slot) ∧
      (∀ k' v, (t.store value slot).Holds k' v ↔ if k' = k then value = some v else t.Holds k' v) ∧
      SameArray t (t.store value slot) := by
  by_cases hin : InArray t k
  · rw [luaHGet_of_inArray hin] at hget
    obtain rfl := Option.some.inj hget
    refine ⟨hsound.setArray List.length_set, fun k' v ↦ ?_, ⟨rfl, fun j hj ↦ ?_,
      List.length_set⟩⟩
    · rw [Table.Holds, Table.Holds]
      have hnodes : NodeHolds (t.store value (.array (arrayindex k - 1).toNat)) k' v ↔
          NodeHolds t k' v := Iff.rfl
      have harray : ArrayHolds (t.store value (.array (arrayindex k - 1).toNat)) k' v ↔
          if k' = k then value = some v else ArrayHolds t k' v :=
        arrayHolds_set hin hsound.length value
      rw [hnodes, harray]
      split_ifs with hsame
      · refine or_iff_left ?_
        rintro ⟨i, hi, hkey, hval⟩
        exact hsound.apart i k' (.ne_none hi hval) hkey (hsame ▸ hin)
      · rfl
    · have hne : (arrayindex k - 1).toNat ≠ j := by
        have hpos := hin.1
        have hle := hin.2
        omega
      exact List.getElem?_set_ne hne
  · rw [luaHGet_of_not_inArray hin] at hget
    obtain ⟨i, hi, rfl, hkey⟩ := hsound.findNode_eq_some_iff.1 hget
    refine ⟨hsound.setVal hi fun _ ↦ ⟨k, hkey, hin⟩, fun k' v ↦ ?_, ⟨rfl, fun _ _ ↦ rfl, rfl⟩⟩
    have harray : ArrayHolds (t.store value (.node i)) k' v ↔ ArrayHolds t k' v := Iff.rfl
    rw [Table.Holds, Table.Holds, harray]
    change _ ∨ NodeHolds (t.setVal i value) k' v ↔ _
    split_ifs with hsame
    · subst hsame
      rw [or_iff_right fun harray ↦ hin harray.1]
      constructor
      · rintro ⟨j, hj, hkeyj, hvalj⟩
        rw [key_setVal] at hkeyj
        rw [hsound.distinct j hj i hi k' hkeyj hkey, val_setVal, if_pos rfl] at hvalj
        exact hvalj
      · intro hvalue
        refine ⟨i, hi, ?_, ?_⟩
        · rw [key_setVal]
          exact hkey
        · rw [val_setVal, if_pos rfl]
          exact hvalue
    · refine or_congr_right (exists_congr fun j ↦ and_congr_right fun hj ↦ ?_)
      rw [key_setVal, val_setVal]
      split_ifs with hji
      · subst hji
        constructor
        · rintro ⟨hkeyj, -⟩
          exact absurd (NodeKey.key.inj (hkeyj.symm.trans hkey)) hsame
        · rintro ⟨hkeyj, -⟩
          exact absurd (NodeKey.key.inj (hkeyj.symm.trans hkey)) hsame
      · rfl

end Elua.Lua.Tables
