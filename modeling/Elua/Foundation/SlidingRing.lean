import Mathlib.Algebra.BigOperators.Group.List.Basic
import Mathlib.Algebra.GroupWithZero.Nat
import Mathlib.Data.List.Rotate

/-!
# A ring that holds the last items of a sequence

`lastItems count filler items` are the last `count` items of a sequence that is preceded by a filler.
A ring that is written one slot after the other holds them from the slot on that is written next
(`rotate_set`), and the sum of its values changes by the item that comes and by the one that goes
(`sum_set`). -/

set_option autoImplicit false
set_option relaxedAutoImplicit false

namespace Elua.Foundation

variable {Item : Type*}

/-- The last items of a sequence, oldest first, where a filler precedes the sequence. -/
def lastItems (count : ℕ) (filler : Item) (items : List Item) : List Item :=
  (List.replicate count filler ++ items).drop items.length

@[simp] theorem lastItems_nil (count : ℕ) (filler : Item) :
    lastItems count filler [] = List.replicate count filler :=
  List.append_nil _

/-- The filler does not matter once there are enough items. -/
theorem lastItems_of_le {count : ℕ} {items : List Item} (hcount : count ≤ items.length)
    (filler : Item) : lastItems count filler items = items.drop (items.length - count) := by
  rw [lastItems, List.drop_append, List.length_replicate, List.drop_of_length_le, List.nil_append]
  rwa [List.length_replicate]

/-- A further item is the last one, and the first one is gone. -/
theorem lastItems_append_singleton {count : ℕ} (hcount : 0 < count) (filler : Item)
    (items : List Item) (item : Item) :
    lastItems count filler (items ++ [item]) = (lastItems count filler items).tail ++ [item] := by
  have hlength : items.length + 1 ≤ (List.replicate count filler ++ items).length := by
    rw [List.length_append, List.length_replicate]
    omega
  rw [lastItems, lastItems, List.length_append, List.length_singleton, ← List.append_assoc,
    List.drop_append_of_le_length hlength, List.tail_drop]

/-- Writing the slot that comes next. -/
theorem rotate_set {ring : List Item} {slot : ℕ} (hslot : slot < ring.length) (item : Item) :
    (ring.set slot item).rotate (slot + 1) = (ring.rotate slot).tail ++ [item] := by
  have htake : (ring.set slot item).take (slot + 1) = ring.take slot ++ [item] := by
    rw [List.take_add_one, List.take_set_of_le le_rfl, List.getElem?_set_self hslot]
    rfl
  rw [List.rotate_eq_drop_append_take (by rw [List.length_set]; omega),
    List.rotate_eq_drop_append_take hslot.le, List.drop_set_of_lt (Nat.lt_succ_self slot), htake,
    List.drop_eq_getElem_cons hslot, List.cons_append, List.tail_cons, List.append_assoc]

/-- The sum changes by the item that comes and by the one that goes. -/
theorem sum_set {ring : List Item} {slot : ℕ} {oldest : Item} (holdest : ring[slot]? = some oldest)
    (weight : Item → ℕ) (item : Item) :
    ((ring.set slot item).map weight).sum + weight oldest = (ring.map weight).sum + weight item := by
  induction ring generalizing slot with
  | nil => cases holdest
  | cons first ring ih =>
    cases slot with
    | zero =>
      obtain rfl := Option.some.inj holdest
      rw [List.set_cons_zero, List.map_cons, List.map_cons, List.sum_cons, List.sum_cons]
      omega
    | succ slot =>
      have hrest := ih holdest
      rw [List.set_cons_succ, List.map_cons, List.map_cons, List.sum_cons, List.sum_cons]
      omega

/-- A rotation keeps the sum. -/
theorem sum_rotate (ring : List Item) (slot : ℕ) (weight : Item → ℕ) :
    ((ring.rotate slot).map weight).sum = (ring.map weight).sum :=
  ((List.rotate_perm ring slot).map weight).sum_eq

/-- A bound on the sum by the number of items. -/
theorem sum_le_of_forall {ring : List Item} {weight : Item → ℕ} {bound : ℕ}
    (hbound : ∀ item ∈ ring, weight item ≤ bound) :
    (ring.map weight).sum ≤ ring.length * bound := by
  induction ring with
  | nil => exact Nat.zero_le _
  | cons first ring ih =>
    rw [List.map_cons, List.sum_cons, List.length_cons, Nat.succ_mul, Nat.add_comm]
    exact Nat.add_le_add (ih fun item hitem ↦ hbound item (List.mem_cons_of_mem _ hitem))
      (hbound first List.mem_cons_self)

/-- An item adds to the sum. -/
theorem le_sum_of_mem {ring : List Item} {item : Item} (hitem : item ∈ ring) (weight : Item → ℕ) :
    weight item ≤ (ring.map weight).sum := by
  induction ring with
  | nil => cases hitem
  | cons first ring ih =>
    rw [List.map_cons, List.sum_cons]
    obtain rfl | hrest := List.mem_cons.mp hitem
    · exact Nat.le_add_right _ _
    · exact (ih hrest).trans (Nat.le_add_left _ _)

end Elua.Foundation
