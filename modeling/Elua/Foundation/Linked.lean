import Mathlib.Data.List.Nodup
import Mathlib.Tactic.Common

/-!
# Linked lists

`Walk next start nodes finish` says that following the links of `next` from `start` visits `nodes`,
in order, and arrives at `finish`. A link is absent where `next` gives `none`. A walk is taken apart
at any node (`walk_append`), and it depends on the links of the nodes it visits (`Walk.congr`). -/

set_option autoImplicit false
set_option relaxedAutoImplicit false

namespace Elua.Foundation

variable {Node : Type*}

/-- Following links from a start visits the nodes and arrives at the finish. -/
def Walk (next : Node → Option Node) : Option Node → List Node → Option Node → Prop
  | start, [], finish => start = finish
  | start, node :: nodes, finish => start = some node ∧ Walk next (next node) nodes finish

variable {next : Node → Option Node} {start finish : Option Node} {nodes firsts seconds : List Node}

@[simp] theorem walk_nil : Walk next start [] finish ↔ start = finish := Iff.rfl

@[simp] theorem walk_cons {node : Node} :
    Walk next start (node :: nodes) finish ↔ start = some node ∧ Walk next (next node) nodes finish :=
  Iff.rfl

/-- A walk is taken apart. -/
theorem walk_append :
    Walk next start (firsts ++ seconds) finish ↔
      ∃ middle, Walk next start firsts middle ∧ Walk next middle seconds finish := by
  induction firsts generalizing start with
  | nil =>
    simp only [List.nil_append, walk_nil]
    constructor
    · intro hwalk
      exact ⟨start, rfl, hwalk⟩
    · rintro ⟨middle, rfl, hwalk⟩
      exact hwalk
  | cons node firsts ih =>
    simp only [List.cons_append, walk_cons, ih]
    constructor
    · rintro ⟨hstart, middle, hfirst, hsecond⟩
      exact ⟨middle, ⟨hstart, hfirst⟩, hsecond⟩
    · rintro ⟨middle, ⟨hstart, hfirst⟩, hsecond⟩
      exact ⟨hstart, middle, hfirst, hsecond⟩

/-- A walk depends on the links of its nodes. -/
theorem Walk.congr {other : Node → Option Node} (hwalk : Walk next start nodes finish)
    (hsame : ∀ node ∈ nodes, other node = next node) : Walk other start nodes finish := by
  induction nodes generalizing start with
  | nil => exact hwalk
  | cons node nodes ih =>
    obtain ⟨hnode, hnodes⟩ := List.forall_mem_cons.mp hsame
    refine ⟨hwalk.1, ?_⟩
    rw [hnode]
    exact ih hwalk.2 hnodes

end Elua.Foundation
