import Mathlib.Data.List.Nodup
import Mathlib.Logic.Relation
import Mathlib.Tactic.Common

/-!
# Depth-first walks

A depth-first walk over a directed graph leaves a node that is finished at once, and otherwise calls
its children one after the other and then finishes it. `Traversal` records what a walk has done: the
finished nodes, oldest first, and the calls that met an unfinished node. `visit` walks from one node
and `visitAll` from a list of nodes.

On a graph without cycles `visit_spec` says what a walk adds: every node it finishes can be reached
from the node it started from and stands behind its children, and the calls of a node that is
finished, or not yet finished, stay as they are. More fuel never changes a walk (`visit_mono`). -/

set_option autoImplicit false
set_option relaxedAutoImplicit false

namespace Elua.Foundation

variable {Node : Type*}

/-! ### Walks -/

/-- What a depth-first walk has done so far. -/
structure Traversal (Node : Type*) where
  /-- The finished nodes, oldest first. -/
  finished : List Node
  /-- The calls, by caller and child, that met a child that was not finished. -/
  firsts : List (Node × Node)

/-- A walk that has done nothing. -/
def Traversal.empty : Traversal Node := ⟨[], []⟩

/-- Finishes a node. -/
def Traversal.finish (walk : Traversal Node) (node : Node) : Traversal Node :=
  { walk with finished := walk.finished ++ [node] }

/-- One node can be reached from another. -/
def Reaches (children : Node → List Node) : Node → Node → Prop :=
  Relation.ReflTransGen fun node child ↦ child ∈ children node

/-- Every finished node stands behind its children. -/
def Traversal.Ordered (children : Node → List Node) (walk : Traversal Node) : Prop :=
  ∀ before node rest, walk.finished = before ++ node :: rest →
    ∀ child ∈ children node, child ∈ before

variable {children : Node → List Node}

/-- Finishing a node whose children are finished keeps the order. -/
theorem Traversal.Ordered.finish {walk : Traversal Node} {node : Node}
    (hordered : walk.Ordered children)
    (hchildren : ∀ child ∈ children node, child ∈ walk.finished) :
    (walk.finish node).Ordered children := by
  intro before other rest hsplit
  rcases List.eq_nil_or_concat rest with rfl | ⟨rest, last, rfl⟩
  · obtain ⟨rfl, hother⟩ := List.append_inj' hsplit rfl
    obtain rfl : node = other := List.singleton_inj.mp hother
    exact hchildren
  · rw [List.concat_eq_append, ← List.cons_append, ← List.append_assoc] at hsplit
    exact hordered before other rest (List.append_inj' hsplit rfl).1

/-- A node that stands behind its children stands behind all it reaches. -/
theorem Traversal.Ordered.mem_of_reaches {walk : Traversal Node} (hordered : walk.Ordered children)
    {node other : Node} (hnode : node ∈ walk.finished) (hreaches : Reaches children node other) :
    other ∈ walk.finished := by
  induction hreaches with
  | refl => exact hnode
  | tail _ hchild ih =>
    obtain ⟨before, rest, hsplit⟩ := List.append_of_mem ih
    rw [hsplit]
    exact List.mem_append_left _ (hordered before _ rest hsplit _ hchild)

/-- What a finished node depends on, directly or not, stands before it. -/
theorem Traversal.Ordered.sublist_of_reaches {walk : Traversal Node}
    (hordered : walk.Ordered children) {node last child : Node} (hnode : node ∈ walk.finished)
    (hreaches : Reaches children node last) (hchild : child ∈ children last) :
    [child, node].Sublist walk.finished := by
  obtain ⟨before, rest, hsplit⟩ := List.append_of_mem hnode
  have hbefore : ∀ last, Reaches children node last → ∀ child ∈ children last, child ∈ before := by
    intro last hreaches
    induction hreaches with
    | refl => exact hordered before node rest hsplit
    | tail _ hmem ih =>
      obtain ⟨first, second, rfl⟩ := List.append_of_mem (ih _ hmem)
      intro child hchild
      refine List.mem_append_left _ (hordered first _ (second ++ node :: rest) ?_ child hchild)
      rw [hsplit, List.append_assoc, List.cons_append]
  rw [hsplit]
  exact (List.singleton_sublist.mpr (hbefore last hreaches child hchild)).append
    (List.singleton_sublist.mpr List.mem_cons_self)

variable [DecidableEq Node]

/-- Records a call. -/
def Traversal.call (walk : Traversal Node) (caller child : Node) : Traversal Node :=
  if child ∈ walk.finished then walk
  else { walk with firsts := walk.firsts ++ [(caller, child)] }

/-- Walks from a node. -/
def visit (children : Node → List Node) : ℕ → Node → Traversal Node → Option (Traversal Node)
  | 0, _, _ => none
  | fuel + 1, node, walk =>
    if node ∈ walk.finished then some walk
    else
      ((children node).foldlM (fun walk child ↦ visit children fuel child (walk.call node child))
        walk).map (·.finish node)

/-- Walks from each node of a list. -/
def visitAll (children : Node → List Node) (fuel : ℕ) (roots : List Node) (walk : Traversal Node) :
    Option (Traversal Node) :=
  roots.foldlM (fun walk root ↦ visit children fuel root walk) walk

/-! ### Fuel -/

/-- A fold over steps that have results goes through with steps that have the same results. -/
theorem foldlM_mono {State Item : Type*} {first second : State → Item → Option State}
    (hstep : ∀ state item next, first state item = some next → second state item = some next)
    (items : List Item) {state last : State} (hfold : items.foldlM first state = some last) :
    items.foldlM second state = some last := by
  induction items generalizing state with
  | nil => exact hfold
  | cons item items ih =>
    rw [List.foldlM_cons] at hfold ⊢
    obtain ⟨next, hnext, hrest⟩ := Option.bind_eq_some_iff.mp hfold
    exact Option.bind_eq_some_iff.mpr ⟨next, hstep _ _ _ hnext, ih hrest⟩

/-- A fold over steps that have results has one. -/
theorem exists_foldlM {State Item : Type*} {step : State → Item → Option State} {items : List Item}
    (hstep : ∀ item ∈ items, ∀ state, ∃ next, step state item = some next) (state : State) :
    ∃ last, items.foldlM step state = some last := by
  induction items generalizing state with
  | nil => exact ⟨state, rfl⟩
  | cons item items ih =>
    obtain ⟨hitem, hrest⟩ := List.forall_mem_cons.mp hstep
    obtain ⟨next, hnext⟩ := hitem state
    obtain ⟨last, hlast⟩ := ih hrest next
    refine ⟨last, ?_⟩
    rw [List.foldlM_cons]
    exact Option.bind_eq_some_iff.mpr ⟨next, hnext, hlast⟩

/-- More fuel keeps a walk. -/
theorem visit_mono {fuel more : ℕ} {node : Node} {walk after : Traversal Node} (hmore : fuel ≤ more)
    (hvisit : visit children fuel node walk = some after) :
    visit children more node walk = some after := by
  induction fuel generalizing more node walk after with
  | zero => cases hvisit
  | succ fuel ih =>
    obtain ⟨more, rfl⟩ := Nat.exists_eq_succ_of_ne_zero (Nat.ne_zero_of_lt hmore)
    rw [visit] at hvisit ⊢
    split_ifs at hvisit ⊢ with hfinished
    · exact hvisit
    · obtain ⟨last, hfold, rfl⟩ := Option.map_eq_some_iff.mp hvisit
      refine Option.map_eq_some_iff.mpr ⟨last, foldlM_mono (fun _ _ _ hnext ↦ ?_) _ hfold, rfl⟩
      exact ih (Nat.le_of_succ_le_succ hmore) hnext

/-- A walk from a list of nodes has one result. -/
theorem visitAll_unique {fuel more : ℕ} {roots : List Node} {walk first second : Traversal Node}
    (hfirst : visitAll children fuel roots walk = some first)
    (hsecond : visitAll children more roots walk = some second) : first = second := by
  have hmax := foldlM_mono (fun _ _ _ hnext ↦ visit_mono (Nat.le_max_left fuel more) hnext) roots
    hfirst
  have hmax' := foldlM_mono (fun _ _ _ hnext ↦ visit_mono (Nat.le_max_right fuel more) hnext) roots
    hsecond
  exact Option.some.inj (hmax.symm.trans hmax')

/-! ### What a walk adds -/

@[simp] theorem Traversal.finished_call (walk : Traversal Node) (caller child : Node) :
    (walk.call caller child).finished = walk.finished := by
  unfold Traversal.call
  split <;> rfl

theorem Traversal.mem_firsts_call {walk : Traversal Node} {caller child : Node}
    {edge : Node × Node} :
    edge ∈ (walk.call caller child).firsts ↔
      edge ∈ walk.firsts ∨ (child ∉ walk.finished ∧ edge = (caller, child)) := by
  unfold Traversal.call
  split_ifs with hfinished
  · simp [hfinished]
  · simp [hfinished]

/-- What a walk from a node adds. -/
structure VisitSpec (children : Node → List Node) (node : Node) (walk after : Traversal Node) :
    Prop where
  finished_prefix : walk.finished <+: after.finished
  node_finished : node ∈ after.finished
  finished_new : ∀ other ∈ after.finished, other ∈ walk.finished ∨ Reaches children node other
  /-- Only the nodes that the walk finishes make calls. -/
  firsts_iff : ∀ caller child, caller ∈ walk.finished ∨ caller ∉ after.finished →
    ((caller, child) ∈ after.firsts ↔ (caller, child) ∈ walk.firsts)
  ordered : walk.Ordered children → after.Ordered children
  nodup : walk.finished.Nodup → after.finished.Nodup

/-- What the calls of a node add that is being visited. -/
structure CallsSpec (children : Node → List Node) (node : Node) (calls : List Node)
    (walk after : Traversal Node) : Prop where
  finished_prefix : walk.finished <+: after.finished
  node_unfinished : node ∉ after.finished
  calls_finished : ∀ child ∈ calls, child ∈ after.finished
  finished_new : ∀ other ∈ after.finished, other ∈ walk.finished ∨ Reaches children node other
  firsts_iff : ∀ caller child, caller ≠ node → caller ∈ walk.finished ∨ caller ∉ after.finished →
    ((caller, child) ∈ after.firsts ↔ (caller, child) ∈ walk.firsts)
  ordered : walk.Ordered children → after.Ordered children
  nodup : walk.finished.Nodup → after.finished.Nodup

section Acyclic

variable {rank : Node → ℕ} (hrank : ∀ node, ∀ child ∈ children node, rank child < rank node)

include hrank

omit [DecidableEq Node] in
/-- What can be reached has no higher rank. -/
theorem rank_le_of_reaches {node other : Node} (hreaches : Reaches children node other) :
    rank other ≤ rank node := by
  induction hreaches with
  | refl => exact Nat.le_refl _
  | tail _ hchild ih => exact Nat.le_trans (Nat.le_of_lt (hrank _ _ hchild)) ih

omit [DecidableEq Node] in
/-- A call leaves the caller unfinished. -/
theorem VisitSpec.caller_unfinished {caller child : Node} {walk after : Traversal Node}
    (hspec : VisitSpec children child walk after) (hchild : child ∈ children caller)
    (hcaller : caller ∉ walk.finished) : caller ∉ after.finished := by
  intro hfinished
  rcases hspec.finished_new caller hfinished with hold | hreaches
  · exact hcaller hold
  · have hle := rank_le_of_reaches hrank hreaches
    have hlt := hrank caller child hchild
    omega

/-- The calls of a node, when each is a walk. -/
theorem callsSpec_of_foldlM {fuel : ℕ} {node : Node} {calls : List Node}
    {walk after : Traversal Node}
    (hvisits : ∀ child walk after, visit children fuel child walk = some after →
      VisitSpec children child walk after)
    (hcalls : ∀ child ∈ calls, child ∈ children node) (hnode : node ∉ walk.finished)
    (hfold : calls.foldlM (fun walk child ↦ visit children fuel child (walk.call node child)) walk =
      some after) : CallsSpec children node calls walk after := by
  induction calls generalizing walk with
  | nil =>
    obtain rfl := Option.some.inj hfold
    refine ⟨List.prefix_rfl, hnode, fun _ hchild ↦ absurd hchild List.not_mem_nil,
      fun _ hother ↦ .inl hother, fun _ _ _ _ ↦ Iff.rfl, id, id⟩
  | cons child calls ih =>
    obtain ⟨hchild, hrest⟩ := List.forall_mem_cons.mp hcalls
    rw [List.foldlM_cons] at hfold
    obtain ⟨middle, hvisit, hfold⟩ := Option.bind_eq_some_iff.mp hfold
    have hfirst := hvisits child _ middle hvisit
    have hunfinished := hfirst.caller_unfinished hrank hchild (by rwa [Traversal.finished_call])
    have hlast := ih hrest hunfinished hfold
    have hearlier := hfirst.finished_prefix
    rw [Traversal.finished_call] at hearlier
    refine ⟨hearlier.trans hlast.finished_prefix, hlast.node_unfinished, ?_, ?_, ?_, ?_, ?_⟩
    · refine List.forall_mem_cons.mpr ⟨?_, hlast.calls_finished⟩
      exact hlast.finished_prefix.subset hfirst.node_finished
    · intro other hother
      rcases hlast.finished_new other hother with hmiddle | hreaches
      · refine (hfirst.finished_new other hmiddle).imp ?_ fun hreaches ↦ ?_
        · rw [Traversal.finished_call]
          exact id
        · exact .head hchild hreaches
      · exact .inr hreaches
    · intro caller other hne hcaller
      have hmiddle : caller ∈ middle.finished ∨ caller ∉ after.finished :=
        hcaller.imp_left fun hold ↦ hearlier.subset hold
      have hstart : caller ∈ (walk.call node child).finished ∨ caller ∉ middle.finished := by
        rw [Traversal.finished_call]
        exact hcaller.imp_right fun hnew hold ↦ hnew (hlast.finished_prefix.subset hold)
      rw [hlast.firsts_iff caller other hne hmiddle, hfirst.firsts_iff caller other hstart,
        Traversal.mem_firsts_call]
      refine or_iff_left fun hedge ↦ hne ?_
      exact congrArg Prod.fst hedge.2
    · intro hordered
      refine hlast.ordered (hfirst.ordered ?_)
      unfold Traversal.Ordered
      rwa [Traversal.finished_call]
    · intro hnodup
      exact hlast.nodup (hfirst.nodup (by rwa [Traversal.finished_call]))

/-- What a walk from a node does on a graph without cycles. -/
theorem visit_spec {fuel : ℕ} {node : Node} {walk after : Traversal Node}
    (hvisit : visit children fuel node walk = some after) :
    VisitSpec children node walk after := by
  induction fuel generalizing node walk after with
  | zero => cases hvisit
  | succ fuel ih =>
    rw [visit] at hvisit
    split_ifs at hvisit with hfinished
    · obtain rfl := Option.some.inj hvisit
      exact ⟨List.prefix_rfl, hfinished, fun _ hother ↦ .inl hother, fun _ _ _ ↦ Iff.rfl, id, id⟩
    · obtain ⟨last, hfold, rfl⟩ := Option.map_eq_some_iff.mp hvisit
      have hcalls := callsSpec_of_foldlM hrank (fun _ _ _ hnext ↦ ih hnext) (fun _ ↦ id) hfinished
        hfold
      refine ⟨hcalls.finished_prefix.trans (List.prefix_append _ _), ?_, ?_, ?_, ?_, ?_⟩
      · exact List.mem_append_right _ (List.mem_singleton.mpr rfl)
      · intro other hother
        rcases List.mem_append.mp hother with hold | hnew
        · exact hcalls.finished_new other hold
        · exact .inr (List.mem_singleton.mp hnew ▸ .refl)
      · intro caller child hcaller
        have hne : caller ≠ node := by
          rintro rfl
          rcases hcaller with hold | hnew
          · exact hfinished hold
          · exact hnew (List.mem_append_right _ (List.mem_singleton.mpr rfl))
        refine hcalls.firsts_iff caller child hne (hcaller.imp_right fun hnew hold ↦ ?_)
        exact hnew (List.mem_append_left _ hold)
      · intro hordered
        exact (hcalls.ordered hordered).finish hcalls.calls_finished
      · intro hnodup
        refine List.nodup_append.mpr ⟨hcalls.nodup hnodup, List.nodup_singleton _, ?_⟩
        intro other hother new hnew heq
        exact hcalls.node_unfinished (List.mem_singleton.mp hnew ▸ heq ▸ hother)

/-- What a walk from a list of nodes does on a graph without cycles. -/
theorem visitAll_spec {fuel : ℕ} {roots : List Node} {walk after : Traversal Node}
    (hvisit : visitAll children fuel roots walk = some after) :
    walk.finished <+: after.finished ∧ (∀ root ∈ roots, root ∈ after.finished) ∧
      (∀ other ∈ after.finished,
        other ∈ walk.finished ∨ ∃ root ∈ roots, Reaches children root other) ∧
      (walk.Ordered children → after.Ordered children) ∧
      (walk.finished.Nodup → after.finished.Nodup) := by
  induction roots generalizing walk with
  | nil =>
    obtain rfl := Option.some.inj hvisit
    exact ⟨List.prefix_rfl, fun _ hroot ↦ absurd hroot List.not_mem_nil, fun _ hother ↦ .inl hother,
      id, id⟩
  | cons root roots ih =>
    rw [visitAll, List.foldlM_cons] at hvisit
    obtain ⟨middle, hmiddle, hrest⟩ := Option.bind_eq_some_iff.mp hvisit
    have hfirst := visit_spec hrank hmiddle
    obtain ⟨hearlier, hroots, hnew, hordered, hnodup⟩ := ih hrest
    refine ⟨hfirst.finished_prefix.trans hearlier, ?_, ?_,
      fun hwalk ↦ hordered (hfirst.ordered hwalk), fun hwalk ↦ hnodup (hfirst.nodup hwalk)⟩
    · exact List.forall_mem_cons.mpr ⟨hearlier.subset hfirst.node_finished, hroots⟩
    · intro other hother
      rcases hnew other hother with hold | ⟨later, hlater, hreaches⟩
      · refine (hfirst.finished_new other hold).imp_right fun hreaches ↦ ?_
        exact ⟨root, List.mem_cons_self, hreaches⟩
      · exact .inr ⟨later, List.mem_cons_of_mem _ hlater, hreaches⟩

end Acyclic

end Elua.Foundation
