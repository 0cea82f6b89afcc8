import TemplateCompiler.Output.Sink
import TemplateCompiler.Proofs.Store.FiniteTree
import TemplateCompiler.Proofs.Template.Visits

/-!
# What stops a compilation

Nodes may be attached before they are evaluated, so a tree that was put together may still
have nodes that were not.  Rendering and compiling it stop at such a node if they visit it, and
for no other reason; and what is visited can be told from the nodes and their children alone.

Main results:

- Definition {lit}`Store.Visits`: the nodes that are visited from a node on.
- Theorem {lit}`Store.IsFinite.tree_visitsUnevaluated_iff`: the tree below a node is visited
  where the store says so.
- Theorem {lit}`compiling_stops_iff`: when rendering and compiling stop, and what a sink then
  holds.
-/

namespace TemplateCompiler

namespace Store

/-- Whether a node has a child that is looked at. -/
def LooksAt (store : Store) (id child : Nat) : Prop :=
  ∃ cell, store.cell? id = some cell ∧ cell.node.conceals = false ∧ child ∈ cell.children

/-- The nodes that are visited from a node on: the node itself, and the children of visited
nodes that do not conceal them. -/
def Visits (store : Store) : Nat → Nat → Prop :=
  Relation.ReflTransGen store.LooksAt

/-- Whether a node that was not evaluated is visited from a node on. -/
def VisitsUnevaluated (store : Store) (id : Nat) : Prop :=
  ∃ node cell, store.Visits id node ∧ store.cell? node = some cell
    ∧ cell.node.evaluated = false

variable {store : Store} {id : Nat}

private theorem visitsUnevaluated_iff {cell : Cell} (hcell : store.cell? id = some cell) :
    store.VisitsUnevaluated id ↔
      cell.node.evaluated = false
        ∨ (cell.node.conceals = false
          ∧ ∃ child ∈ cell.children, store.VisitsUnevaluated child) := by
  constructor
  · rintro ⟨node, found, hvisits, hfound, heval⟩
    rcases Relation.ReflTransGen.cases_head hvisits with rfl | ⟨child, hlooks, hrest⟩
    · rw [hcell] at hfound
      cases hfound
      exact .inl heval
    · rcases hlooks with ⟨other, hother, hvisible, hchild⟩
      rw [hcell] at hother
      cases hother
      exact .inr ⟨hvisible, child, hchild, node, found, hrest, hfound, heval⟩
  · rintro (heval | ⟨hvisible, child, hchild, node, found, hrest, hfound, heval⟩)
    · exact ⟨id, cell, .refl, hcell, heval⟩
    · exact ⟨node, found, .head ⟨cell, hcell, hvisible, hchild⟩ hrest, hfound, heval⟩

private theorem not_visitsUnevaluated_of_cell?_eq_none (hcell : store.cell? id = none) :
    ¬store.VisitsUnevaluated id := by
  rintro ⟨node, found, hvisits, hfound, -⟩
  rcases Relation.ReflTransGen.cases_head hvisits with rfl | ⟨child, ⟨cell, hsome, -⟩, -⟩
  · rw [hcell] at hfound
    cases hfound
  · rw [hcell] at hsome
    cases hsome

/-- The tree below a node is visited where the store says so. -/
theorem IsFinite.tree_visitsUnevaluated_iff (h : store.IsFinite id) :
    (∃ tree ∈ store.tree? id, tree.VisitsUnevaluated) ↔ store.VisitsUnevaluated id := by
  induction h with
  | intro id hbelow ih =>
    rw [IsFinite.tree?_eq (.intro id hbelow)]
    cases hcell : store.cell? id with
    | none => simpa using not_visitsUnevaluated_of_cell?_eq_none hcell
    | some cell =>
      have hchildren : (∃ tree ∈ cell.children.filterMap store.tree?, tree.VisitsUnevaluated)
          ↔ ∃ child ∈ cell.children, store.VisitsUnevaluated child := by
        simp only [List.mem_filterMap]
        constructor
        · rintro ⟨tree, ⟨child, hchild, htree⟩, hvisits⟩
          have hmem : child ∈ store.children id := by rwa [children_eq hcell]
          exact ⟨child, hchild, (ih child hmem).1 ⟨tree, htree, hvisits⟩⟩
        · rintro ⟨child, hchild, hvisits⟩
          have hmem : child ∈ store.children id := by rwa [children_eq hcell]
          rcases (ih child hmem).2 hvisits with ⟨tree, htree, hunevaluated⟩
          exact ⟨tree, ⟨child, hchild, htree⟩, hunevaluated⟩
      simp only [Option.map_some, Option.mem_some, exists_eq_left']
      rw [Tree.visitsUnevaluated_node_iff, hchildren, visitsUnevaluated_iff hcell]

end Store

/-! ## Main result -/

/-- Rendering and compiling what is below a node stop exactly if they visit a node that was
not evaluated, and only for that; a sink then holds what it held before. -/
theorem compiling_stops_iff {σ : Type} (workspace : Workspace) (id : Nat)
    (hfinite : workspace.store.IsFinite id) (sink : Sink σ) (held : σ) (log : List Message)
    (violation : Violation) :
    ((workspace.render id).result = .error violation ↔
        violation = .renderedUnevaluated ∧ workspace.store.VisitsUnevaluated id)
      ∧ ((workspace.deliver sink id (held, log)).1 = .error violation ↔
        violation = .renderedUnevaluated ∧ workspace.store.VisitsUnevaluated id)
      ∧ ((workspace.deliver sink id (held, log)).1 = .error violation →
        (workspace.deliver sink id (held, log)).2.1 = held)
      ∧ Violation.renderedUnevaluated.text = ascii "Node rendered before it was evaluated." := by
  have hvisits := hfinite.tree_visitsUnevaluated_iff
  rw [Workspace.render, Workspace.deliver]
  cases htree : workspace.store.tree? id with
  | none =>
    have hnever : ¬workspace.store.VisitsUnevaluated id := by
      rw [← hvisits, htree]
      rintro ⟨tree, hmem, -⟩
      cases hmem
    have hdeliver : (pure () : Writing σ Unit) (held, log) = (.ok (), held, log) := rfl
    simp only [hdeliver, Logged.pure_result, reduceCtorEq, hnever, and_false, implies_true,
      true_and]
    rfl
  | some tree =>
    rw [htree] at hvisits
    simp only [Option.mem_some, exists_eq_left'] at hvisits
    have hcompile := workspace.session.compile_error_iff (workspace.store.isPreservedAbove id)
      violation tree
    simp only [Session.run_deliver]
    rw [Tree.code_error_iff, ← hvisits, ← hcompile]
    cases (workspace.session.compile (workspace.store.isPreservedAbove id) tree).result with
    | error other => exact ⟨Iff.rfl, by simp, fun _ => rfl, rfl⟩
    | ok chunks => exact ⟨Iff.rfl, by simp, by simp, rfl⟩

/-- Two texts that are attached before they are evaluated, one of them in a comment for the
template only: there it stops nothing. -/
theorem compiling_stops_iff_of_late_texts :
    ∃ last, (Workspace.run {} [.root, .build .comment (ascii "-#") {} none, .attach 0 1,
          .create .text (ascii "a") {} none, .attach 1 2,
          .create .text (ascii "b") {} none, .attach 0 3]).result = .ok last
      ∧ (last.render 0).result = .error .renderedUnevaluated
      ∧ (last.render 1).result ≠ .error .renderedUnevaluated
      ∧ (last.deliver Sink.text 0 (ascii "x", [])).1 = .error .renderedUnevaluated
      ∧ (last.deliver Sink.text 0 (ascii "x", [])).2.1 = ascii "x" := by
  have hrun : (Workspace.run {} [.root, .build .comment (ascii "-#") {} none, .attach 0 1,
      .create .text (ascii "a") {} none, .attach 1 2,
      .create .text (ascii "b") {} none, .attach 0 3]).result = .ok _ := rfl
  refine ⟨_, hrun, ?_⟩
  have hfinite := (Store.nested_of_edits (Workspace.edits_of_run hrun)
    Store.nested_empty).isFinite (show Store.parent? _ 0 = none from rfl)
  have hroot := compiling_stops_iff _ 0 hfinite Sink.text (ascii "x") [] .renderedUnevaluated
  have hcomment := compiling_stops_iff _ 1
    (hfinite.child (show 1 ∈ Store.children _ 0 by decide)) Sink.text (ascii "x") []
    .renderedUnevaluated
  have hlate := hroot.1.2 ⟨rfl, 3, _, .single ⟨_, rfl, rfl, by decide⟩, rfl, rfl⟩
  have hstops := hroot.2.1.2 (hroot.1.1 hlate)
  refine ⟨hlate, fun herror => ?_, hstops, hroot.2.2.1 hstops⟩
  rcases (Store.visitsUnevaluated_iff rfl).1 (hcomment.1.1 herror).2 with heval | ⟨hvisible, -⟩
  · cases heval
  · cases hvisible

end TemplateCompiler
