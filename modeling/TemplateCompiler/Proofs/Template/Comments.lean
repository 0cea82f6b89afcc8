import TemplateCompiler.Output.Sink
import TemplateCompiler.Proofs.Template.Static

/-!
# Comments for the template only

A comment that is for the template only prints nothing, and what is nested below it is
never visited.  So nothing of what it says, and nothing below it, can be told from the code,
from what a sink is given or from what is reported.

Main results:

- Theorem {lit}`Tree.render_hidden`: a hidden node is rendered to nothing, whatever is
  nested below it.
- Theorem {lit}`Tree.Agrees.render_eq`: trees that agree but for hidden nodes are rendered
  alike.
- Theorem {lit}`hidden_comments_leak_nothing`: they are compiled alike, into any sink.
-/

namespace TemplateCompiler

/-- An evaluated comment that is for the template only. -/
structure Node.IsHidden (node : Node) : Prop where
  evaluated : node.evaluated = true
  kind : node.directive.kind = .comment
  templateOnly : Comment.isTemplateOnly node.directive.expression = true

namespace Node.IsHidden

variable {node : Node}

private theorem isStatic (h : node.IsHidden) : node.IsStatic := by
  refine ⟨h.evaluated, ?_⟩
  rw [h.kind]
  rfl

private theorem markup_eq (h : node.IsHidden) : node.markup = { silent := true } := by
  rw [h.isStatic.markup_eq, Directive.reading, h.kind]
  simp only [Comment.read, h.templateOnly, Bool.true_or, if_true]
  rfl

/-- A hidden node prints nothing, and nothing of its content. -/
theorem layout_eq (h : node.IsHidden) (above hasContent : Bool) :
    node.layout above hasContent = .closed [] := by
  rw [h.isStatic.layout_eq, h.markup_eq]
  cases hasContent <;> rfl

end Node.IsHidden

namespace Tree

/-- A hidden comment is rendered to nothing, whatever is below it. -/
theorem render_hidden {label : Node} (h : label.IsHidden) (above : Bool)
    (children : List Tree) : (Tree.node label children).render above = pure [] :=
  render_closed h.evaluated (h.layout_eq above _)

/-! ## Trees that agree -/

/-- Trees of evaluated nodes are equal but for what their hidden nodes say and what is
nested below these. -/
inductive Agrees : Tree → Tree → Prop
  | hidden {label other : Node} (children others : List Tree) (hlabel : label.IsHidden)
      (hother : other.IsHidden) : Agrees (.node label children) (.node other others)
  | node {label : Node} {children others : List Tree} (heval : label.evaluated = true)
      (hlength : children.length = others.length)
      (hchildren : ∀ pair ∈ children.zip others, Agrees pair.1 pair.2) :
      Agrees (.node label children) (.node label others)

private theorem renderAll_congr {above : Bool} {trees others : List Tree}
    (hlength : trees.length = others.length)
    (h : ∀ pair ∈ trees.zip others, pair.1.render above = pair.2.render above) :
    renderAll above trees = renderAll above others := by
  induction trees generalizing others with
  | nil =>
    cases others with
    | nil => rfl
    | cons other rest => cases hlength
  | cons tree trees ih =>
    cases others with
    | nil => cases hlength
    | cons other others =>
      rw [List.zip_cons_cons, List.forall_mem_cons] at h
      rw [renderAll, renderAll, h.1, ih (Nat.succ.inj hlength) h.2]

/-- A node is rendered knowing only whether it has children and what they are rendered to. -/
theorem render_congr {label : Node} {above : Bool} {trees others : List Tree}
    (hempty : trees.isEmpty = others.isEmpty)
    (h : ∀ above, renderAll above trees = renderAll above others) :
    (Tree.node label trees).render above = (Tree.node label others).render above := by
  rw [render, render, hempty, h]

namespace Agrees

variable {tree other : Tree}

/-- Trees that agree are rendered the same. -/
theorem render_eq (h : tree.Agrees other) (above : Bool) :
    tree.render above = other.render above := by
  induction h generalizing above with
  | hidden children others hlabel hother =>
    rw [render_hidden hlabel, render_hidden hother]
  | @node label children others heval hlength hchildren ih =>
    have hempty : children.isEmpty = others.isEmpty := by
      rw [Bool.eq_iff_iff, List.isEmpty_iff_length_eq_zero, List.isEmpty_iff_length_eq_zero,
        hlength]
    exact render_congr hempty fun above => renderAll_congr hlength fun pair hpair =>
      ih pair hpair above

/-- What nodes below hidden ones are evaluated to makes no difference to whether a tree is
rendered. -/
theorem render_result (h : tree.Agrees other) (above : Bool) :
    (tree.render above).result = .ok (tree.fragments above) := by
  induction h generalizing above with
  | hidden children others hlabel hother =>
    rw [fragments, render_hidden hlabel]
    rfl
  | @node label children others heval hlength hchildren ih =>
    refine render_node heval fun child hmem => ?_
    rw [← List.map_fst_zip (Nat.le_of_eq hlength)] at hmem
    rcases List.mem_map.1 hmem with ⟨pair, hpair, rfl⟩
    exact ih pair hpair _

end Agrees

end Tree

/-- Trees that agree but for comments for the template only have the same code, and compiling
them reports the same and gives the same to any sink. -/
theorem hidden_comments_leak_nothing {tree other : Tree} (h : tree.Agrees other) (above : Bool) :
    (∃ log code, tree.code above = ⟨log, .ok code⟩ ∧ other.code above = ⟨log, .ok code⟩)
      ∧ ∀ (session : Session) {σ : Type} (sink : Sink σ) (held : σ), ∃ log after,
        session.compileInto sink held above tree = ⟨log, .ok after⟩
          ∧ session.compileInto sink held above other = ⟨log, .ok after⟩ := by
  have hresult := h.render_result above
  have hcode : other.code above = tree.code above := by
    rw [Tree.code, Tree.code, h.render_eq]
  refine ⟨⟨_, _, Logged.eq_of_result (Tree.code_result hresult), ?_⟩, fun session σ sink held => ?_⟩
  · rw [hcode]
    exact Logged.eq_of_result (Tree.code_result hresult)
  · have hcompile : session.compileInto sink held above other
        = session.compileInto sink held above tree := by
      rw [Session.compileInto, Session.compileInto, Session.compile, Session.compile, hcode]
    have hafter : (session.compileInto sink held above tree).result
        = .ok (sink.writeAll held (trimmedChunks (printFragments (tree.fragments above)))) := by
      rw [Session.result_compileInto, Session.compile_result hresult]
      rfl
    rw [hcompile]
    exact ⟨_, _, Logged.eq_of_result hafter, Logged.eq_of_result hafter⟩

/-- A comment below host code and one in an element that keeps blanks; below one of them
stands text, and a node that was never evaluated. -/
theorem hidden_comments_leak_nothing_of_unevaluated :
    ∃ log code,
      (Tree.node (.build ⟨.script, ascii "- if x", {}, {}⟩)
          [.node (.build ⟨.comment, ascii "-# a", {}, {}⟩)
            [.node (.build ⟨.text, ascii "secret", {}, {}⟩) [],
              .node ⟨⟨.script, ascii "= y", {}, {}⟩, false⟩ []],
            .node (.build ⟨.element, ascii "%pre", {}, {}⟩)
              [.node (.build ⟨.comment, ascii "-#", {}, {}⟩) []]]).code false
          = ⟨log, .ok code⟩
        ∧ (Tree.node (.build ⟨.script, ascii "- if x", {}, {}⟩)
          [.node (.build ⟨.comment, ascii "-# other", {}, {}⟩) [],
            .node (.build ⟨.element, ascii "%pre", {}, {}⟩)
              [.node (.build ⟨.comment, ascii "-# more", {}, {}⟩) []]]).code false
          = ⟨log, .ok code⟩ := by
  refine (hidden_comments_leak_nothing (.node rfl rfl ?_) false).1
  simp only [List.zip_cons_cons, List.zip_nil_right, List.forall_mem_cons, List.not_mem_nil,
    false_implies, implies_true, and_true]
  refine ⟨.hidden _ _ ⟨rfl, rfl, by decide⟩ ⟨rfl, rfl, by decide⟩, .node rfl rfl ?_⟩
  simp only [List.zip_cons_cons, List.zip_nil_right, List.forall_mem_cons, List.not_mem_nil,
    false_implies, implies_true, and_true]
  exact .hidden _ _ ⟨rfl, rfl, by decide⟩ ⟨rfl, rfl, by decide⟩

end TemplateCompiler
