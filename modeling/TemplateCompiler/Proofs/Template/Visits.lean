import TemplateCompiler.Proofs.Template.Statements

/-!
# Where rendering stops

Rendering goes through a tree from its top and stops at the first node that was not
evaluated.  It does not look below a silent node that has no pair of opener and closer, unless
that is host code; all other nodes with content have theirs looked at, whatever becomes of it.

Main results:

- Definition {lit}`Node.conceals`: the nodes below which nothing is looked at.
- Theorem {lit}`Node.layout_eq_closed_iff`: a node with content conceals it, or has it
  rendered.
- Theorem {lit}`Tree.render_error_iff`: rendering stops exactly if it visits a node that was
  not evaluated, and for no other reason.
-/

namespace TemplateCompiler

private theorem Script.visited_frame (script : Script) (hasContent : Bool) :
    (script.frame hasContent).visited = true := by
  unfold frame
  split
  · rfl
  · split <;> rfl

namespace Node

/-- Whether nothing below a node is looked at: it is silent, without a pair of opener and
closer, and no host code. -/
def conceals (node : Node) : Bool :=
  node.directive.kind != .script && !node.markup.isPair && node.markup.silent

/-- Host code is known as such also before it is read. -/
theorem script?_eq_none_iff (node : Node) :
    node.script? = none ↔ node.directive.kind ≠ .script := by
  obtain ⟨⟨kind, expression, options, position⟩, evaluated⟩ := node
  cases evaluated <;> cases kind <;>
    simp [script?, reading, Directive.reading, Kind.unread]

private theorem visited_frame (node : Node) : (node.frame true).visited = !node.conceals := by
  have hkind := node.script?_eq_none_iff
  cases hscript : node.script? with
  | some script =>
    have hvisited := script.visited_frame true
    rw [hscript] at hkind
    have hscriptKind : node.directive.kind = .script := by simpa using hkind
    simp [frame, hscript, hvisited, conceals, hscriptKind]
  | none =>
    rw [hscript] at hkind
    simp only [frame, hscript, Markup.frame, conceals, bne_iff_ne.2 (hkind.1 rfl)]
    cases node.markup.isPair <;> rfl

/-- A node with content conceals it, or has it rendered. -/
theorem layout_eq_closed_iff (node : Node) (above : Bool) :
    (∃ fragments, node.layout above true = .closed fragments) ↔ node.conceals = true := by
  rw [← Bool.not_eq_false', ← visited_frame]
  cases hdetail : node.reading.detail with
  | script script =>
    simp only [layout, frame, script?, hdetail, Script.layout, script.visited_frame]
    split
    · simp
    · split <;> simp
  | none | element element | comment conditional =>
    simp only [layout, frame, script?, hdetail, Markup.layout, Markup.frame]
    cases node.markup.isPair with
    | true => cases node.markup.preserve <;> simp
    | false => cases node.markup.silent <;> simp

end Node

namespace Tree

/-- Whether a node that was not evaluated is visited. -/
def VisitsUnevaluated (tree : Tree) : Prop :=
  ∃ path part, tree.Reaches path part ∧ part.label.evaluated = false

/-- A tree visits a node that is not evaluated at its top, or below a child that is rendered. -/
theorem visitsUnevaluated_node_iff {label : Node} {children : List Tree} :
    (Tree.node label children).VisitsUnevaluated ↔
      label.evaluated = false
        ∨ (label.conceals = false ∧ ∃ child ∈ children, child.VisitsUnevaluated) := by
  have hvisited : (label.frame true).visited = true ↔ label.conceals = false := by
    rw [label.visited_frame, Bool.not_eq_true']
  constructor
  · rintro ⟨path, part, hreaches, hpart⟩
    cases hreaches with
    | here => exact .inl hpart
    | nested hlabel hchild h =>
      exact .inr ⟨hvisited.1 hlabel, _, List.mem_of_getElem? hchild, _, part, h, hpart⟩
  · rintro (hlabel | ⟨hlabel, child, hchild, path, part, h, hpart⟩)
    · exact ⟨[], .node label children, .here, hlabel⟩
    · rcases List.getElem?_of_mem hchild with ⟨index, hindex⟩
      exact ⟨index :: path, part, .nested (hvisited.2 hlabel) hindex h, hpart⟩

end Tree

/-! ## Rendering -/

/-- Steps stop where the first one or the second one stops. -/
theorem Logged.bind_result_error_iff {α β : Type} {x : Logged α} {f : α → Logged β}
    {violation : Violation} :
    (x >>= f).result = .error violation ↔
      x.result = .error violation ∨ ∃ a, x.result = .ok a ∧ (f a).result = .error violation := by
  cases hx : x.result with
  | error other =>
    rw [bind_of_error hx]
    simp
  | ok a =>
    rw [bind_result_ok hx]
    simp

namespace Tree

variable {above : Bool} {violation : Violation}

/-- Content that stops the rendering is looked at, unless the layout is closed. -/
theorem conceals_of_renderAll_error {label : Node} {children : List Tree}
    (hopen : ∀ fragments, label.layout above (!children.isEmpty) ≠ .closed fragments)
    (h : (renderAll (label.isPreserved above) children).result = .error violation) :
    label.conceals = false := by
  cases children with
  | nil => cases h
  | cons child rest =>
    rw [← Bool.not_eq_true, ← label.layout_eq_closed_iff above]
    rintro ⟨fragments, hclosed⟩
    exact hopen fragments hclosed

/-- An evaluated node stops the rendering only through what is below it. -/
theorem render_error_of_evaluated {label : Node} (h : label.evaluated = true)
    (children : List Tree) :
    ((Tree.node label children).render above).result = .error violation ↔
      label.conceals = false
        ∧ (renderAll (label.isPreserved above) children).result = .error violation := by
  have hlooks := @conceals_of_renderAll_error above violation label children
  rw [render, if_pos h]
  cases hlayout : label.layout above (!children.isEmpty) with
  | closed fragments =>
    simp only [Logged.pure_result, reduceCtorEq, false_iff, not_and]
    intro hvisible
    cases children with
    | nil => simp [renderAll]
    | cons child rest =>
      rw [(label.layout_eq_closed_iff above).1 ⟨fragments, hlayout⟩] at hvisible
      cases hvisible
  | wrapped warnings before after =>
    have hwarn : (Logged.warnAll warnings).result = .ok () := rfl
    simp only [Logged.bind_result_ok hwarn, Logged.bind_result_error_iff, Logged.pure_result,
      reduceCtorEq, and_false, exists_false, or_false]
    exact ⟨fun herror => ⟨hlooks (by simp [hlayout]) herror, herror⟩, And.right⟩
  | folded margin opening closing =>
    simp only [Logged.bind_result_error_iff, Logged.pure_result, reduceCtorEq, and_false,
      exists_false, or_false]
    exact ⟨fun herror => ⟨hlooks (by simp [hlayout]) herror, herror⟩, And.right⟩

mutual

/-- Rendering stops exactly if it visits a node that was not evaluated, and for no other
reason. -/
theorem render_error_iff (above : Bool) (violation : Violation) : ∀ tree : Tree,
    (tree.render above).result = .error violation ↔
      violation = .renderedUnevaluated ∧ tree.VisitsUnevaluated
  | .node label children => by
    rw [visitsUnevaluated_node_iff]
    cases heval : label.evaluated with
    | false =>
      rw [render_eq_stop heval]
      simp only [Logged.stop, Except.error.injEq, true_or, and_true]
      exact eq_comm
    | true =>
      rw [render_error_of_evaluated heval, renderAll_error_iff]
      simp only [Bool.true_eq_false, false_or]
      exact and_left_comm

theorem renderAll_error_iff (above : Bool) (violation : Violation) : ∀ trees : List Tree,
    (renderAll above trees).result = .error violation ↔
      violation = .renderedUnevaluated ∧ ∃ tree ∈ trees, tree.VisitsUnevaluated
  | [] => by simp [renderAll]
  | tree :: rest => by
    have hrest := renderAll_error_iff above violation rest
    rw [renderAll, List.exists_mem_cons_iff, and_or_left]
    cases hfirst : (tree.render above).result with
    | error other =>
      -- The first tree stops the rendering, so the others are not looked at.
      have hstop := (render_error_iff above other tree).1 hfirst
      rw [Logged.bind_of_error hfirst]
      simp only [Except.error.injEq, hstop.1, hstop.2, and_true]
      exact ⟨fun heq => .inl heq.symm, fun heq => (heq.elim id And.left).symm⟩
    | ok fragments =>
      have hgoes : ¬(violation = .renderedUnevaluated ∧ tree.VisitsUnevaluated) := by
        rw [← render_error_iff above violation tree, hfirst]
        simp
      rw [Logged.bind_result_ok hfirst, Logged.bind_result_error_iff, hrest]
      simp [hgoes]

end

/-- The code of a tree meets a violation exactly when a node is visited that is not evaluated. -/
theorem code_error_iff (above : Bool) (violation : Violation) (tree : Tree) :
    (tree.code above).result = .error violation ↔
      violation = .renderedUnevaluated ∧ tree.VisitsUnevaluated := by
  rw [code, Logged.bind_result_error_iff, render_error_iff]
  simp

end Tree

/-- Compiling stops where rendering does. -/
theorem Session.compile_error_iff (session : Session) (above : Bool) (violation : Violation)
    (tree : Tree) :
    (session.compile above tree).result = .error violation ↔
      violation = .renderedUnevaluated ∧ tree.VisitsUnevaluated := by
  rw [compile, Logged.bind_result_error_iff, Tree.code_error_iff, or_iff_left]
  rintro ⟨code, -, hstop⟩
  split at hstop <;> cases hstop

end TemplateCompiler
