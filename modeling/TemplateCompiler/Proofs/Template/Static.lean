import TemplateCompiler.Session

/-!
# Static templates

A template without host code is laid out by its markup alone.  This file says what
becomes of a tree from what becomes of the trees below it.

Main results:

- Theorem {lit}`Node.IsStatic.layout_eq`: a static node is laid out by its markup.
- Theorems {lit}`Tree.render_leaf` and {lit}`Tree.render_branch`: what a static tree is
  rendered to, without and with content.
- Theorem {lit}`Tree.render_of_evaluated`: evaluated trees are rendered.
-/

namespace TemplateCompiler

/-- A pair has a closer. -/
theorem Markup.closer_ne_nil {markup : Markup} (h : markup.isPair = true) :
    markup.closer ≠ [] := by
  simp only [isPair, Bool.and_eq_true, Bool.not_eq_true', List.isEmpty_eq_false_iff] at h
  exact h.2

/-! ## Static nodes -/

/-- The kinds of constructs that hold no host code and read their markup themselves. -/
def Kind.isStatic : Kind → Bool
  | .plain | .text | .element | .comment | .doctype => true
  | .script | .custom _ => false

/-- An evaluated node without host code. -/
structure Node.IsStatic (node : Node) : Prop where
  evaluated : node.evaluated = true
  kind : node.directive.kind.isStatic = true

namespace Node.IsStatic

variable {node : Node}

private theorem reading_eq (h : node.IsStatic) : node.reading = node.directive.reading := by
  rw [Node.reading, h.evaluated]
  rfl

/-- The markup of a static node is that of its directive. -/
theorem markup_eq (h : node.IsStatic) : node.markup = node.directive.reading.markup := by
  rw [Node.markup, h.reading_eq]

/-- The kinds of static nodes. -/
theorem kind_cases (h : node.IsStatic) :
    node.directive.kind = .plain ∨ node.directive.kind = .text
      ∨ node.directive.kind = .element ∨ node.directive.kind = .comment
      ∨ node.directive.kind = .doctype := by
  have hkind := h.kind
  cases hnode : node.directive.kind with
  | script => simp [hnode, Kind.isStatic] at hkind
  | custom markup => simp [hnode, Kind.isStatic] at hkind
  | plain | text | element | comment | doctype => simp

/-- A static node is laid out by its markup. -/
theorem layout_eq (h : node.IsStatic) (above hasContent : Bool) :
    node.layout above hasContent
      = node.markup.layout (node.margin above) above hasContent := by
  rw [Node.layout, h.reading_eq]
  rcases h.kind_cases with hnode | hnode | hnode | hnode | hnode <;>
    simp only [Directive.reading, hnode]

/-- A silent node has no markup. -/
theorem opener_of_silent (h : node.IsStatic) (hsilent : node.markup.silent = true) :
    node.markup.opener = [] := by
  rw [h.markup_eq] at hsilent ⊢
  rcases h.kind_cases with hnode | hnode | hnode | hnode | hnode
  · simp [Directive.reading, hnode]
  · simp [Directive.reading, hnode] at hsilent
  · simp [Directive.reading, hnode, TagForm.markup] at hsilent
  · simp only [Directive.reading, hnode] at hsilent ⊢
    rw [(Comment.markup_silent_iff _).1 hsilent]
    rfl
  · simp [Directive.reading, hnode] at hsilent

/-- A static node that is silent has no pair of opener and closer. -/
theorem not_isPair_of_silent (h : node.IsStatic) (hsilent : node.markup.silent = true) :
    node.markup.isPair = false := by
  simp [Markup.isPair, h.opener_of_silent hsilent]

end Node.IsStatic

private theorem Session.root_isStatic (session : Session) : session.root.IsStatic :=
  ⟨rfl, rfl⟩

/-! ## Trees -/

namespace Tree

/-- A property of all nodes of a tree, which is told whether anything is nested below
the node. -/
inductive Every (p : Node → Bool → Prop) : Tree → Prop
  | node {label : Node} {children : List Tree} (hlabel : p label (!children.isEmpty))
      (hchildren : ∀ child ∈ children, Every p child) : Every p (.node label children)

/-- What holds of every node holds with anything that follows from it. -/
theorem Every.imp {p q : Node → Bool → Prop} (hpq : ∀ node hasContent, p node hasContent →
    q node hasContent) {tree : Tree} (h : tree.Every p) : tree.Every q := by
  induction h with
  | node hlabel hchildren ih => exact .node (hpq _ _ hlabel) ih

mutual

/-- A tree with each of its nodes changed. -/
def mapNodes (change : Node → Node) : Tree → Tree
  | .node label children => .node (change label) (mapNodesAll change children)

/-- Trees with each of their nodes changed. -/
def mapNodesAll (change : Node → Node) : List Tree → List Tree
  | [] => []
  | tree :: rest => tree.mapNodes change :: mapNodesAll change rest

end

private theorem mapNodesAll_eq_map (change : Node → Node) (trees : List Tree) :
    mapNodesAll change trees = trees.map (mapNodes change) := by
  induction trees with
  | nil => rfl
  | cons tree rest ih => rw [mapNodesAll, ih, List.map_cons]

/-- The nodes of a tree are changed at the top and below each child. -/
theorem mapNodes_node (change : Node → Node) (label : Node) (children : List Tree) :
    (Tree.node label children).mapNodes change
      = .node (change label) (children.map (mapNodes change)) := by
  rw [mapNodes, mapNodesAll_eq_map]

mutual

/-- Two changes of all nodes are one. -/
theorem mapNodes_mapNodes (first second : Node → Node) : ∀ tree : Tree,
    (tree.mapNodes first).mapNodes second = tree.mapNodes (second ∘ first)
  | .node label children => by
    rw [mapNodes, mapNodes, mapNodes, mapNodesAll_mapNodesAll first second children]
    rfl

theorem mapNodesAll_mapNodesAll (first second : Node → Node) : ∀ trees : List Tree,
    mapNodesAll second (mapNodesAll first trees) = mapNodesAll (second ∘ first) trees
  | [] => rfl
  | tree :: rest => by
    rw [mapNodesAll, mapNodesAll, mapNodesAll, mapNodes_mapNodes first second tree,
      mapNodesAll_mapNodesAll first second rest]

end

/-- What a change makes true of each node is true of every node of the changed tree. -/
theorem Every.mapNodes {p q : Node → Bool → Prop} {change : Node → Node}
    (hpq : ∀ node hasContent, p node hasContent → q (change node) hasContent) {tree : Tree}
    (h : tree.Every p) : (tree.mapNodes change).Every q := by
  induction h with
  | @node label children hlabel hchildren ih =>
    rw [mapNodes_node]
    refine .node ?_ fun child hmem => ?_
    · rw [List.isEmpty_map]
      exact hpq label _ hlabel
    · rcases List.mem_map.1 hmem with ⟨child, hchild, rfl⟩
      exact ih child hchild

/-- Trees that have results are rendered to them, one after another. -/
theorem renderAll_result {above : Bool} {trees : List Tree} {fragments : Tree → List Fragment}
    (h : ∀ tree ∈ trees, (tree.render above).result = .ok (fragments tree)) :
    (renderAll above trees).result = .ok (trees.map fragments) := by
  induction trees with
  | nil => rfl
  | cons tree rest ih =>
    rw [List.forall_mem_cons] at h
    rw [renderAll, Logged.bind_result_ok h.1, Logged.bind_result_ok (ih h.2)]
    rfl

section Layouts

variable {label : Node} {children : List Tree} {above : Bool} {fragments : Tree → List Fragment}
  (heval : label.evaluated = true)
  (h : ∀ child ∈ children,
    (child.render (label.isPreserved above)).result = .ok (fragments child))

include heval h

/-- Wrapped content stands between the fragments of its node. -/
theorem render_wrapped {warnings : List Warning} {before after : List Fragment}
    (hlayout : label.layout above (!children.isEmpty) = .wrapped warnings before after) :
    ((Tree.node label children).render above).result
      = .ok (before ++ children.flatMap fragments ++ after) := by
  have hwarn : (Logged.warnAll warnings).result = .ok () := rfl
  rw [render, if_pos heval, hlayout]
  simp only []
  rw [Logged.bind_result_ok hwarn, Logged.bind_result_ok (renderAll_result h), List.flatMap_def]
  rfl

/-- Folded content is the text of one literal. -/
theorem render_folded {margin : Margin} {opening closing : Bytes}
    (hlayout : label.layout above (!children.isEmpty) = .folded margin opening closing) :
    ((Tree.node label children).render above).result
      = .ok (margin.emit (.pushText (opening
          ++ [Byte.lineFeed].intercalate
            (children.map fun child => printFragments (fragments child))
          ++ closing))) := by
  rw [render, if_pos heval, hlayout]
  simp only []
  rw [Logged.bind_result_ok (renderAll_result h), List.map_map]
  rfl

end Layouts

/-- A static node with content is printed round it, folds it, drops it or passes it on. -/
theorem render_branch {label : Node} {children : List Tree} {above : Bool}
    {fragments : Tree → List Fragment} (hstatic : label.IsStatic) (hne : children ≠ [])
    (h : ∀ child ∈ children,
      (child.render (label.isPreserved above)).result = .ok (fragments child)) :
    ((Tree.node label children).render above).result
      = .ok (if label.markup.isPair then
          if label.markup.preserve then
            (label.margin above).emit (.pushText (label.markup.opening
              ++ [Byte.lineFeed].intercalate
                (children.map fun child => printFragments (fragments child))
              ++ label.markup.closing))
          else
            (label.margin above).emit (.pushText label.markup.opening)
              ++ children.flatMap fragments
              ++ (label.margin above).emit (.pushText label.markup.closing)
        else if label.markup.silent then []
        else children.flatMap fragments) := by
  have heval := hstatic.evaluated
  have hempty : (!children.isEmpty) = true := by simpa using hne
  have hlayout := hstatic.layout_eq above (!children.isEmpty)
  rw [hempty] at hlayout
  cases hpair : label.markup.isPair with
  | true =>
    cases hpreserve : label.markup.preserve with
    | true =>
      have hfolded : label.layout above (!children.isEmpty)
          = .folded (label.margin above) label.markup.opening label.markup.closing := by
        rw [hempty, hlayout]
        simp [Markup.layout, hpair, hpreserve]
      rw [render_folded heval h hfolded]
      rfl
    | false =>
      have hwrapped : label.layout above (!children.isEmpty)
          = .wrapped [] ((label.margin above).emit (.pushText label.markup.opening))
            ((label.margin above).emit (.pushText label.markup.closing)) := by
        rw [hempty, hlayout]
        simp [Markup.layout, hpair, hpreserve]
      rw [render_wrapped heval h hwrapped]
      rfl
  | false =>
    cases hsilent : label.markup.silent with
    | true =>
      have hclosed : label.layout above (!children.isEmpty) = .closed [] := by
        rw [hempty, hlayout]
        simp [Markup.layout, hpair, hsilent]
      rw [render_closed heval hclosed]
      rfl
    | false =>
      have hwrapped : label.layout above (!children.isEmpty) = .wrapped [] [] [] := by
        rw [hempty, hlayout]
        simp [Markup.layout, hpair, hsilent]
      rw [render_wrapped heval h hwrapped]
      simp

/-- A static node without content is pushed, or left for a literal above it. -/
theorem render_leaf {label : Node} (h : label.IsStatic) (above : Bool) :
    ((Tree.node label []).render above).result
      = .ok (if label.markup.isPair then
          (label.margin above).emit (.pushText (label.markup.opening ++ label.markup.closing))
        else if label.markup.opener.isEmpty then []
        else if above && !label.markup.preserve then [.markup label.markup.opening]
        else (label.margin above).emit (.pushText label.markup.opening)) := by
  have hlayout := h.layout_eq above false
  have hclosed : ∀ fragments, label.markup.layout (label.margin above) above false
        = .closed fragments →
      ((Tree.node label []).render above).result = .ok fragments := by
    intro fragments hfragments
    rw [render_closed h.evaluated (hlayout.trans hfragments)]
    rfl
  apply hclosed
  simp only [Markup.layout, Bool.false_eq_true, if_false]
  split
  · rfl
  · split
    · rfl
    · split <;> rfl

/-- What a tree is rendered to; nothing if the rendering stops. -/
def fragments (above : Bool) (tree : Tree) : List Fragment :=
  match (tree.render above).result with
  | .ok fragments => fragments
  | .error _ => []

/-- The fragments of a tree that is rendered are those it is rendered to. -/
theorem fragments_eq {above : Bool} {tree : Tree} {rendered : List Fragment}
    (h : (tree.render above).result = .ok rendered) : tree.fragments above = rendered := by
  rw [fragments, h]

/-- An evaluated node is rendered if its content is. -/
theorem render_node {label : Node} {children : List Tree} {above : Bool}
    (heval : label.evaluated = true)
    (h : ∀ child ∈ children, (child.render (label.isPreserved above)).result
      = .ok (child.fragments (label.isPreserved above))) :
    ((Tree.node label children).render above).result
      = .ok ((Tree.node label children).fragments above) := by
  cases hlayout : label.layout above (!children.isEmpty) with
  | closed closed =>
    rw [fragments, render_closed heval hlayout]
    rfl
  | wrapped warnings before after =>
    rw [fragments, render_wrapped heval h hlayout]
  | folded margin opening closing =>
    rw [fragments, render_folded heval h hlayout]

/-- Evaluated trees are rendered. -/
theorem render_of_evaluated {tree : Tree} (h : tree.Every fun node _ => node.evaluated = true)
    (above : Bool) : (tree.render above).result = .ok (tree.fragments above) := by
  induction h generalizing above with
  | node hlabel hchildren ih => exact render_node hlabel fun child hmem => ih child hmem _

/-- The node at the top of a template adds nothing to its content. -/
theorem render_root (session : Session) {children : List Tree}
    {fragments : Tree → List Fragment}
    (h : ∀ child ∈ children, (child.render false).result = .ok (fragments child)) :
    ((Tree.node session.root children).render false).result
      = .ok (children.flatMap fragments) := by
  cases children with
  | nil => rfl
  | cons child rest =>
    rw [render_branch session.root_isStatic (by simp) h]
    rfl

end Tree

/-- Statements are printed one after another. -/
theorem printFragments_statements (statements : List Statement) :
    printFragments (statements.map .statement) = statements.flatMap Statement.print := by
  rw [printFragments, List.flatMap_map]
  rfl

/-- The code of a tree is what its fragments print. -/
theorem Tree.code_result {above : Bool} {tree : Tree} {fragments : List Fragment}
    (h : (tree.render above).result = .ok fragments) :
    (tree.code above).result = .ok (printFragments fragments) := by
  rw [code, Logged.bind_result_ok h]
  rfl

/-- A tree is compiled to the trimmed chunks of what its fragments print. -/
theorem Session.compile_result {session : Session} {above : Bool} {tree : Tree}
    {fragments : List Fragment} (h : (tree.render above).result = .ok fragments) :
    (session.compile above tree).result = .ok (trimmedChunks (printFragments fragments)) := by
  rw [compile, Logged.bind_result_ok (Tree.code_result h)]
  split <;> rfl

end TemplateCompiler
