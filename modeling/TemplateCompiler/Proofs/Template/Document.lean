import TemplateCompiler.Proofs.Code.TextRun
import TemplateCompiler.Proofs.Template.Delimited

/-!
# The document of a static template

A static template is written down as a document: the lines of its nodes in document
order, with their trim marks.  Compiling the template gives pushes of literals that
are read back as this document with its marks resolved.

Main results:

- Theorem {lit}`Tree.render_eq_linePushes`: a static tree is rendered to the pushes
  of its lines.
- Theorem {lit}`compile_document`: the compiled literals hold the resolved document.
-/

namespace TemplateCompiler

namespace Tree

mutual

/-- The lines of a tree in document order. -/
def documentLines : Tree → List DocumentLine
  | .node label children =>
    let indent := label.directive.position.markupWidth label.directive.options.uglify
    if label.markup.isPair then
      if children.isEmpty then [⟨indent, label.markup.opening ++ label.markup.closing⟩]
      else
        [⟨indent, label.markup.opening⟩] ++ documentLinesOfAll children
          ++ [⟨indent, label.markup.closing⟩]
    else if !label.markup.opener.isEmpty then [⟨indent, label.markup.opening⟩]
    else if label.markup.silent then []
    else documentLinesOfAll children

/-- The lines of several trees. -/
def documentLinesOfAll : List Tree → List DocumentLine
  | [] => []
  | tree :: rest => tree.documentLines ++ documentLinesOfAll rest

end

private theorem documentLinesOfAll_eq_flatMap (trees : List Tree) :
    documentLinesOfAll trees = trees.flatMap documentLines := by
  induction trees with
  | nil => rfl
  | cons tree rest ih => rw [documentLinesOfAll, ih, List.flatMap_cons]

end Tree

/-! ## Nodes that flow -/

/-- A static node that stands at the given code indentation, has an expression without
marks, keeps no blanks, and has content only between an opener and a closer or without
both. -/
structure Node.Flows (width : Nat) (node : Node) (hasContent : Bool) : Prop where
  isStatic : node.IsStatic
  codeWidth : node.directive.position.codeWidth = width
  unmarked : Unmarked node.directive.expression
  preserve : node.markup.preserve = false
  content : hasContent = true → node.markup.isPair = true ∨
    node.markup.opener = [] ∧ node.markup.closer = []

namespace Node.Flows

variable {width : Nat} {node : Node} {hasContent : Bool}

private theorem isPreserved_eq (h : node.Flows width hasContent) :
    node.isPreserved false = false := by
  simp [isPreserved, h.preserve]

private theorem emit_eq (h : node.Flows width hasContent) (text : Bytes) :
    (node.margin false).emit (.pushText text)
      = [.statement (DocumentLine.push width
          ⟨node.directive.position.markupWidth node.directive.options.uglify, text⟩)] := by
  simp [Margin.emit, Node.margin, Directive.margin, h.isPreserved_eq, h.codeWidth,
    DocumentLine.push]

end Node.Flows

namespace Tree

variable {width : Nat}

/-- The fragments that push the lines of a tree. -/
def linePushes (width : Nat) (tree : Tree) : List Fragment :=
  tree.documentLines.map fun line => .statement (line.push width)

private theorem linePushes_eq (width : Nat) (children : List Tree) :
    (documentLinesOfAll children).map (fun line => Fragment.statement (line.push width))
      = children.flatMap (linePushes width) := by
  rw [documentLinesOfAll_eq_flatMap, List.map_flatMap]
  rfl

/-- A leaf is rendered to the pushes of its lines. -/
theorem render_eq_linePushes_leaf {label : Node} (h : label.Flows width false) :
    ((Tree.node label []).render false).result = .ok ((Tree.node label []).linePushes width) := by
  rw [render_leaf h.isStatic, h.emit_eq, h.emit_eq]
  cases hpair : label.markup.isPair with
  | true => simp [linePushes, documentLines, hpair]
  | false =>
    cases hopener : label.markup.opener.isEmpty with
    | true => simp [linePushes, documentLines, documentLinesOfAll, hpair, hopener]
    | false => simp [linePushes, documentLines, hpair, hopener]

/-- A node with content is rendered to the pushes of its lines if its children are. -/
theorem render_eq_linePushes_branch {label : Node} {children : List Tree}
    (h : label.Flows width true) (hne : children ≠ [])
    (hchildren : ∀ child ∈ children,
      (child.render false).result = .ok (child.linePushes width)) :
    ((Tree.node label children).render false).result
      = .ok ((Tree.node label children).linePushes width) := by
  rw [← h.isPreserved_eq] at hchildren
  rw [render_branch h.isStatic hne hchildren, h.emit_eq, h.emit_eq, h.emit_eq, h.preserve,
    ← linePushes_eq]
  cases hpair : label.markup.isPair with
  | true => simp [linePushes, documentLines, hpair, hne]
  | false =>
    have hopener : label.markup.opener = [] := by
      rcases h.content rfl with hcontent | hcontent
      · rw [hcontent] at hpair
        contradiction
      · exact hcontent.1
    cases hsilent : label.markup.silent with
    | true => simp [linePushes, documentLines, hpair, hopener, hsilent]
    | false => simp [linePushes, documentLines, hpair, hopener, hsilent]

/-- A static tree is rendered to the pushes of its lines. -/
theorem render_eq_linePushes {tree : Tree} (h : tree.Every (Node.Flows width)) :
    (tree.render false).result = .ok (tree.linePushes width) := by
  induction h with
  | @node label children hlabel hchildren ih =>
    cases children with
    | nil => exact render_eq_linePushes_leaf hlabel
    | cons child rest => exact render_eq_linePushes_branch hlabel (by simp) ih

/-- The marks of all lines touch markup. -/
theorem marksTouch_documentLines {tree : Tree} (h : tree.Every (Node.Flows width)) :
    ∀ line ∈ tree.documentLines, marksTouch none line.text = true := by
  induction h with
  | @node label children hlabel hchildren ih =>
    have hmarkup := hlabel.isStatic.delimited hlabel.unmarked
    have hend : marksTouch none [] = true := rfl
    have hopening : marksTouch none label.markup.opening = true := by
      simpa using hmarkup.opening_append hend
    have hcontent : ∀ line ∈ documentLinesOfAll children, marksTouch none line.text = true := by
      intro line hline
      rw [documentLinesOfAll_eq_flatMap, List.mem_flatMap] at hline
      rcases hline with ⟨child, hmem, hline⟩
      exact ih child hmem line hline
    rw [documentLines]
    split
    · next hpair =>
      have hclosing : marksTouch none label.markup.closing = true := by
        simpa using hmarkup.closing_append (Markup.closer_ne_nil hpair) hend
      split
      · simpa using hmarkup.opening_append hclosing
      · intro line hline
        simp only [List.mem_append, List.mem_singleton] at hline
        rcases hline with (rfl | hline) | rfl
        · exact hopening
        · exact hcontent line hline
        · exact hclosing
    · split
      · simpa using hopening
      · split
        · simp
        · exact hcontent

end Tree

/-! ## Compiling -/

/-- Escaped texts are read back as they were. -/
theorem Literal.mapM_decode_escape (texts : List Bytes) :
    (texts.map escape).mapM decode = some texts := by
  induction texts with
  | nil => rfl
  | cons text rest ih =>
    rw [List.map_cons, List.mapM_cons, decode_escape, ih]
    rfl

/-- A static template is compiled to pushes of literals, and these are read back as the
document of the template with its marks resolved.  The node at its top may be made under
other options. -/
theorem compile_document (session maker : Session) {width : Nat} {children : List Tree}
    (h : ∀ child ∈ children, child.Every (Node.Flows width)) :
    ∃ bodies texts : List Bytes,
      (session.compile false (.node maker.root children)).result
          = .ok (bodies.map fun body => spaces width ++ pushLiteral body ++ [Byte.lineFeed])
        ∧ bodies.mapM Literal.decode = some texts
        ∧ [Byte.lineFeed].intercalate texts
          = resolved byteRole (documentOf (Tree.node maker.root children).documentLines) := by
  let lines := (Tree.node maker.root children).documentLines
  have hlines : lines = children.flatMap Tree.documentLines :=
    Tree.documentLinesOfAll_eq_flatMap children
  have hrender : ((Tree.node maker.root children).render false).result
      = .ok ((lines.map (DocumentLine.push width)).map .statement) := by
    have hchildren : ∀ child ∈ children,
        (child.render false).result = .ok (child.linePushes width) :=
      fun child hmem => Tree.render_eq_linePushes (h child hmem)
    rw [Tree.render_root maker hchildren, List.map_map, hlines, List.map_flatMap]
    rfl
  have hmarks : ∀ line ∈ lines, marksTouch none line.text = true := by
    intro line hline
    rw [hlines, List.mem_flatMap] at hline
    rcases hline with ⟨child, hmem, hline⟩
    exact Tree.marksTouch_documentLines (h child hmem) line hline
  rcases exists_chunks_texts width hmarks with ⟨texts, hchunks, hdocument⟩
  refine ⟨texts.map Literal.escape, texts, ?_, ?_, hdocument⟩
  · rw [Session.compile_result hrender, printFragments_statements, hchunks, List.map_map]
    rfl
  · exact Literal.mapM_decode_escape texts

/-- A list in a block of code, with an item that pulls its neighbours in. -/
theorem compile_document_of_list :
    ∃ bodies texts : List Bytes,
      (Session.compile {} false (Session.template {}
          [.item .element (ascii "%ul") ⟨1, 1⟩ [.item .element (ascii "%li><") ⟨2, 1⟩
            [.item .text (ascii "a \\") ⟨3, 1⟩ []]]])).result
          = .ok (bodies.map fun body => spaces 2 ++ pushLiteral body ++ [Byte.lineFeed])
        ∧ bodies.mapM Literal.decode = some texts
        ∧ [Byte.lineFeed].intercalate texts = ascii "<ul><li>a \\</li></ul>" := by
  have hflows : ∀ child ∈ Session.growAll {}
      [.item .element (ascii "%ul") ⟨1, 1⟩ [.item .element (ascii "%li><") ⟨2, 1⟩
        [.item .text (ascii "a \\") ⟨3, 1⟩ []]]], child.Every (Node.Flows 2) := by
    simp only [Session.growAll, Session.grow, List.forall_mem_cons]
    refine ⟨.node ?_ ?_, by simp⟩
    · exact ⟨⟨rfl, rfl⟩, rfl, by decide, by decide +kernel, fun _ => .inl (by decide +kernel)⟩
    · rw [List.forall_mem_singleton]
      refine .node ?_ ?_
      · exact ⟨⟨rfl, rfl⟩, rfl, by decide, by decide +kernel, fun _ => .inl (by decide +kernel)⟩
      · rw [List.forall_mem_singleton]
        exact .node ⟨⟨rfl, rfl⟩, rfl, by decide, rfl, fun h => absurd h (by decide)⟩ (by simp)
  rcases compile_document {} {} hflows with ⟨bodies, texts, hresult, hdecode, htext⟩
  refine ⟨bodies, texts, hresult, hdecode, htext.trans ?_⟩
  decide +kernel

end TemplateCompiler
