import TemplateCompiler.Proofs.Template.Blocks

/-!
# Openers in the code

The opener of a node is printed in front of its content, and the closer of a pair behind it,
however deep the node stands.  Only an opener without a closer takes no content: with something
nested below it, only that is printed.

Main results:

- Theorem {lit}`Literal.escape_infix_escape`: the written form of a part of a text stands in
  that of the text.
- Theorem {lit}`Tree.HasPart.exists_split`: what is printed of a part stands in what is printed
  of the tree.
- Theorem {lit}`render_shows_openers`: every node is printed with its opener in front of its
  content, unless it is an opener alone with something below it.
-/

namespace TemplateCompiler

namespace Literal

/-- The written form of a part of a text stands in that of the text, unless an opening brace
follows the part. -/
theorem escape_infix_escape (before text : Bytes) {after : Bytes}
    (h : after.head? ≠ some Byte.openBrace) :
    escape text <:+: escape (before ++ text ++ after) := by
  have hstart : escape text <+: escape (text ++ after) := by
    rw [escape_append_of_head h]
    exact List.prefix_append _ _
  rw [List.append_assoc]
  exact hstart.isInfix.trans (escape_suffix_escape before (text ++ after)).isInfix

end Literal

private theorem Statement.escape_infix_print (margin : Margin) (text : Bytes) :
    Literal.escape (spaces margin.markup ++ text)
      <:+: (Statement.mk margin (.pushText text)).print :=
  ⟨spaces margin.code ++ pushOpening, [Byte.quote, Byte.lineFeed],
    by simp [print, source, Action.source, pushLiteral]⟩

namespace Markup

variable {markup : Markup} {rest : Bytes}

private theorem head?_markIf_append (wanted : Bool) {mark : UInt8} (hmark : mark ≠ Byte.openBrace)
    (h : rest.head? ≠ some Byte.openBrace) :
    (markIf wanted mark ++ rest).head? ≠ some Byte.openBrace := by
  cases wanted with
  | false => exact h
  | true => simpa [markIf] using hmark

private theorem head?_markIf (wanted : Bool) {mark : UInt8} (hmark : mark ≠ Byte.openBrace) :
    (markIf wanted mark).head? ≠ some Byte.openBrace := by
  rw [← List.append_nil (markIf wanted mark)]
  exact head?_markIf_append wanted hmark (by simp)

private theorem head?_closing (h : markup.closer.head? ≠ some Byte.openBrace) :
    markup.closing.head? ≠ some Byte.openBrace := by
  have hend := head?_markIf markup.around (by decide : rightMark ≠ Byte.openBrace)
  rw [closing, List.append_assoc]
  apply head?_markIf_append _ (by decide)
  rw [List.head?_append]
  cases hcloser : markup.closer.head? with
  | none => exact hend
  | some c => rwa [hcloser] at h

/-- An opener is written as it is in any text that it starts, behind its indentation. -/
theorem escape_opener_infix (width : Nat) (h : rest.head? ≠ some Byte.openBrace) :
    Literal.escape markup.opener
      <:+: Literal.escape (spaces width ++ (markup.opening ++ rest)) := by
  have hrest := head?_markIf_append markup.inside (by decide : rightMark ≠ Byte.openBrace) h
  have hinfix := Literal.escape_infix_escape
    (spaces width ++ markIf markup.around leftMark) markup.opener hrest
  simpa [opening] using hinfix

/-- A closer is written as it is in its text. -/
theorem escape_closer_infix (width : Nat) :
    Literal.escape markup.closer <:+: Literal.escape (spaces width ++ markup.closing) := by
  have hend := head?_markIf markup.around (by decide : rightMark ≠ Byte.openBrace)
  have hinfix := Literal.escape_infix_escape
    (spaces width ++ markIf markup.inside leftMark) markup.closer hend
  simpa [closing] using hinfix

end Markup

namespace Comment

private theorem head?_closer (comment : Comment) :
    comment.markup.closer.head? ≠ some Byte.openBrace := by
  cases comment with
  | silent | note text => simp [markup]
  | conditional condition => exact (by decide : (ascii "<![endif]-->").head? ≠ some Byte.openBrace)
  | enclosing => decide

/-- A comment round its content is opened and closed as a comment. -/
theorem delimiters {comment : Comment} (h : comment.markup.closer ≠ []) :
    ascii "<!--" <+: comment.markup.opener ∧ ascii "-->" <:+ comment.markup.closer := by
  cases comment with
  | silent | note text => exact absurd rfl h
  | conditional condition =>
    simp only [markup, List.append_assoc]
    exact ⟨List.prefix_append _ _, by decide⟩
  | enclosing => exact ⟨List.prefix_refl _, List.suffix_refl _⟩

end Comment

/-! ## What a node prints of itself -/

namespace Node

/-- The code that a node prints before its content. -/
def codeBefore (node : Node) (hasContent : Bool) : Bytes :=
  ((node.frame hasContent).before.map node.statement).flatMap Statement.print

/-- The code that a node prints after its content. -/
def codeAfter (node : Node) (hasContent : Bool) : Bytes :=
  ((node.frame hasContent).after.map node.statement).flatMap Statement.print

/-- An evaluated node that reads its markup itself and keeps no blanks. -/
structure IsStandard (node : Node) : Prop where
  evaluated : node.evaluated = true
  kind : ∀ markup, node.directive.kind ≠ .custom markup
  preserve : node.markup.preserve = false

/-- A node that is not silent prints its content. -/
theorem visited_of_not_silent {node : Node} (h : node.markup.silent = false) (hasContent : Bool) :
    (node.frame hasContent).visited = true := by
  unfold frame
  split
  · next script _ =>
    rcases script.exists_frame hasContent with ⟨action, closing, hframe, -⟩
    rw [hframe]
  · unfold Markup.frame
    split
    · split
      · rfl
      · simp [h]
    · split
      · rfl
      · split <;> rfl

namespace IsStandard

variable {node : Node}

private theorem head?_closer (h : node.IsStandard) :
    node.markup.closer.head? ≠ some Byte.openBrace := by
  rw [Node.markup, Node.reading, h.evaluated, if_pos rfl, Directive.reading]
  cases hkind : node.directive.kind with
  | plain | text | script | doctype => simp
  | element =>
    have hangled := (TagForm.read node.directive.expression).angled_markup node.directive.options
    intro hbrace
    have hne : ((TagForm.read node.directive.expression).markup node.directive.options).closer
        ≠ [] := by
      intro hnil
      simp [hnil] at hbrace
    rw [(hangled.2 hne).1] at hbrace
    exact absurd hbrace (by decide)
  | comment => exact (Comment.read node.directive.expression).head?_closer
  | custom markup => exact absurd hkind (h.kind markup)

private theorem delimiters_of_comment (h : node.IsStandard) (hkind : node.directive.kind = .comment)
    (hcloser : node.markup.closer ≠ []) :
    ascii "<!--" <+: node.markup.opener ∧ ascii "-->" <:+ node.markup.closer := by
  rw [Node.markup, Node.reading, h.evaluated, if_pos rfl, Directive.reading, hkind] at hcloser ⊢
  exact Comment.delimiters hcloser

/-- A standard node with an opener prints its markup alone. -/
theorem frame_of_opener (h : node.IsStandard) (hopener : node.markup.opener ≠ [])
    (hasContent : Bool) : node.frame hasContent = node.markup.frame hasContent := by
  cases hscript : node.script? with
  | none => rw [frame, hscript]
  | some script =>
    rw [(script_of_evaluated h.evaluated hscript).2] at hopener
    exact absurd rfl hopener

/-- An opener is printed before the content, unless it is one without a closer. -/
theorem escape_opener_infix (h : node.IsStandard) (hopener : node.markup.opener ≠ [])
    {hasContent : Bool} (hcontent : hasContent = true → node.markup.closer ≠ []) :
    Literal.escape node.markup.opener <:+: node.codeBefore hasContent := by
  obtain ⟨rest, hbefore, hrest⟩ : ∃ rest,
      (node.frame hasContent).before = [.pushText (node.markup.opening ++ rest)]
        ∧ rest.head? ≠ some Byte.openBrace := by
    rw [h.frame_of_opener hopener, Markup.frame]
    cases hasContent with
    | true =>
      have hpair : node.markup.isPair = true := by
        simp [Markup.isPair, hopener, hcontent rfl]
      exact ⟨[], by simp [hpair], by simp⟩
    | false =>
      cases hpair : node.markup.isPair with
      | true => exact ⟨node.markup.closing, by simp, Markup.head?_closing h.head?_closer⟩
      | false => exact ⟨[], by simp [hopener], by simp⟩
  rw [codeBefore, hbefore, List.map_singleton, List.flatMap_singleton]
  exact (Markup.escape_opener_infix _ hrest).trans (Statement.escape_infix_print _ _)

/-- The closer of a pair is printed after its content. -/
theorem escape_closer_infix (h : node.IsStandard) (hopener : node.markup.opener ≠ [])
    (hcloser : node.markup.closer ≠ []) :
    Literal.escape node.markup.closer <:+: node.codeAfter true := by
  have hpair : node.markup.isPair = true := by
    simp [Markup.isPair, hopener, hcloser]
  have hafter : (node.frame true).after = [.pushText node.markup.closing] := by
    rw [h.frame_of_opener hopener, Markup.frame]
    simp [hpair]
  rw [codeAfter, hafter, List.map_singleton, List.flatMap_singleton]
  exact (Markup.escape_closer_infix _).trans (Statement.escape_infix_print _ _)

/-- An opener without a closer is not printed round content. -/
theorem code_of_opener_alone (h : node.IsStandard) (hopener : node.markup.opener ≠ [])
    (hcloser : node.markup.closer = []) :
    node.codeBefore true = [] ∧ node.codeAfter true = [] := by
  have hpair : node.markup.isPair = false := by
    simp [Markup.isPair, hcloser]
  have hframe : node.frame true = ⟨[], [], !node.markup.silent⟩ := by
    rw [h.frame_of_opener hopener, Markup.frame]
    simp [hpair]
  simp [codeBefore, codeAfter, hframe]

end IsStandard

end Node

/-! ## Parts of a tree -/

namespace Tree

/-- A tree has a part below a path of nodes, the top one first. -/
inductive HasPart : Tree → List Node → Tree → Prop
  | here {tree : Tree} : HasPart tree [] tree
  | nested {label : Node} {children : List Tree} {child part : Tree} {path : List Node}
      (hmem : child ∈ children) (h : HasPart child path part) :
      HasPart (.node label children) (label :: path) part

namespace HasPart

variable {tree part : Tree} {path : List Node}

/-- What holds of every node of a tree holds of every node of its parts. -/
theorem every {p : Node → Bool → Prop} (h : tree.HasPart path part) (htree : tree.Every p) :
    part.Every p := by
  induction h with
  | here => exact htree
  | nested hmem _ ih =>
    cases htree with
    | node hlabel hchildren => exact ih (hchildren _ hmem)

/-- A part below nodes that are not silent is reached. -/
theorem exists_reaches (h : tree.HasPart path part)
    (hshown : ∀ node ∈ path, node.markup.silent = false) :
    ∃ indices, tree.Reaches indices part := by
  induction h with
  | here => exact ⟨[], .here⟩
  | nested hmem _ ih =>
    rw [List.forall_mem_cons] at hshown
    rcases ih hshown.2 with ⟨indices, hreaches⟩
    rcases List.getElem?_of_mem hmem with ⟨index, hindex⟩
    exact ⟨index :: indices, .nested (Node.visited_of_not_silent hshown.1 true) hindex hreaches⟩

/-- What is printed of a part stands in what is printed of the tree. -/
theorem exists_split (h : tree.HasPart path part)
    (hshown : ∀ node ∈ path, node.markup.silent = false) :
    ∃ before after, tree.statements = before ++ part.statements ++ after := by
  rcases h.exists_reaches hshown with ⟨indices, hreaches⟩
  rcases hreaches.exists_split with ⟨before, after, lift, hemitted, hlift, -⟩
  have hpart : (part.emitted.map lift).map Emitted.statement = part.statements := by
    rw [List.map_map]
    exact List.map_congr_left fun emitted _ => (hlift emitted).2
  refine ⟨before.map Emitted.statement, after.map Emitted.statement, ?_⟩
  rw [statements, hemitted, List.map_append, List.map_append, hpart]

end HasPart

/-- The code of a tree without kept blanks. -/
theorem code_unpreserved {tree : Tree}
    (h : tree.Every fun node _ => node.evaluated = true ∧ node.markup.preserve = false) :
    (tree.code false).result = .ok (tree.statements.flatMap Statement.print) := by
  rw [code_result (render_unpreserved h), printFragments_statements]

/-- The code of a node that is not silent is what it prints round the code of its content. -/
theorem flatMap_print_statements {label : Node} (h : label.markup.silent = false)
    (content : List Tree) :
    (Tree.node label content).statements.flatMap Statement.print
      = label.codeBefore (!content.isEmpty)
        ++ (content.flatMap statements).flatMap Statement.print
        ++ label.codeAfter (!content.isEmpty) := by
  rw [statements_node, Node.visited_of_not_silent h, if_pos rfl, List.flatMap_append,
    List.flatMap_append]
  rfl

end Tree

/-! ## Templates -/

/-- Every node below nodes that are not silent is printed with its opener in front of its
content and its closer behind it.  An opener without a closer is printed only where nothing is
nested below it: round content it is left out. -/
theorem render_shows_openers {tree : Tree} (h : tree.Every fun node _ => node.IsStandard) :
    ∃ code, (tree.code false).result = .ok code
      ∧ ∀ path label content, tree.HasPart path (.node label content) →
        (∀ node ∈ path, node.markup.silent = false) → label.markup.silent = false →
        label.markup.opener ≠ [] →
        (∃ (before : Bytes) (inner : List Bytes) (after : Bytes),
          content.map (fun child => (child.code false).result) = inner.map .ok
            ∧ code = before ++ (label.codeBefore (!content.isEmpty) ++ inner.flatten
              ++ label.codeAfter (!content.isEmpty)) ++ after)
          ∧ (content = [] ∨ label.markup.closer ≠ [] →
            Literal.escape label.markup.opener <:+: label.codeBefore (!content.isEmpty))
          ∧ (content ≠ [] → label.markup.closer ≠ [] →
            Literal.escape label.markup.closer <:+: label.codeAfter true
              ∧ (label.directive.kind = .comment →
                ascii "<!--" <+: label.markup.opener ∧ ascii "-->" <:+ label.markup.closer))
          ∧ (content ≠ [] → label.markup.closer = [] →
            label.codeBefore true = [] ∧ label.codeAfter true = []) := by
  have hplain {tree : Tree} (h : tree.Every fun node _ => node.IsStandard) :=
    h.imp (q := fun node _ => node.evaluated = true ∧ node.markup.preserve = false)
      fun _ _ hnode => ⟨hnode.evaluated, hnode.preserve⟩
  refine ⟨_, Tree.code_unpreserved (hplain h), ?_⟩
  intro path label content hpart hshown hsilent hopener
  cases hpart.every h with
  | node hlabel hcontent =>
    refine ⟨?_, ?_, ?_, fun _ => hlabel.code_of_opener_alone hopener⟩
    · rcases hpart.exists_split hshown with ⟨before, after, hstatements⟩
      refine ⟨before.flatMap Statement.print,
        content.map fun child => child.statements.flatMap Statement.print,
        after.flatMap Statement.print, ?_, ?_⟩
      · rw [List.map_map]
        exact List.map_congr_left fun child hmem =>
          Tree.code_unpreserved (hplain (hcontent child hmem))
      · rw [hstatements, List.flatMap_append, List.flatMap_append,
          Tree.flatMap_print_statements hsilent, List.flatMap_assoc,
          ← List.flatMap_def (l := content)]
    · intro hshows
      refine hlabel.escape_opener_infix hopener fun hnested => ?_
      rcases hshows with rfl | hcloser
      · simp at hnested
      · exact hcloser
    · intro _ hcloser
      exact ⟨hlabel.escape_closer_infix hopener hcloser,
        fun hkind => hlabel.delimiters_of_comment hkind hcloser⟩

/-- The content of a conditional comment stands between its delimiters, also below host
code. -/
theorem render_shows_openers_of_conditional :
    ∃ before after : Bytes,
      ((Session.template {} [.item .script (ascii "- if x") {} [
          .item .comment (ascii "/[if IE]") ⟨1, 1⟩ [.item .text (ascii "a#") ⟨2, 1⟩ []]]]).code
        false).result = .ok (before ++ ascii "  $o.push \"  a#\"\n" ++ after)
      ∧ ascii "<!--[if IE]>" <:+: before ∧ ascii "<![endif]-->" <:+: after := by
  have hstandard : (Session.template {} [.item .script (ascii "- if x") {} [
      .item .comment (ascii "/[if IE]") ⟨1, 1⟩ [.item .text (ascii "a#") ⟨2, 1⟩ []]]]).Every
      fun node _ => node.IsStandard := by
    simp only [Session.template, Session.growAll, Session.grow]
    refine .node ⟨rfl, by rintro markup ⟨⟩, rfl⟩ ?_
    rw [List.forall_mem_singleton]
    refine .node ⟨rfl, by rintro markup ⟨⟩, rfl⟩ ?_
    rw [List.forall_mem_singleton]
    refine .node ⟨rfl, by rintro markup ⟨⟩, by decide +kernel⟩ ?_
    rw [List.forall_mem_singleton]
    exact .node ⟨rfl, by rintro markup ⟨⟩, rfl⟩ (by simp)
  rcases render_shows_openers hstandard with ⟨code, hcode, hshows⟩
  rcases hshows _ _ _ (.nested (.head _) (.nested (.head _) .here)) (by decide +kernel)
    (by decide +kernel) (by decide +kernel) with
    ⟨⟨before, inner, after, hinner, hsplit⟩, hopener, hcloser, -⟩
  have htext : (Tree.code false (Session.grow {} (.item .text (ascii "a#") ⟨2, 1⟩ []))).result
      = .ok (ascii "  $o.push \"  a#\"\n") := by
    decide +kernel
  rcases List.map_eq_singleton_iff.1 hinner.symm with ⟨text, rfl, hok⟩
  cases Except.ok.inj (hok.trans htext)
  refine ⟨_, _, hcode.trans ?_,
    (hopener (.inr (by decide +kernel))).trans (List.suffix_append before _).isInfix,
    (hcloser (by simp [Session.growAll]) (by decide +kernel)).1.trans
      (List.prefix_append _ after).isInfix⟩
  rw [hsplit, List.flatten_singleton]
  simp only [List.append_assoc]
  rfl

/-- A line break and a note are not printed where text is nested below them. -/
theorem render_omits_openers :
    ∃ labels content, labels = [Node.build (Session.directive {} .element (ascii "%br") {}),
        Node.build (Session.directive {} .comment (ascii "/ note") {})]
      ∧ content = Session.growAll {} [.item .text (ascii "x") {} []]
      ∧ ∀ label ∈ labels, ∃ tree, tree = Tree.node (Session.root {}) [.node label content]
        ∧ tree.Every (fun node _ => node.IsStandard)
        ∧ tree.HasPart [Session.root {}] (.node label content)
        ∧ (Session.root {}).markup.silent = false ∧ label.markup.silent = false
        ∧ label.markup.opener ≠ [] ∧ (tree.code false).result = .ok (ascii "$o.push \"x\"\n")
        ∧ ¬Literal.escape label.markup.opener <:+: ascii "$o.push \"x\"\n" := by
  refine ⟨_, _, rfl, rfl, fun label hlabel => ?_⟩
  have hstandard : label.IsStandard := by
    rw [List.mem_pair] at hlabel
    rcases hlabel with rfl | rfl
    · exact ⟨rfl, by rintro markup ⟨⟩, by decide +kernel⟩
    · exact ⟨rfl, by rintro markup ⟨⟩, by decide +kernel⟩
  refine ⟨_, rfl, ?_, .nested (.head _) .here, rfl, ?_⟩
  · refine .node ⟨rfl, by rintro markup ⟨⟩, rfl⟩ ?_
    rw [List.forall_mem_singleton]
    refine .node hstandard ?_
    simp only [Session.growAll, Session.grow, List.forall_mem_singleton]
    exact .node ⟨rfl, by rintro markup ⟨⟩, rfl⟩ (by simp)
  · clear hstandard
    revert label
    decide +kernel

end TemplateCompiler
