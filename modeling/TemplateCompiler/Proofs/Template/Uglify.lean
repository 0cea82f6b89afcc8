import TemplateCompiler.Proofs.Code.Regrouping
import TemplateCompiler.Proofs.Template.Statements

/-!
# Templates without indentation

A template can be compiled without the indentation of its markup.  Then its statements are
the same but for that indentation, and its lines are those of the indented program without
it, unless marks join a value to its neighbours: a value behind indentation is pushed inside
a literal and can be joined, and one without indentation stays apart.

Main results:

- Theorem {lit}`Session.template_withUglify`: both builds of a template come from sessions
  that differ in one option.
- Theorem {lit}`Tree.statements_withUglify`: the statements differ in their indentation
  only.
- Theorem {lit}`compile_withUglify`: the lines of the program without indentation are the
  pieces of the lines of the indented program.
-/

namespace TemplateCompiler

/-! ## Both builds of a template -/

/-- A node that is made with or without the indentation of markup. -/
def Node.withUglify (uglify : Bool) (node : Node) : Node :=
  { node with
    directive := { node.directive with options := { node.directive.options with uglify } } }

namespace Tree

mutual

/-- A tree that is built with or without the indentation of markup. -/
def withUglify (uglify : Bool) : Tree → Tree
  | .node label children => .node (label.withUglify uglify) (withUglifyAll uglify children)

/-- Trees that are built with or without the indentation of markup. -/
def withUglifyAll (uglify : Bool) : List Tree → List Tree
  | [] => []
  | tree :: rest => tree.withUglify uglify :: withUglifyAll uglify rest

end

mutual

private theorem withUglify_eq_mapNodes (uglify : Bool) : ∀ tree : Tree,
    tree.withUglify uglify = tree.mapNodes (Node.withUglify uglify)
  | .node label children => by
    rw [withUglify, mapNodes, withUglifyAll_eq_mapNodesAll uglify children]

private theorem withUglifyAll_eq_mapNodesAll (uglify : Bool) : ∀ trees : List Tree,
    withUglifyAll uglify trees = mapNodesAll (Node.withUglify uglify) trees
  | [] => rfl
  | tree :: rest => by
    rw [withUglifyAll, mapNodesAll, withUglify_eq_mapNodes uglify tree,
      withUglifyAll_eq_mapNodesAll uglify rest]

end

end Tree

namespace Session

/-- The session with the switch for indentation set. -/
def withUglify (uglify : Bool) (session : Session) : Session :=
  { session with options := { session.options with uglify } }

mutual

private theorem grow_withUglify (session : Session) (uglify : Bool) : ∀ draft : Draft,
    (session.withUglify uglify).grow draft = (session.grow draft).withUglify uglify
  | .item kind expression position content => by
    rw [grow, grow, Tree.withUglify, growAll_withUglify session uglify content]
    rfl

private theorem growAll_withUglify (session : Session) (uglify : Bool) : ∀ drafts : List Draft,
    (session.withUglify uglify).growAll drafts
      = Tree.withUglifyAll uglify (session.growAll drafts)
  | [] => rfl
  | draft :: rest => by
    rw [growAll, growAll, Tree.withUglifyAll, grow_withUglify session uglify draft,
      growAll_withUglify session uglify rest]

end

/-- A template that is built in such a session is the template, built that way. -/
theorem template_withUglify (session : Session) (uglify : Bool) (drafts : List Draft) :
    (session.withUglify uglify).template drafts = (session.template drafts).withUglify uglify := by
  rw [template, template, Tree.withUglify, growAll_withUglify]
  rfl

end Session

namespace Node

variable (uglify : Bool) (node : Node)

/-- Indentation does not change what a node means. -/
theorem reading_withUglify : (node.withUglify uglify).reading = node.reading := by
  obtain ⟨⟨kind, expression, options, position⟩, evaluated⟩ := node
  cases evaluated <;> cases kind <;> rfl

private theorem script?_withUglify : (node.withUglify uglify).script? = node.script? := by
  rw [script?, reading_withUglify, script?]

/-- A node prints the same in both builds. -/
theorem frame_withUglify (hasContent : Bool) :
    (node.withUglify uglify).frame hasContent = node.frame hasContent := by
  rw [frame, script?_withUglify, markup, reading_withUglify, frame, markup]

private theorem IsLoose.withUglify {node : Node} (h : node.IsLoose) (uglify : Bool) :
    (node.withUglify uglify).IsLoose where
  evaluated := h.evaluated
  preserve := by
    rw [markup, reading_withUglify]
    exact h.preserve
  unmarked := h.unmarked

private theorem HasOneLine.withUglify {node : Node} (h : node.HasOneLine) (uglify : Bool) :
    (node.withUglify uglify).HasOneLine := by
  rw [HasOneLine, script?_withUglify]
  exact h

end Node

namespace Tree

private theorem every_withUglify {tree : Tree}
    (h : tree.Every fun node _ => node.IsLoose ∧ node.HasOneLine)
    (uglify : Bool) :
    (tree.withUglify uglify).Every fun node _ => node.IsLoose ∧ node.HasOneLine := by
  rw [withUglify_eq_mapNodes]
  exact h.mapNodes fun _ _ hnode => ⟨hnode.1.withUglify uglify, hnode.2.withUglify uglify⟩

/-- The statements of both builds differ in their indentation only. -/
theorem statements_withUglify {tree : Tree} {p : Node → Bool → Prop} (h : tree.Every p) :
    (tree.withUglify true).statements
      = (tree.withUglify false).statements.map Statement.flush := by
  -- The build without indentation is the other one, with the switch set in each node.
  have hboth : tree.withUglify true
      = (tree.mapNodes (Node.withUglify false)).mapNodes (Node.withUglify true) := by
    rw [mapNodes_mapNodes, withUglify_eq_mapNodes]
    rfl
  have hevery : (tree.mapNodes (Node.withUglify false)).Every fun _ _ => True :=
    h.mapNodes fun _ _ _ => trivial
  rw [hboth, withUglify_eq_mapNodes]
  exact statements_mapNodes (Node.frame_withUglify true) (fun _ _ _ _ => rfl) hevery

end Tree

/-! ## Both lines of a statement -/

namespace Statement

variable {statement : Statement}

private theorem unmarked_source (h : ∀ text, statement.action ≠ .pushText text)
    (hcode : ∀ code ∈ statement.action.code?, Unmarked code) : Unmarked statement.source :=
  (unmarked_append_iff.1 (unmarked_text h hcode)).2

/-- A statement whose source is the same without indentation. -/
theorem splits_of_source_eq (h : ∀ text, statement.action ≠ .pushText text)
    (hcode : ∀ code ∈ statement.action.code?, Unmarked code ∧ ∀ c ∈ code.head?, isBlank c = false)
    (hsource : statement.flush.source = statement.source) : statement.Splits := by
  have hunmarked := unmarked_source h fun code hmem => (hcode code hmem).1
  have hindented := parse_text fun code hmem => (hcode code hmem).2
  have hflush : statement.flushLine = statement.indentedLine := by
    rw [flushLine, text, hsource]
    rfl
  by_cases hliteral : Line.isLiteral statement.source = true
  · rw [if_pos hliteral] at hindented
    exact .text (.inl rfl) hindented (hflush.trans hindented)
  · rw [if_neg hliteral] at hindented
    exact .code hunmarked (hsource ▸ hunmarked) hindented
      (hflush.trans (hsource.symm ▸ hindented))

private theorem indentedLine_pushText (width markup : Nat) (text : Bytes) :
    indentedLine ⟨⟨width, markup⟩, .pushText text⟩
      = ⟨width, true, spaces markup ++ Literal.escape text⟩ := by
  rw [indentedLine, Statement.text, source, Action.source, Literal.escape_spaces_append,
    Line.parse_push]

private theorem indentedLine_pushValue (width : Nat) {markup : Nat} (h : markup ≠ 0)
    (code : Bytes) (escaped : Bool) :
    indentedLine ⟨⟨width, markup⟩, .pushValue code escaped⟩
      = ⟨width, true, spaces markup ++ Push.inside (.value (valueSource code escaped))⟩ := by
  have hempty := isEmpty_spaces_of_pos (Nat.pos_of_ne_zero h)
  rw [indentedLine, Statement.text, source, Action.source]
  simp only [hempty, Bool.false_eq_true, if_false]
  rw [Line.parse_push, Push.inside, List.append_assoc, List.append_assoc, List.append_assoc]

private theorem isLiteral_openCall (code : Bytes) (escaped : Bool) (indentation : Bytes) :
    Line.isLiteral ((Action.openCall code escaped).source indentation) = false := by
  have hstart : pushOpening.isPrefixOf ((Action.openCall code escaped).source indentation)
      = false := rfl
  simp [Line.isLiteral, hstart]

/-- What the lines of a statement are with its indentation and without it, unless a value
reads as a literal then. -/
theorem splits
    (hcode : ∀ code ∈ statement.action.code?, Unmarked code ∧ ∀ c ∈ code.head?, isBlank c = false)
    (hplain : ∀ source, statement.Inserts source → Line.isLiteral statement.flush.source = false) :
    statement.Splits := by
  have hhead : ∀ code ∈ statement.action.code?, ∀ c ∈ code.head?, isBlank c = false :=
    fun code hmem => (hcode code hmem).2
  have hindented := parse_text hhead
  have hflush : Line.parse statement.flush.text = _ := parse_text hhead
  obtain ⟨⟨width, markup⟩, action⟩ := statement
  cases action with
  | pushText text =>
    exact .text (.inr rfl) (indentedLine_pushText width markup text)
      (Line.parse_push width (Literal.escape text))
  | run code => exact splits_of_source_eq (by simp) hcode rfl
  | closeCall escaped => exact splits_of_source_eq (by simp) hcode rfl
  | openCall code escaped =>
    have hunmarked (markup : Nat) :
        Unmarked (source ⟨⟨width, markup⟩, .openCall code escaped⟩) :=
      unmarked_source (by simp) fun code hmem => (hcode code hmem).1
    have hcall (indentation : Bytes) :=
      Bool.eq_false_iff.1 (isLiteral_openCall code escaped indentation)
    exact .code (hunmarked markup) (hunmarked 0) (hindented.trans (if_neg (hcall _)))
      (hflush.trans (if_neg (hcall _)))
  | pushValue code escaped =>
    by_cases hmarkup : markup = 0
    · subst hmarkup
      exact splits_of_source_eq (by simp) hcode rfl
    · have hinserts : Inserts ⟨⟨width, markup⟩, .pushValue code escaped⟩
          (valueSource code escaped) :=
        ⟨hmarkup, code, escaped, rfl, rfl⟩
      have hvalue := unmarked_valueSource (hcode code rfl).1 escaped
      rw [if_neg (Bool.eq_false_iff.1 (hplain _ hinserts))] at hflush
      exact .value hinserts hvalue (indentedLine_pushValue width hmarkup code escaped) hflush

end Statement

/-! ## Compiling -/

/-- A template without indentation is compiled to the lines of the indented template without
their indentation, but for lines into which a value behind indentation was joined; these
are cut into their pieces.  No value may read as a literal when its indentation goes.  Both
builds of a template are what a session makes of the same parts with the switch for
indentation off and on. -/
theorem compile_withUglify (session : Session) {tree : Tree}
    (h : tree.Every fun node _ => node.IsLoose ∧ node.HasOneLine)
    (hplain : ∀ statement ∈ (tree.withUglify false).statements, ∀ source,
      statement.Inserts source → Line.isLiteral statement.flush.source = false) :
    ∃ results : List Counterparts,
      (session.compile false (tree.withUglify false)).result
          = .ok (results.map fun result => result.indented.print ++ [Byte.lineFeed])
        ∧ (session.compile false (tree.withUglify true)).result
          = .ok ((results.flatMap Counterparts.flush).map fun line =>
              line.print ++ [Byte.lineFeed])
        ∧ Grouped Statement.Regroups (tree.withUglify false).statements results
        ∧ ((results.flatMap Counterparts.flush).length = results.length ↔
          List.Forall₂ Line.Unindents (results.map Counterparts.indented)
            (results.flatMap Counterparts.flush))
        ∧ ((∀ statement ∈ (tree.withUglify false).statements, ∀ source,
            ¬statement.Inserts source) →
          List.Forall₂ Line.Unindents (results.map Counterparts.indented)
            (results.flatMap Counterparts.flush))
        ∧ ∀ (building : Session) (drafts : List Session.Draft), tree = building.template drafts →
          ∀ uglify, (building.withUglify uglify).template drafts = tree.withUglify uglify := by
  have hboth (uglify : Bool) : (tree.withUglify uglify).Every fun node _ => node.IsLoose :=
    (Tree.every_withUglify h uglify).imp fun _ _ hnode => hnode.1
  have hlines (uglify : Bool) : (tree.withUglify uglify).statements.flatMap Statement.lines
      = (tree.withUglify uglify).statements.map fun statement => Line.parse statement.text :=
    flatMap_lines (Tree.lineFeed_not_mem_text
      ((Tree.every_withUglify h uglify).imp fun _ _ hnode => hnode.2))
  have hsplits : ∀ statement ∈ (tree.withUglify false).statements, statement.Splits :=
    fun statement hmem => Statement.splits
      (Tree.code_of_mem_statements (hboth false) statement hmem) (hplain statement hmem)
  rcases exists_counterparts hsplits with ⟨results, hresults, hindented, hflush⟩
  refine ⟨results, ?_, ?_, hresults, length_flush_eq_iff hresults, forall₂_unindents hresults, ?_⟩
  · have hresolved : resolveMarks ((tree.withUglify false).statements.flatMap Statement.lines)
        = results.map Counterparts.indented :=
      (congrArg resolveMarks (hlines false)).trans hindented
    rw [compile_statements session (hboth false), hresolved, List.map_map]
    rfl
  · have hresolved : resolveMarks ((tree.withUglify true).statements.flatMap Statement.lines)
        = results.flatMap Counterparts.flush := by
      rw [hlines true, Tree.statements_withUglify h, List.map_map]
      exact hflush
    rw [compile_statements session (hboth true), hresolved]
  · rintro building drafts rfl uglify
    exact building.template_withUglify uglify drafts

/-- A value inside an element that pulls its content in. -/
theorem compile_withUglify_of_tight_value :
    ∃ results : List Counterparts,
      (Session.compile {} false (Session.template {} [.item .element (ascii "%p<") {}
          [.item .script (ascii "= x") ⟨1, 0⟩ []]])).result
        = .ok (results.map fun result => result.indented.print ++ [Byte.lineFeed])
      ∧ (Session.compile {} false (Session.template { options := { uglify := true } }
          [.item .element (ascii "%p<") {} [.item .script (ascii "= x") ⟨1, 0⟩ []]])).result
        = .ok ((results.flatMap Counterparts.flush).map fun line =>
            line.print ++ [Byte.lineFeed])
      ∧ Grouped Statement.Regroups (Session.template {} [.item .element (ascii "%p<") {}
          [.item .script (ascii "= x") ⟨1, 0⟩ []]]).statements results := by
  have hloose : (Session.template {} [.item .element (ascii "%p<") {}
      [.item .script (ascii "= x") ⟨1, 0⟩ []]]).Every
        fun node _ => node.IsLoose ∧ node.HasOneLine := by
    simp only [Session.template, Session.growAll, Session.grow]
    refine .node ⟨Session.root_isLoose _, by rintro script ⟨⟩⟩ ?_
    rw [List.forall_mem_singleton]
    refine .node ⟨⟨rfl, by decide +kernel, by decide⟩, by rintro script ⟨⟩⟩ ?_
    rw [List.forall_mem_singleton]
    refine .node ⟨⟨rfl, rfl, by decide⟩, ?_⟩ (by simp)
    rintro script ⟨rfl⟩
    decide
  have hplain : ∀ statement ∈ ((Session.template {} [.item .element (ascii "%p<") {}
      [.item .script (ascii "= x") ⟨1, 0⟩ []]]).withUglify false).statements, ∀ source,
        statement.Inserts source → Line.isLiteral statement.flush.source = false := by
    have hvalues : ∀ statement ∈ ((Session.template {} [.item .element (ascii "%p<") {}
        [.item .script (ascii "= x") ⟨1, 0⟩ []]]).withUglify false).statements,
          statement.action ∈ [.pushText (ascii "<p>\x12"), .pushText (ascii "\x11</p>"),
            .pushValue (ascii "x") true] := by
      decide +kernel
    rintro ⟨margin, action⟩ hmem source ⟨-, code, escaped, haction, -⟩
    have hvalue := hvalues _ hmem
    simp only [List.mem_cons, List.not_mem_nil, or_false] at hvalue haction
    subst haction
    simp only [reduceCtorEq, Action.pushValue.injEq, false_or] at hvalue
    obtain ⟨rfl, rfl⟩ := hvalue
    change Line.isLiteral (Action.source [] (.pushValue (ascii "x") true)) = false
    decide
  rcases compile_withUglify {} hloose hplain with
    ⟨results, hindented, hflush, hresults, -, -, hbuilds⟩
  rw [← hbuilds {} _ rfl] at hindented hflush hresults
  exact ⟨results, hindented, hflush, hresults⟩

end TemplateCompiler
