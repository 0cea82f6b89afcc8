import TemplateCompiler.Proofs.Code.Trimming
import TemplateCompiler.Proofs.Template.Statements

/-!
# Host code in compiled templates

Trimming is meant for template text and leaves host code alone.  Whether a line is
template text is told by the line itself: host code that opens and ends as the push of
a literal is taken for one, and is trimmed and joined like template text.

Main results:

- Theorem {lit}`resolveMarks_tightElement`: a line that reads as a literal takes in an
  element below it that asks for the blanks round it to go.
- Theorem {lit}`compile_keeps_hostLines`: every other line of host code is compiled to
  itself, and this exception cannot be dropped for any line.
-/

namespace TemplateCompiler

namespace Statement

/-- Whether a statement is host code on a line of its own: code that runs, a value that
is pushed without indentation, or the first or last line of a block. -/
def isHostLine (statement : Statement) : Bool :=
  !statement.text.contains Byte.lineFeed &&
    match statement.action with
    | .pushText _ => false
    | .pushValue _ _ => statement.margin.markup == 0
    | .run _ | .openCall _ _ | .closeCall _ => true

/-- Whether a statement reads as the push of a literal. -/
def readsAsLiteral (statement : Statement) : Bool :=
  (Line.parse statement.text).literal

/-- Whether a statement is a host line that does not read as a literal. -/
def isProtected (statement : Statement) : Bool :=
  statement.isHostLine && !statement.readsAsLiteral

private theorem lineFeed_not_mem_of_isHostLine {statement : Statement}
    (h : statement.isHostLine = true) : Byte.lineFeed ∉ statement.text := by
  simp only [isHostLine, Bool.and_eq_true, Bool.not_eq_true', List.contains_eq_mem,
    decide_eq_false_iff_not] at h
  exact h.1

private theorem not_pushText_of_isHostLine {statement : Statement} (h : statement.isHostLine = true)
    (text : Bytes) : statement.action ≠ .pushText text := by
  intro haction
  simp [isHostLine, haction] at h

end Statement

/-- Host lines that do not read as literals are kept when marks are resolved. -/
theorem map_text_sublist_resolveMarks {statements : List Statement}
    (hcode : ∀ statement ∈ statements, ∀ code ∈ statement.action.code?, Unmarked code) :
    ((statements.filter Statement.isProtected).map Statement.text).Sublist
      ((resolveMarks (statements.flatMap Statement.lines)).map Line.print) := by
  have hlines : ((statements.filter Statement.isProtected).map
      fun statement => Line.parse statement.text).Sublist
      ((statements.flatMap Statement.lines).filter Line.isUntouched) := by
    induction statements with
    | nil => simp
    | cons statement rest ih =>
      rw [List.forall_mem_cons] at hcode
      have hrest := ih hcode.2
      rw [List.flatMap_cons, List.filter_append]
      by_cases hkept : statement.isProtected = true
      · rw [List.filter_cons_of_pos hkept, List.map_cons]
        simp only [Statement.isProtected, Bool.and_eq_true, Bool.not_eq_true'] at hkept
        rcases hkept with ⟨hhost, hliteral⟩
        have hunmarked := (Statement.unmarked_text (Statement.not_pushText_of_isHostLine hhost)
          hcode.1).of_subset (Line.body_parse_subset statement.text)
        have huntouched : (Line.parse statement.text).isUntouched = true := by
          simp only [Statement.readsAsLiteral] at hliteral
          simp [Line.isUntouched, hliteral, hunmarked]
        rw [Statement.lines_of_not_mem (Statement.lineFeed_not_mem_of_isHostLine hhost),
          List.filter_cons_of_pos huntouched]
        exact hrest.cons_cons _
      · rw [List.filter_cons_of_neg hkept]
        exact hrest.trans (List.sublist_append_right _ _)
  have hkept := (hlines.trans (gathered_resolveMarks _).filter_isUntouched_sublist).map Line.print
  rw [List.map_map] at hkept
  simpa [Function.comp_def, Line.print_parse] using hkept

/-! ## Code that reads as a literal -/

/-- The text of an empty element that asks for the blanks round it to go. -/
def tightElement : Bytes :=
  leftMark :: ascii "<p></p>" ++ [rightMark]

private theorem escape_tightElement : Literal.escape tightElement = tightElement := by
  decide

/-- A literal in front of an element that asks for the blanks before it to go loses its
blanks and takes the element in. -/
theorem resolveMarks_tightElement (width : Nat) {body : Bytes} (h : Unmarked body) :
    resolveMarks [⟨width, true, body⟩, ⟨width, true, tightElement⟩]
      = [⟨width, true, (dropBlanksBefore body.reverse).reverse ++ ascii "<p></p>"⟩] := by
  let first := Cursor.enter [] ⟨width, true, body⟩ [⟨width, true, tightElement⟩]
  let second := Cursor.enter [⟨width, true, body⟩] ⟨width, true, tightElement⟩ []
  let third : Cursor :=
    ⟨[], width, true, dropBlanksBefore body.reverse, ascii "<p></p>" ++ [rightMark], []⟩
  have hfirst : first.run = second.run := by
    have hpass := @Cursor.run_of_unmarked first h
    rw [hpass, Cursor.run_of_move (.enter (by simp [first, Cursor.skip, Cursor.enter]) rfl)]
    simp [first, second, Cursor.line, Cursor.skip, Cursor.enter]
  have hsecond : second.run = third.run := by
    have hmove := @Cursor.Move.trimBefore second (ascii "<p></p>" ++ [rightMark]) rfl rfl
    rw [Cursor.run_of_move hmove]
    simp [second, third, Cursor.trimBefore, Cursor.enter, Cursor.pullBack, dropBlanksBefore]
  have hplain : ((ascii "<p></p>").all fun c => c != leftMark && c != rightMark
      && c != Byte.backslash && c != Byte.hash) = true := by
    decide
  have hthird : third.run = (third.skip (ascii "<p></p>").length).run :=
    @Cursor.run_of_plain (ascii "<p></p>") [rightMark] (by simpa [and_assoc] using hplain) third rfl
  have hmark := @Cursor.Move.trimAfter (third.skip (ascii "<p></p>").length) [] rfl rfl
  have hend : (resolveMarks [⟨width, true, body⟩, ⟨width, true, tightElement⟩])
      = ({ third.skip (ascii "<p></p>").length with after := [] }.trimAfter).run := by
    rw [← Cursor.run_of_move hmark, ← hthird, ← hsecond, ← hfirst]
    rfl
  rw [hend, Cursor.run_of_next_eq_none ((Cursor.next_eq_none_iff _).2 ⟨rfl, rfl⟩)]
  simp [third, Cursor.lines, Cursor.line, Cursor.trimAfter, Cursor.pullAhead, Cursor.skip,
    dropBlanksAfter]

/-- A host line that reads as a literal is lost beside the element. -/
theorem text_not_mem_resolveMarks {statement : Statement} (hhost : statement.isHostLine = true)
    (hcode : ∀ code ∈ statement.action.code?,
      Unmarked code ∧ ∀ c ∈ code.head?, isBlank c = false)
    (hliteral : statement.readsAsLiteral = true) :
    statement.text ∉ (resolveMarks (statement.lines
      ++ [⟨statement.margin.code, true, tightElement⟩])).map Line.print := by
  have hparse := Statement.parse_text fun code hmem => (hcode code hmem).2
  have hunmarked := (Statement.unmarked_text (Statement.not_pushText_of_isHostLine hhost)
    fun code hmem => (hcode code hmem).1).of_subset (Line.body_parse_subset statement.text)
  have hsource : Line.isLiteral statement.source = true := by
    by_contra hsource
    simp [Statement.readsAsLiteral, hparse, hsource] at hliteral
  rw [if_pos hsource] at hparse
  have hprint := Line.print_parse statement.text
  rw [hparse] at hunmarked hprint
  rw [Statement.lines_of_not_mem (Statement.lineFeed_not_mem_of_isHostLine hhost), hparse,
    List.singleton_append, resolveMarks_tightElement _ hunmarked, ← hprint, List.map_singleton,
    List.mem_singleton]
  generalize (statement.source.drop pushOpening.length).dropLast = body
  intro hsame
  simp only [Line.print, if_true, pushLiteral, List.append_cancel_left_eq,
    List.append_cancel_right_eq] at hsame
  -- A body that ends as the element does has no blanks at its end, so nothing was taken off.
  have hreverse : body.reverse = Byte.greater :: (ascii "<p></p").reverse
      ++ dropBlanksBefore body.reverse := by
    conv_lhs => rw [hsame, List.reverse_append, List.reverse_reverse]
    rfl
  have hkept : dropBlanksBefore body.reverse = body.reverse := by
    rw [hreverse]
    exact dropBlanksBefore_cons_stop (by decide) (.inl (by decide))
  rw [hkept, List.reverse_reverse] at hsame
  have hlength := congrArg List.length hsame
  rw [List.length_append] at hlength
  have hpos : 0 < (ascii "<p></p>").length := by decide
  omega

/-! ## Compiling -/

/-- A template of its own for the element, at a level of code. -/
def tightNode (level : Int32) : Node :=
  .build { kind := .element, expression := ascii "%p>", position := ⟨level, level⟩ }

private theorem tightNode_markup (level : Int32) : (tightNode level).markup
    = { opener := ascii "<p>", closer := ascii "</p>", around := true } := by
  change (TagForm.read (ascii "%p>")).markup {} = _
  decide +kernel

private theorem tightNode_isLoose (level : Int32) : (tightNode level).IsLoose where
  evaluated := rfl
  preserve := by rw [tightNode_markup]
  unmarked := by
    change Unmarked (ascii "%p>")
    decide

/-- The lines of a paragraph that takes the blanks around it away. -/
theorem lines_tightNode (level : Int32) :
    (Tree.node (tightNode level) []).statements.flatMap Statement.lines
      = [⟨indentWidth level, true, tightElement⟩] := by
  have hframe : (tightNode level).frame false = ⟨[.pushText tightElement], [], true⟩ := by
    have hscript : (tightNode level).script? = none := rfl
    rw [Node.frame, hscript]
    simp only [tightNode_markup]
    rfl
  have hmargin : (tightNode level).directive.margin false = ⟨indentWidth level, 0⟩ := by
    simp [Directive.margin, tightNode, Node.build, Position.codeWidth, Position.markupWidth,
      indentWidth]
  have htext : ((tightNode level).statement (.pushText tightElement)).text
      = spaces (indentWidth level) ++ pushLiteral tightElement := by
    rw [Node.statement, hmargin, Statement.text, Statement.source, Action.source]
    simp only [spaces, List.replicate_zero, List.nil_append, escape_tightElement]
  have hfeed : Byte.lineFeed ∉ spaces (indentWidth level) ++ pushLiteral tightElement := by
    rw [List.mem_append, not_or]
    exact ⟨lineFeed_not_mem_spaces _, lineFeed_not_mem_pushLiteral (by decide)⟩
  rw [Tree.statements_node]
  simp only [List.isEmpty_nil, Bool.not_true, hframe, List.map_cons, List.map_nil,
    List.flatMap_nil, ite_self, List.append_nil, List.flatMap_singleton]
  rw [Statement.lines_of_not_mem (by rw [htext]; exact hfeed), htext, Line.parse_push]

/-- A leaf prints at most one statement. -/
theorem Node.length_before_le_of_leaf (label : Node) :
    (label.frame false).before.length ≤ 1 ∧ (label.frame false).after = [] := by
  unfold frame
  split
  · next script _ =>
    unfold Script.frame
    cases script.mode <;> simp
  · unfold Markup.frame
    simp only [Bool.false_eq_true, if_false]
    split
    · simp
    · split <;> simp

private theorem Tree.statements_leaf {label : Node} {statement : Statement}
    (h : statement ∈ (Tree.node label []).statements) :
    (Tree.node label []).statements = [statement]
      ∧ statement.margin.code = indentWidth label.directive.position.code := by
  rcases label.length_before_le_of_leaf with ⟨hbefore, hafter⟩
  have hstatements : (Tree.node label []).statements
      = (label.frame false).before.map label.statement := by
    rw [statements_node]
    simp [hafter]
  rw [hstatements] at h ⊢
  rcases List.mem_map.1 h with ⟨action, haction, rfl⟩
  constructor
  · rcases List.length_eq_one_iff.1 (Nat.le_antisymm hbefore (List.length_pos_of_mem haction))
      with ⟨other, hother⟩
    rw [hother] at haction ⊢
    rw [List.mem_singleton.1 haction]
    rfl
  · rfl

/-- Host lines that do not read as literals are compiled to themselves, in document order. -/
theorem compile_keeps_protected (session : Session) {tree : Tree}
    (h : tree.Every fun node _ => node.IsLoose) :
    ∃ lines : List Bytes,
      (session.compile false tree).result = .ok (lines.map fun line => line ++ [Byte.lineFeed])
        ∧ (∀ line ∈ lines, Byte.lineFeed ∉ line)
        ∧ ((tree.statements.filter Statement.isProtected).map Statement.text).Sublist lines := by
  have hcode := Tree.code_of_mem_statements h
  refine ⟨(resolveMarks (tree.statements.flatMap Statement.lines)).map Line.print, ?_, ?_, ?_⟩
  · rw [compile_statements session h, List.map_map]
    rfl
  · intro text htext
    rcases List.mem_map.1 htext with ⟨line, hline, rfl⟩
    exact lineFeed_not_mem_of_mem_resolveMarks hline
  · exact map_text_sublist_resolveMarks fun statement hmem code hmem' =>
      (hcode statement hmem code hmem').1

/-- A host line that reads as a literal is lost beside some element. -/
theorem compile_loses_hostLine (session maker : Session) {label : Node} (hlabel : label.IsLoose)
    {statement : Statement} (hmem : statement ∈ (Tree.node label []).statements)
    (hhost : statement.isHostLine = true) (hliteral : statement.readsAsLiteral = true) :
    ∃ (sibling : Node) (lines : List Bytes), sibling.IsLoose
      ∧ (session.compile false (.node maker.root [.node label [], .node sibling []])).result
        = .ok (lines.map fun line => line ++ [Byte.lineFeed])
      ∧ statement.text ∉ lines := by
  have hleaf : (Tree.node label []).Every fun node _ => node.IsLoose := .node hlabel (by simp)
  have hcode := Tree.code_of_mem_statements hleaf statement hmem
  rcases Tree.statements_leaf hmem with ⟨hstatements, hmargin⟩
  let sibling := tightNode label.directive.position.code
  have hsibling : sibling.IsLoose := tightNode_isLoose _
  have htree : (Tree.node maker.root [.node label [], .node sibling []]).Every
      fun node _ => node.IsLoose := by
    refine .node maker.root_isLoose ?_
    simp only [List.forall_mem_cons]
    exact ⟨hleaf, .node hsibling (by simp), by simp⟩
  have hlines : (Tree.node maker.root [.node label [], .node sibling []]).statements.flatMap
      Statement.lines
      = statement.lines ++ [⟨statement.margin.code, true, tightElement⟩] := by
    rw [Session.statements_root, List.flatMap_cons, List.flatMap_singleton, List.flatMap_append,
      hstatements, List.flatMap_singleton, lines_tightNode, hmargin]
  refine ⟨sibling, (resolveMarks (statement.lines
    ++ [⟨statement.margin.code, true, tightElement⟩])).map Line.print, hsibling, ?_, ?_⟩
  · rw [compile_statements session htree, hlines, List.map_map]
    rfl
  · exact text_not_mem_resolveMarks hhost hcode hliteral

/-- Lines of host code are compiled to themselves, in document order, unless they read as
literals.  A line that does is lost in some template. -/
theorem compile_keeps_hostLines (session maker : Session) :
    (∀ tree : Tree, (tree.Every fun node _ => node.IsLoose) →
      ∃ lines : List Bytes,
        (session.compile false tree).result
            = .ok (lines.map fun line => line ++ [Byte.lineFeed])
          ∧ (∀ line ∈ lines, Byte.lineFeed ∉ line)
          ∧ ((tree.statements.filter Statement.isProtected).map Statement.text).Sublist lines)
    ∧ ∀ label : Node, label.IsLoose →
      ∀ statement ∈ (Tree.node label []).statements, statement.isHostLine = true →
        statement.readsAsLiteral = true →
        ∃ (sibling : Node) (lines : List Bytes), sibling.IsLoose
          ∧ (session.compile false
              (.node maker.root [.node label [], .node sibling []])).result
            = .ok (lines.map fun line => line ++ [Byte.lineFeed])
          ∧ statement.text ∉ lines :=
  ⟨fun _ h => compile_keeps_protected session h,
    fun _ hlabel _ hmem hhost hliteral =>
      compile_loses_hostLine session maker hlabel hmem hhost hliteral⟩

/-- A condition round a value and an element that pulls its neighbours in, and a value
with a condition behind it that reads as a literal. -/
theorem compile_keeps_hostLines_of_condition :
    (∃ lines : List Bytes,
      (Session.compile {} false (Session.template {} [.item .script (ascii "- if x") {}
          [.item .script (ascii "!= y") ⟨1, 1⟩ [],
            .item .element (ascii "%p><") ⟨1, 1⟩ []]])).result
        = .ok (lines.map fun line => line ++ [Byte.lineFeed])
      ∧ [ascii "if x", ascii "  $o.push y"].Sublist lines)
    ∧ ∃ (sibling : Node) (lines : List Bytes),
      (Session.compile {} false (.node (Session.root {})
          [.node (.build { kind := .script, expression := ascii "!= \"a\" if x is \"b\"" }) [],
            .node sibling []])).result
        = .ok (lines.map fun line => line ++ [Byte.lineFeed])
      ∧ ascii "$o.push \"a\" if x is \"b\"" ∉ lines := by
  constructor
  · have hloose : (Session.template {} [.item .script (ascii "- if x") {}
        [.item .script (ascii "!= y") ⟨1, 1⟩ [], .item .element (ascii "%p><") ⟨1, 1⟩ []]]).Every
          fun node _ => node.IsLoose := by
      simp only [Session.template, Session.growAll, Session.grow]
      refine .node (Session.root_isLoose _) ?_
      rw [List.forall_mem_singleton]
      refine .node ⟨rfl, rfl, by decide⟩ ?_
      simp only [List.forall_mem_cons]
      refine ⟨.node ⟨rfl, rfl, by decide⟩ (by simp), .node ⟨rfl, ?_, by decide⟩ (by simp), by simp⟩
      decide +kernel
    rcases (compile_keeps_hostLines {} {}).1 _ hloose with ⟨lines, hresult, -, hkept⟩
    refine ⟨lines, hresult, ?_⟩
    have htexts : [ascii "if x", ascii "  $o.push y"]
        = ((Session.template {} [.item .script (ascii "- if x") {}
          [.item .script (ascii "!= y") ⟨1, 1⟩ [],
            .item .element (ascii "%p><") ⟨1, 1⟩ []]]).statements.filter
              Statement.isProtected).map Statement.text := by
      decide +kernel
    rw [htexts]
    exact hkept
  · let value : Node :=
      .build { kind := .script, expression := ascii "!= \"a\" if x is \"b\"" }
    have hloose : value.IsLoose := ⟨rfl, rfl, by decide⟩
    have hmem : (⟨⟨0, 0⟩, .pushValue (ascii "\"a\" if x is \"b\"") false⟩ : Statement)
        ∈ (Tree.node value []).statements := by
      decide +kernel
    rcases (compile_keeps_hostLines {} {}).2 value hloose _ hmem (by decide) (by decide) with
      ⟨sibling, lines, -, hresult, hlost⟩
    exact ⟨sibling, lines, hresult, hlost⟩

end TemplateCompiler
