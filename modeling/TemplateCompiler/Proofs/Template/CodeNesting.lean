import TemplateCompiler.Proofs.Code.Reindenting
import TemplateCompiler.Proofs.Template.Statements
import Mathlib.Algebra.Group.Int.Defs

/-!
# Templates inside blocks of code

A template can be moved into blocks of host code: all its nodes are then nested deeper, in
all and in code, and their markup is not.  Its statements are the same but for the spaces
before them.  These are the same for all statements, so the trim pass joins and trims what it
did before, and each line of the program stands further in by as many spaces.

Main results:

- Theorems {lit}`Position.HasRoom.codeWidth_nested` and {lit}`Position.markupWidth_nested`:
  code stands two spaces further in for each block, and markup where it was.
- Theorem {lit}`Tree.statements_nested`: the statements differ in their spaces only.
- Theorem {lit}`compile_nested`: so do the lines of the program.
-/

namespace TemplateCompiler

namespace Position

/-- The position inside so many more blocks of code. -/
def nested (count : Nat) (position : Position) : Position where
  block := position.block + Int32.ofNat count
  code := position.code + Int32.ofNat count

/-- Whether a construct can be moved into so many more blocks of code: its width then still
is a 32-bit number. -/
structure HasRoom (position : Position) (count : Nat) : Prop where
  nonneg : 0 ≤ position.code.toInt
  bounded : position.code.toInt + count ≤ 2 ^ 29

/-- Code blocks nest no markup. -/
theorem markupWidth_nested (position : Position) (count : Nat) (uglify : Bool) :
    (position.nested count).markupWidth uglify = position.markupWidth uglify := by
  have hlevel : position.block + Int32.ofNat count - (position.code + Int32.ofNat count)
      = position.block - position.code := by
    grind
  rw [markupWidth, nested, hlevel, markupWidth]

private theorem HasRoom.toInt_code_nested {position : Position} {count : Nat}
    (h : position.HasRoom count) :
    (position.nested count).code.toInt = position.code.toInt + count := by
  have hnonneg := h.nonneg
  have hbounded := h.bounded
  have hcount : (Int32.ofNat count).toInt = count := Int32.toInt_ofNat_of_lt (by omega)
  rw [nested, Int32.toInt_add, hcount]
  exact Int.bmod_eq_of_le (by omega) (by omega)

/-- Every code block around a construct adds two spaces of code indentation. -/
theorem HasRoom.codeWidth_nested {position : Position} {count : Nat}
    (h : position.HasRoom count) :
    (position.nested count).codeWidth = position.codeWidth + 2 * count := by
  have hnonneg := h.nonneg
  rw [codeWidth, codeWidth, indentWidth, indentWidth, h.toInt_code_nested]
  omega

end Position

namespace Statement

/-- A statement that stands further in. -/
def deepen (width : Nat) (statement : Statement) : Statement :=
  { statement with margin := { statement.margin with code := statement.margin.code + width } }

private theorem text_deepen (width : Nat) (statement : Statement) :
    (statement.deepen width).text = spaces width ++ statement.text := by
  rw [text, text, ← List.append_assoc, spaces_append_spaces, Nat.add_comm width]
  rfl

private theorem lines_deepen (width : Nat) {statement : Statement}
    (h : Byte.lineFeed ∉ statement.text) :
    (statement.deepen width).lines = statement.lines.map (Line.deepen width) := by
  have hdeeper : Byte.lineFeed ∉ (statement.deepen width).text := by
    rw [text_deepen, List.mem_append, not_or]
    exact ⟨lineFeed_not_mem_spaces width, h⟩
  rw [lines_of_not_mem hdeeper, lines_of_not_mem h, text_deepen, Line.parse_spaces_append]
  rfl

end Statement

/-! ## Trees -/

namespace Node

/-- A node that is made inside so many more blocks of code. -/
def nested (count : Nat) (node : Node) : Node :=
  { node with
    directive := { node.directive with position := node.directive.position.nested count } }

/-- A node that can be moved into so many more blocks of code: it is evaluated, keeps no
blanks and has its host code on one line. -/
structure IsMovable (count : Nat) (node : Node) : Prop where
  evaluated : node.evaluated = true
  preserve : node.markup.preserve = false
  oneLine : node.HasOneLine
  room : node.directive.position.HasRoom count

variable (count : Nat) (node : Node)

/-- Nesting does not change what a node means. -/
theorem reading_nested : (node.nested count).reading = node.reading := by
  obtain ⟨⟨kind, expression, options, position⟩, evaluated⟩ := node
  cases evaluated <;> cases kind <;> rfl

/-- A node prints the same at any position. -/
theorem frame_nested (hasContent : Bool) :
    (node.nested count).frame hasContent = node.frame hasContent := by
  rw [frame, script?, markup, reading_nested, frame, script?, markup]

variable {count node}

/-- A statement of a moved node is the statement of the node, moved. -/
theorem IsMovable.statement_nested (h : node.IsMovable count) (action : Action) :
    (node.nested count).statement action = (node.statement action).deepen (2 * count) := by
  have hmarkup := node.directive.position.markupWidth_nested count node.directive.options.uglify
  have hcode := h.room.codeWidth_nested
  simp only [statement, nested, Directive.margin, Statement.deepen, hmarkup, hcode]

end Node

namespace Tree

/-- A tree that is built inside so many more blocks of code. -/
def nested (count : Nat) : Tree → Tree :=
  mapNodes (Node.nested count)

/-- The root of a template prints nothing, wherever it is. -/
theorem statements_root_nested (maker : Session) (count : Nat) (children : List Tree) :
    (Tree.node (maker.root.nested count) children).statements
      = (Tree.node maker.root children).statements := by
  rw [statements_node, statements_node, Node.frame_nested, maker.frame_root]
  rfl

variable {count : Nat} {tree : Tree}

private theorem every_nested (h : tree.Every fun node _ => node.IsMovable count) :
    (tree.nested count).Every fun node _ =>
      node.evaluated = true ∧ node.markup.preserve = false := by
  refine h.mapNodes fun node _ hnode => ⟨hnode.evaluated, ?_⟩
  rw [Node.markup, node.reading_nested]
  exact hnode.preserve

/-- The statements of a tree inside blocks of code stand further in. -/
theorem statements_nested (h : tree.Every fun node _ => node.IsMovable count) :
    (tree.nested count).statements = tree.statements.map (Statement.deepen (2 * count)) :=
  statements_mapNodes (Node.frame_nested count) (fun _ _ hnode => hnode.statement_nested) h

end Tree

/-! ## Compiling -/

/-- Statements that stand further in leave the lines that the others leave, further in. -/
theorem resolveMarks_deepen (width : Nat) {statements : List Statement}
    (h : ∀ statement ∈ statements, Byte.lineFeed ∉ statement.text) :
    resolveMarks ((statements.map (Statement.deepen width)).flatMap Statement.lines)
      = (resolveMarks (statements.flatMap Statement.lines)).map (Line.deepen width) := by
  have hlines : (statements.map (Statement.deepen width)).flatMap Statement.lines
      = (statements.flatMap Statement.lines).map (Line.deepen width) := by
    rw [List.flatMap_map, List.map_flatMap]
    exact List.flatMap_congr fun statement hmem => Statement.lines_deepen width (h statement hmem)
  rw [hlines]
  exact resolveMarks_reindent (fun _ _ heq => Nat.add_right_cancel heq) _

/-- A tree whose statements stand further in is compiled to lines that stand further in. -/
theorem compile_of_statements_deepen (session : Session) (width : Nat) {tree other : Tree}
    (hclean : ∀ statement ∈ tree.statements, Byte.lineFeed ∉ statement.text)
    (hother : other.Every fun node _ => node.evaluated = true ∧ node.markup.preserve = false)
    (hstatements : other.statements = tree.statements.map (Statement.deepen width)) :
    (session.compile false other).result
      = .ok (((resolveMarks (tree.statements.flatMap Statement.lines)).map Line.print).map
          fun line => spaces width ++ line ++ [Byte.lineFeed]) := by
  rw [compile_unpreserved session hother, hstatements, resolveMarks_deepen width hclean,
    List.map_map, List.map_map]
  refine congrArg Except.ok (List.map_congr_left fun line _ => ?_)
  rw [Function.comp_apply, Function.comp_apply, Line.print_deepen]

/-- A template that is moved into blocks of code is compiled to the same lines with two spaces
before each of them for each block, whether or not the root is moved with it. -/
theorem compile_nested (session : Session) (count : Nat) {tree : Tree}
    (h : tree.Every fun node _ => node.IsMovable count) :
    ∃ lines : List Bytes,
      (∀ line ∈ lines, Byte.lineFeed ∉ line)
        ∧ (session.compile false tree).result
          = .ok (lines.map fun line => line ++ [Byte.lineFeed])
        ∧ (session.compile false (tree.nested count)).result
          = .ok (lines.map fun line => spaces (2 * count) ++ line ++ [Byte.lineFeed])
        ∧ ∀ maker : Session, tree.label = maker.root →
          (session.compile false (.node maker.root (tree.nested count).children)).result
            = .ok (lines.map fun line => spaces (2 * count) ++ line ++ [Byte.lineFeed]) := by
  have hclean := Tree.lineFeed_not_mem_text (h.imp fun _ _ hnode => hnode.oneLine)
  have hevery := Tree.every_nested h
  have hstatements := Tree.statements_nested h
  refine ⟨(resolveMarks (tree.statements.flatMap Statement.lines)).map Line.print, ?_, ?_,
    compile_of_statements_deepen session _ hclean hevery hstatements, fun maker hroot => ?_⟩
  · intro line hmem
    rcases List.mem_map.1 hmem with ⟨line, hline, rfl⟩
    exact lineFeed_not_mem_of_mem_resolveMarks hline
  · have hloose := h.imp fun _ _ hnode => And.intro hnode.evaluated hnode.preserve
    rw [compile_unpreserved session hloose, List.map_map]
    rfl
  · -- A root that stays where it is prints nothing, like one that is moved.
    obtain ⟨label, children⟩ := tree
    obtain rfl : label = maker.root := hroot
    rw [Tree.nested, Tree.mapNodes_node] at hevery hstatements ⊢
    rw [Tree.statements_root_nested] at hstatements
    refine compile_of_statements_deepen session _ hclean ?_ hstatements
    cases hevery with
    | node hlabel hchildren =>
      exact .node ⟨maker.root_isLoose.evaluated, maker.root_isLoose.preserve⟩ hchildren

/-- A block call round an element that pulls its value in, inside two more blocks. -/
theorem compile_nested_of_block_call :
    ∃ lines : List Bytes,
      (Session.compile {} false (Session.template {} [.item .script (ascii "= f ->") {}
          [.item .element (ascii "%p<") ⟨1, 1⟩ [.item .script (ascii "= x") ⟨2, 1⟩ []]]])).result
        = .ok (lines.map fun line => line ++ [Byte.lineFeed])
      ∧ (Session.compile {} false ((Session.template {} [.item .script (ascii "= f ->") {}
          [.item .element (ascii "%p<") ⟨1, 1⟩
            [.item .script (ascii "= x") ⟨2, 1⟩ []]]]).nested 2)).result
        = .ok (lines.map fun line => spaces 4 ++ line ++ [Byte.lineFeed]) := by
  have hmovable : (Session.template {} [.item .script (ascii "= f ->") {}
      [.item .element (ascii "%p<") ⟨1, 1⟩ [.item .script (ascii "= x") ⟨2, 1⟩ []]]]).Every
        fun node _ => node.IsMovable 2 := by
    simp only [Session.template, Session.growAll, Session.grow]
    refine .node ⟨rfl, rfl, by rintro script ⟨⟩, by decide, by decide⟩ ?_
    rw [List.forall_mem_singleton]
    refine .node ⟨rfl, rfl, ?_, by decide, by decide⟩ ?_
    · rintro script ⟨rfl⟩
      decide
    rw [List.forall_mem_singleton]
    refine .node ⟨rfl, by decide +kernel, by rintro script ⟨⟩, by decide, by decide⟩ ?_
    rw [List.forall_mem_singleton]
    refine .node ⟨rfl, rfl, ?_, by decide, by decide⟩ (by simp)
    rintro script ⟨rfl⟩
    decide
  rcases compile_nested {} 2 hmovable with ⟨lines, -, hlines, hnested, -⟩
  exact ⟨lines, hlines, hnested⟩

end TemplateCompiler
