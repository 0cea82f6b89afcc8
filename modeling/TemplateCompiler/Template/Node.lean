import TemplateCompiler.Code.Statement
import TemplateCompiler.Template.Doctype
import TemplateCompiler.Template.Element
import TemplateCompiler.Template.Markup

/-!
# Nodes and trees

A directive is one construct of a template as it is written: its kind, its
expression, and the options and the position it is made with.  A node is a
directive that is evaluated or not yet; evaluation reads the expression once, and
before it the node has no markup.  A template is a tree of nodes; what is nested
below a construct is its content.

A diagram shows a tree line by line: each node with what was read of it, indented
by one tabulator for each level below the first.

Main results:

- Definition {lit}`Directive.reading`: what a directive of each kind means.
- Definition {lit}`Tree.diagram`: the lines of a tree in document order; what is
  below a text is not shown.
-/

namespace TemplateCompiler

/-- The kinds of constructs. -/
inductive Kind where
  /-- A group without markup. -/
  | plain
  /-- Text that is printed as it is written. -/
  | text
  /-- A tag. -/
  | element
  /-- Host code. -/
  | script
  /-- A comment. -/
  | comment
  /-- A document type. -/
  | doctype
  /-- A construct whose markup is given. -/
  | custom (markup : Markup)
deriving DecidableEq, Repr

/-- One construct of a template as it is written. -/
structure Directive where
  kind : Kind
  expression : Bytes := []
  options : Options := {}
  position : Position := {}
deriving DecidableEq

/-- What a construct is besides its markup. -/
inductive Detail where
  | none
  | element (element : Element)
  | script (script : Script)
  | comment (conditional : Bool)
deriving DecidableEq, Repr

/-- What a directive means. -/
structure Reading where
  markup : Markup := {}
  detail : Detail := .none
deriving DecidableEq, Repr

/-- What is known of a construct before its expression is read. -/
def Kind.unread : Kind → Reading
  | .element => { detail := .element {} }
  | .script => { detail := .script {} }
  | .comment => { detail := .comment false }
  | _ => {}

namespace Directive

/-- The meaning of a directive. -/
def reading (directive : Directive) : Reading :=
  match directive.kind with
  | .plain => {}
  | .text => { markup := { opener := directive.expression } }
  | .element =>
    let form := TagForm.read directive.expression
    { markup := form.markup directive.options
      detail := .element (form.element directive.options) }
  | .script =>
    { detail := .script (Script.read directive.options.escapeHtml directive.expression) }
  | .comment =>
    let comment := Comment.read directive.expression
    { markup := comment.markup, detail := .comment comment.isConditional }
  | .doctype =>
    { markup := { opener := Doctype.opener directive.options.format directive.expression } }
  | .custom markup => { markup }

/-- The warnings that reading a directive gives. -/
def warnings (directive : Directive) : List Warning :=
  match directive.kind with
  | .element => (TagForm.read directive.expression).warnings directive.expression
  | .script => Script.warnings directive.expression
  | .comment => Comment.warnings directive.expression
  | .doctype => Doctype.warnings directive.options.format directive.expression
  | _ => []

/-- The margin of the statements of a construct.  Where blanks are kept nothing is
printed in front of the text. -/
def margin (directive : Directive) (preserved : Bool) : Margin where
  code := directive.position.codeWidth
  markup :=
    if preserved then 0 else directive.position.markupWidth directive.options.uglify

end Directive

/-! ## Nodes -/

/-- A directive, and whether it was evaluated. -/
structure Node where
  directive : Directive
  evaluated : Bool := false
deriving DecidableEq

namespace Node

/-- A node whose directive is evaluated at once. -/
def build (directive : Directive) : Node :=
  ⟨directive, true⟩

/-- What is known of the construct so far. -/
def reading (node : Node) : Reading :=
  if node.evaluated then node.directive.reading else node.directive.kind.unread

/-- The markup known so far. -/
def markup (node : Node) : Markup :=
  node.reading.markup

/-- Evaluate a node, which is done only once. -/
def evaluate (node : Node) : Except Violation Node :=
  if node.evaluated then .error .evaluatedTwice else .ok { node with evaluated := true }

end Node

/-! ## Trees -/

/-- A node and the trees below it, in document order. -/
inductive Tree where
  | node (label : Node) (children : List Tree)

namespace Tree

/-- The node at the top of a tree. -/
def label : Tree → Node
  | .node label _ => label

/-- The trees directly below the top. -/
def children : Tree → List Tree
  | .node _ children => children

mutual

/-- The warnings that reading all directives of a tree gives, in document order. -/
def warnings : Tree → List Warning
  | .node label children => label.directive.warnings ++ warningsOfAll children

/-- The warnings that reading the directives of several trees gives. -/
def warningsOfAll : List Tree → List Warning
  | [] => []
  | tree :: rest => tree.warnings ++ warningsOfAll rest

end

end Tree

/-- A note that is shown if it applies. -/
def noteIf (applies : Bool) (note : String) : Bytes :=
  if applies then ascii note else []

/-- The line of a node, without its indentation. -/
def Node.caption (node : Node) (isRoot : Bool) : Bytes :=
  match node.directive.kind, node.reading.detail with
  | .text, _ => ascii "Text content " ++ shownQuoted node.directive.expression
  | _, .element element =>
    ascii "Tag " ++ shown element.name ++ noteIf element.selfClosing " (self-closing)"
      ++ noteIf node.markup.preserve " (preserve)"
  | _, .script ⟨.running, code⟩ => ascii "Running code " ++ shownQuoted code
  | _, .script ⟨.inserting escaped, code⟩ =>
    ascii "Inserting code " ++ shownQuoted code ++ noteIf escaped " (escaped)"
  | _, .comment conditional =>
    if node.markup.silent then ascii "Silent comment"
    else ascii "HTML comment" ++ noteIf conditional " (conditional)"
  | _, .none =>
    ascii "Node"
      ++ (if node.directive.expression.isEmpty then []
        else Byte.space :: shownQuoted node.directive.expression)
      ++ noteIf isRoot " (root)" ++ noteIf node.markup.silent " silent"
      ++ noteIf node.markup.preserve " preserve"

namespace Tree

mutual

/-- The lines of a tree.  There is no indentation below level zero. -/
def diagram (isRoot : Bool) (level : Int) : Tree → Bytes
  | .node label children =>
    List.replicate level.toNat Byte.tab ++ label.caption isRoot ++ [Byte.lineFeed]
      ++ if label.directive.kind = .text then [] else diagramAll (level + 1) children

/-- The lines of several trees below a node. -/
def diagramAll (level : Int) : List Tree → Bytes
  | [] => []
  | tree :: rest => tree.diagram false level ++ diagramAll level rest

end

end Tree

end TemplateCompiler
