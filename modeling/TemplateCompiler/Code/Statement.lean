import TemplateCompiler.Bytes

/-!
# Statements of the generated code

The generated program pushes pieces of the document on an output buffer; the
runtime joins the pieces with line feeds.  Template text is pushed as a
double-quoted literal of the host language.  Inside such a literal a backslash, a
quote and the three line and tab characters are written as escapes, and a hash
sign is escaped where it would open an interpolation.

A statement pushes text or a computed value, runs host code, or opens or closes the
call around a block.  It stands at a margin: the width of the code indentation
before it, and the width of the markup indentation that goes in front of what it
prints.

Main results:

- Theorem {lit}`Literal.escape_append_of_head`: escaping goes through an append
  wherever no hash sign meets an opening brace.
- Definition {lit}`Statement.print`: every statement is printed as its code
  indentation, its source and a line feed.
- Theorem {lit}`printFragments_append`: fragments are printed one after another.
-/

namespace TemplateCompiler

/-! ## Literals -/

namespace Literal

/-- The written form of one byte in front of {lit}`next`. -/
def escapeByte (c : UInt8) (next : Option UInt8) : Bytes :=
  if c = Byte.backslash ∨ c = Byte.quote then [Byte.backslash, c]
  else if c = Byte.lineFeed then ascii "\\n"
  else if c = Byte.carriageReturn then ascii "\\r"
  else if c = Byte.tab then ascii "\\t"
  else if c = Byte.hash ∧ next = some Byte.openBrace then [Byte.backslash, c]
  else [c]

/-- The inside of the literal that stands for a byte string. -/
def escape : Bytes → Bytes
  | [] => []
  | c :: rest => escapeByte c rest.head? ++ escape rest

@[simp] theorem escape_nil : escape [] = [] := rfl

/-- A byte is escaped knowing only the byte after it. -/
theorem escape_cons (c : UInt8) (rest : Bytes) :
    escape (c :: rest) = escapeByte c rest.head? ++ escape rest := rfl

/-- Only an opening brace is looked at in the byte that follows. -/
theorem escapeByte_congr {c : UInt8} {next next' : Option UInt8}
    (h : next = some Byte.openBrace ↔ next' = some Byte.openBrace) :
    escapeByte c next = escapeByte c next' := by
  simp [escapeByte, h]

/-- Escaping goes through an append when the second part opens with no brace. -/
theorem escape_append_of_head {s t : Bytes} (h : t.head? ≠ some Byte.openBrace) :
    escape (s ++ t) = escape s ++ escape t := by
  induction s with
  | nil => rfl
  | cons c rest ih =>
    rw [List.cons_append, escape_cons, escape_cons, ih, List.append_assoc]
    congr 1
    apply escapeByte_congr
    cases rest with
    | nil => simp [h]
    | cons d rest => simp

end Literal

/-! ## Statements -/

/-- The indentation widths of a statement. -/
structure Margin where
  /-- The spaces before the statement. -/
  code : Nat
  /-- The spaces before the printed text. -/
  markup : Nat
deriving DecidableEq, Repr

/-- What one statement of generated code does. -/
inductive Action where
  /-- Push template text. -/
  | pushText (text : Bytes)
  /-- Push the value of host code, through the escaping helper if asked. -/
  | pushValue (code : Bytes) (escaped : Bool)
  /-- Run host code. -/
  | run (code : Bytes)
  /-- Open a push whose value ends in a function body. -/
  | openCall (code : Bytes) (escaped : Bool)
  /-- Close such a push. -/
  | closeCall (escaped : Bool)
deriving DecidableEq, Repr

/-- A statement at its margin. -/
structure Statement where
  margin : Margin
  action : Action
deriving DecidableEq, Repr

/-- What stands before the inside of a pushed literal. -/
def pushOpening : Bytes := ascii "$o.push \""

/-- The source of a push of a literal with the given inside. -/
def pushLiteral (body : Bytes) : Bytes :=
  pushOpening ++ body ++ [Byte.quote]

/-- Host code as it is pushed. -/
def valueSource (code : Bytes) (escaped : Bool) : Bytes :=
  if escaped then ascii "$e(" ++ code ++ ascii ")" else code

/-- The source of an action behind the given markup indentation.  A value is
pushed inside a literal only when there is indentation to put in front of it; the
indentation stays outside the escaping helper. -/
def Action.source (indentation : Bytes) : Action → Bytes
  | .pushText text => pushLiteral (Literal.escape (indentation ++ text))
  | .pushValue code escaped =>
    if indentation.isEmpty then ascii "$o.push " ++ valueSource code escaped
    else
      pushLiteral (indentation ++ ascii "#\x7b" ++ valueSource code escaped ++ ascii "\x7d")
  | .run code => code
  | .openCall code escaped =>
    ascii "$o.push("
      ++ (if indentation.isEmpty then []
        else Byte.quote :: indentation ++ ascii "\" + ")
      ++ (if escaped then ascii "$e(" else [])
      ++ code
  | .closeCall escaped => if escaped then ascii "))" else ascii ")"

/-- The source of a statement, without its code indentation. -/
def Statement.source (statement : Statement) : Bytes :=
  statement.action.source (spaces statement.margin.markup)

/-- A statement as a line of generated code. -/
def Statement.print (statement : Statement) : Bytes :=
  spaces statement.margin.code ++ statement.source ++ [Byte.lineFeed]

/-- A part of the rendered code: a statement, or markup that is left for the
literal of an enclosing construct. -/
inductive Fragment where
  | statement (s : Statement)
  | markup (text : Bytes)
deriving DecidableEq, Repr

/-- A fragment as generated code. -/
def Fragment.print : Fragment → Bytes
  | .statement s => s.print
  | .markup text => text

/-- Fragments as generated code, in order. -/
def printFragments (fragments : List Fragment) : Bytes :=
  fragments.flatMap Fragment.print

@[simp] theorem printFragments_nil : printFragments [] = [] := rfl

@[simp] theorem printFragments_cons (fragment : Fragment) (fragments : List Fragment) :
    printFragments (fragment :: fragments) = fragment.print ++ printFragments fragments := rfl

/-- Fragments are printed one after another. -/
@[simp] theorem printFragments_append (first second : List Fragment) :
    printFragments (first ++ second) = printFragments first ++ printFragments second := by
  simp [printFragments]

end TemplateCompiler
