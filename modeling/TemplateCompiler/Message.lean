import TemplateCompiler.Options

/-!
# Messages

Everything that the compiler reports, as causes: warnings about a template or a
configuration, the notice of a finished compilation, and the violations of the rules
of construction that stop a run.  The wording of each is given once, here.

Main results:

- Definition {lit}`Warning.text`: the wording of every warning.
- Definition {lit}`Violation.text`: the wording of every violation.
-/

namespace TemplateCompiler

/-- A reason to go on with a doubtful template or configuration. -/
inductive Warning where
  /-- A component of a tag has a marker and no word. -/
  | emptyComponent (marker : UInt8) (tag : Bytes)
  /-- A tag has attributes between braces. -/
  | hashAttributes (tag : Bytes)
  /-- The attribute list of a tag is not closed. -/
  | unterminatedAttributes (tag : Bytes)
  /-- A tag ends in a byte that is no modifier. -/
  | unknownModifier (modifier : UInt8) (tag : Bytes)
  /-- A tag has no component at all. -/
  | namelessTag (tag : Bytes)
  /-- A piece of host code has no marker. -/
  | missingMarker (expression : Bytes)
  /-- A comment does not start as one. -/
  | notAComment (expression : Bytes)
  /-- A document type is not known in the format. -/
  | unknownDoctype (name : Bytes)
  /-- An inserted value has a block and does not end in an arrow. -/
  | blockWithoutArrow (code : Bytes)
  /-- A configuration key has a value that it does not take. -/
  | badValue (value key : Bytes)
  /-- A configuration key is not known. -/
  | unknownKey (key : Bytes)
deriving DecidableEq, Repr

/-- A line of the compiler's log. -/
inductive Message where
  | warning (cause : Warning)
  /-- A compilation produced that many bytes of code, trim marks included. -/
  | generated (size : Nat) (format : Format)
deriving DecidableEq, Repr

/-- A breach of the rules by which nodes are put together. -/
inductive Violation where
  /-- A node is evaluated again. -/
  | evaluatedTwice
  /-- A node is rendered that was not evaluated. -/
  | renderedUnevaluated
  /-- A node is attached to one that was not evaluated. -/
  | parentUnevaluated
  /-- A node is attached that is nested in another node already. -/
  | secondParent
  /-- A node is attached to the same node again. -/
  | attachedTwice
deriving DecidableEq, Repr

/-! ## Wording -/

/-- The mark of a notice. -/
def infoMark : Bytes := ascii "\x1b[32m[   INFO   ]\x1b[0m "

/-- The mark of a warning. -/
def warningMark : Bytes := ascii "\x1b[33m[  WARNING ]\x1b[0m "

/-- The mark of an error. -/
def errorMark : Bytes := ascii "\x1b[1;31m[   ERROR  ]\x1b[0m "

/-- The part of a byte string that a report shows: all before the first null
byte. -/
def shown (s : Bytes) : Bytes :=
  s.takeWhile (· != 0)

/-- The shown part of a byte string between single quotes. -/
def shownQuoted (s : Bytes) : Bytes :=
  Byte.apostrophe :: shown s ++ [Byte.apostrophe]

/-- The wording of a warning.  A single byte is shown as it is, also if it is
null. -/
def Warning.text : Warning → Bytes
  | .emptyComponent marker tag =>
    ascii "Empty '" ++ marker :: ascii "' in tag " ++ shownQuoted tag
      ++ ascii ". It will be ignored."
  | .hashAttributes tag =>
    ascii "Hash attributes are not supported in tag " ++ shownQuoted tag
      ++ ascii ". Use (name=\"value\") instead; the tag is emitted without them."
  | .unterminatedAttributes tag =>
    ascii "Unterminated attribute list in tag " ++ shownQuoted tag
      ++ ascii ". The rest of the line is used as attributes."
  | .unknownModifier modifier tag =>
    ascii "Unrecognized tag modifier " ++ modifier :: ascii " in " ++ shownQuoted tag
      ++ ascii ". Parsing will continue, but the result may be malformed."
  | .namelessTag tag =>
    ascii "Tag " ++ shownQuoted tag ++ ascii " has no name, using div."
  | .missingMarker expression =>
    ascii "Code node " ++ shownQuoted expression
      ++ ascii " has no -, =, &= or != marker. It will be run without output."
  | .notAComment expression =>
    shownQuoted expression ++ ascii " is not a comment. It will be dropped."
  | .unknownDoctype name =>
    ascii "Unknown doctype " ++ shownQuoted name ++ ascii ", using Transitional."
  | .blockWithoutArrow code =>
    ascii "Inserting code " ++ shownQuoted code
      ++ ascii " has a block but doesn't end in -> or =>."
      ++ ascii " The block is rendered after the value."
  | .badValue value key =>
    ascii "Bad value " ++ shownQuoted value ++ ascii " for " ++ shown key
      ++ ascii ". The previous setting is kept."
  | .unknownKey key =>
    ascii "Unknown configuration key " ++ shown key ++ ascii ". It will be ignored."

/-- The log line of a message. -/
def Message.line : Message → Bytes
  | .warning cause => warningMark ++ cause.text ++ [Byte.lineFeed]
  | .generated size format =>
    infoMark ++ ascii "Generated " ++ ascii size.repr ++ ascii " bytes of " ++ format.name
      ++ ascii " template code." ++ [Byte.lineFeed]

/-- The wording of a violation. -/
def Violation.text : Violation → Bytes
  | .evaluatedTwice =>
    ascii "Node evaluated twice. Opener, closer and flags may only be derived once."
  | .renderedUnevaluated => ascii "Node rendered before it was evaluated."
  | .parentUnevaluated => ascii "Child attached to a node that was never evaluated."
  | .secondParent => ascii "Child attached to a second parent."
  | .attachedTwice => ascii "Child attached twice to the same parent."

/-- The error line of a violation. -/
def Violation.line (violation : Violation) : Bytes :=
  errorMark ++ violation.text ++ [Byte.lineFeed]

end TemplateCompiler
