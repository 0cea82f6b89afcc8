import TemplateCompiler.Bytes

/-!
# Options and positions

A compiler run has options, and every construct of a template stands at a
position: how deep it is nested in all, and how deep in code blocks.  A construct
keeps the options and the position that it was made with.

Main results:

- Definition {lit}`Position.codeWidth`: generated code is indented by the code
  blocks around it.
- Definition {lit}`Position.markupWidth`: printed markup is indented by the
  nesting that is not code.
-/

namespace TemplateCompiler

/-- The dialect of the printed document. -/
inductive Format where
  | html5
  | xhtml
  | html4
deriving DecidableEq, Repr

/-- The name under which a format is configured and reported. -/
def Format.name : Format → Bytes
  | .html5 => ascii "html5"
  | .xhtml => ascii "xhtml"
  | .html4 => ascii "html4"

/-- The format of a name; names are exact, in case and without blanks. -/
def Format.ofName? (name : Bytes) : Option Format :=
  [Format.html5, .xhtml, .html4].find? fun format => format.name == name

/-- The switch that a word stands for: three words turn it on and three off. -/
def switch? (word : Bytes) : Option Bool :=
  if [ascii "true", ascii "on", ascii "1"].contains word then some true
  else if [ascii "false", ascii "off", ascii "0"].contains word then some false
  else none

/-- What a compiler run is configured with. -/
structure Options where
  /-- The dialect of the printed document. -/
  format : Format := .html5
  /-- Whether a plain inserted value goes through the escaping helper. -/
  escapeHtml : Bool := true
  /-- Whether quoted attribute values are escaped. -/
  escapeAttributes : Bool := true
  /-- Whether markup is printed without any indentation. -/
  uglify : Bool := false
  /-- The names of elements that never have a closing tag, between commas. -/
  selfCloseTags : Bytes := ascii "meta,img,link,br,hr,input,area,param,col,base"
  /-- The names of elements whose content keeps its blanks, between commas. -/
  preserveTags : Bytes := ascii "pre,textarea"
deriving DecidableEq, Repr

/-! ## Positions -/

/-- The nesting depth of a construct.  Depths are 32-bit words, and their
difference is taken in that arithmetic. -/
structure Position where
  /-- The nesting depth in all, code blocks included. -/
  block : Int32 := 0
  /-- The number of code blocks around the construct. -/
  code : Int32 := 0
deriving DecidableEq

/-- Two spaces for each level, and none at level zero or below. -/
def indentWidth (level : Int32) : Nat :=
  level.toInt.toNat * 2

/-- The indentation of generated code. -/
def Position.codeWidth (position : Position) : Nat :=
  indentWidth position.code

/-- The indentation of printed markup: code blocks nest no markup, and
{lit}`uglify` drops the indentation altogether. -/
def Position.markupWidth (position : Position) (uglify : Bool) : Nat :=
  if uglify then 0 else indentWidth (position.block - position.code)

end TemplateCompiler
