import TemplateCompiler.Code.Cursor
import TemplateCompiler.Message

/-!
# Markup, comments and host code

What a construct of a template means for the document: the markup that opens and
closes it, which blanks round that markup go, whether its content is printed at
all, and whether its content keeps its blanks.

A comment is meant for the template only, or is printed in the document: as one
comment, as one round its content, or as a condition round its content.  A line of
host code is run for its effect or inserted for its value; its marker tells which,
and whether an inserted value is escaped.

Main results:

- Theorem {lit}`Comment.markup_silent_iff`: only a comment for the template is
  silent.
-/

namespace TemplateCompiler

/-- The markup of a construct. -/
structure Markup where
  /-- What is printed before the content; empty if there is none. -/
  opener : Bytes := []
  /-- What is printed after the content; empty if there is none. -/
  closer : Bytes := []
  /-- Remove the blanks outside the markup. -/
  around : Bool := false
  /-- Remove the blanks just inside the markup. -/
  inside : Bool := false
  /-- Print no content where there is no pair of opener and closer. -/
  silent : Bool := false
  /-- Keep the blanks of the content. -/
  preserve : Bool := false
deriving DecidableEq, Repr

namespace Markup

/-- A trim mark, where one is asked for. -/
def markIf (wanted : Bool) (mark : UInt8) : Bytes :=
  if wanted then [mark] else []

/-- The opener with its trim marks. -/
def opening (markup : Markup) : Bytes :=
  markIf markup.around leftMark ++ markup.opener ++ markIf markup.inside rightMark

/-- The closer with its trim marks: those of the opener, the other way round. -/
def closing (markup : Markup) : Bytes :=
  markIf markup.inside leftMark ++ markup.closer ++ markIf markup.around rightMark

/-- Whether the markup both opens and closes. -/
def isPair (markup : Markup) : Bool :=
  !markup.opener.isEmpty && !markup.closer.isEmpty

end Markup

/-! ## Comments -/

/-- What a comment is. -/
inductive Comment where
  /-- For the template only. -/
  | silent
  /-- A condition round the content. -/
  | conditional (condition : Bytes)
  /-- One comment with the given text. -/
  | note (text : Bytes)
  /-- A comment round the content. -/
  | enclosing
deriving DecidableEq, Repr

namespace Comment

/-- Whether a comment is marked as one for the template only. -/
def isTemplateOnly (expression : Bytes) : Bool :=
  (ascii "-#").isPrefixOf expression

/-- Whether a comment is marked as one for the document. -/
def isPrinted (expression : Bytes) : Bool :=
  expression.head? == some Byte.slash

/-- Read a comment.  What is no comment is dropped like one for the template. -/
def read (expression : Bytes) : Comment :=
  if isTemplateOnly expression || !isPrinted expression then .silent
  else
    match trim (expression.drop 1) with
    | [] => .enclosing
    | c :: rest => if c = Byte.openBracket then .conditional (c :: rest) else .note (c :: rest)

/-- The warnings about a comment. -/
def warnings (expression : Bytes) : List Warning :=
  if isTemplateOnly expression || isPrinted expression then []
  else [.notAComment expression]

/-- Whether the comment is a condition. -/
def isConditional : Comment → Bool
  | .conditional _ => true
  | _ => false

/-- The markup of a comment. -/
def markup : Comment → Markup
  | .silent => { silent := true }
  | .conditional condition =>
    { opener := ascii "<!--" ++ condition ++ ascii ">", closer := ascii "<![endif]-->" }
  | .note text => { opener := ascii "<!-- " ++ text ++ ascii " -->" }
  | .enclosing => { opener := ascii "<!--", closer := ascii "-->" }

/-- Only a comment for the template is silent. -/
theorem markup_silent_iff (comment : Comment) :
    comment.markup.silent = true ↔ comment = .silent := by
  cases comment <;> simp [markup]

end Comment

/-! ## Host code -/

/-- What is done with host code. -/
inductive ScriptMode where
  /-- It is run. -/
  | running
  /-- Its value is inserted, through the escaping helper if asked. -/
  | inserting (escaped : Bool)
deriving DecidableEq, Repr

/-- A piece of host code and what is done with it. -/
structure Script where
  mode : ScriptMode := .running
  code : Bytes := []
deriving DecidableEq, Repr

/-- The mode of a marker.  Plain insertion escapes if the options say so. -/
def ScriptMode.ofMarker? (escapeHtml : Bool) (marker : Bytes) : Option ScriptMode :=
  if marker = ascii "-" then some .running
  else if marker = ascii "=" then some (.inserting escapeHtml)
  else if marker = ascii "&=" then some (.inserting true)
  else if marker = ascii "!=" then some (.inserting false)
  else none

namespace Script

/-- The bytes that markers are made of. -/
def isMarkerByte (c : UInt8) : Bool :=
  (ascii "-=!&").contains c

/-- The marker of an expression: all marker bytes among its first two bytes. -/
def marker (expression : Bytes) : Bytes :=
  (expression.take 2).takeWhile isMarkerByte

/-- Read host code.  Without a known marker all of it is code to run. -/
def read (escapeHtml : Bool) (expression : Bytes) : Script :=
  match ScriptMode.ofMarker? escapeHtml (marker expression) with
  | some mode => ⟨mode, trim (expression.drop (marker expression).length)⟩
  | none => ⟨.running, trim expression⟩

/-- The warnings about host code. -/
def warnings (expression : Bytes) : List Warning :=
  if (ScriptMode.ofMarker? true (marker expression)).isSome then []
  else [.missingMarker expression]

/-- Whether the code ends in an arrow, so that its block is a function body. -/
def opensBlock (script : Script) : Bool :=
  (ascii "->").isSuffixOf script.code || (ascii "=>").isSuffixOf script.code

end Script

end TemplateCompiler
