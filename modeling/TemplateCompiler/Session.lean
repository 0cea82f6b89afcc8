import TemplateCompiler.Code.Cursor
import TemplateCompiler.Template.Render

/-!
# Sessions

A session holds the options of a compiler run.  Constructs keep the options that
are current when they are made, so a later change does not reach them.  Compiling
a tree renders it and resolves its trim marks.

Main results:

- Definition {lit}`Session.configure`: a setting is changed, or refused with a warning
  and kept.
- Definition {lit}`Session.template`: a template is built with every node evaluated.
- Definition {lit}`Session.compile`: a tree is compiled to the chunks that are written
  for it.
-/

namespace TemplateCompiler

/-- A compiler run. -/
structure Session where
  options : Options := {}
  /-- Whether each compilation is reported. -/
  verbose : Bool := false
deriving DecidableEq, Repr

namespace Session

/-- A setting as it was read from its value, or the refusal of that value. -/
def readSetting {α : Type} (key value : Bytes) : Option α → Except Warning α
  | some setting => .ok setting
  | none => .error (.badValue value key)

/-- Options with a setting changed.  Lists of tags take any value. -/
def setOption (options : Options) (key value : Bytes) : Except Warning Options := do
  if key = ascii "format" then
    return { options with format := ← readSetting key value (Format.ofName? value) }
  else if key = ascii "escapeHtml" then
    return { options with escapeHtml := ← readSetting key value (switch? value) }
  else if key = ascii "escapeAttributes" then
    return { options with escapeAttributes := ← readSetting key value (switch? value) }
  else if key = ascii "uglify" then
    return { options with uglify := ← readSetting key value (switch? value) }
  else if key = ascii "selfCloseTags" then
    return { options with selfCloseTags := value }
  else if key = ascii "preserveTags" then
    return { options with preserveTags := value }
  else throw (.unknownKey key)

/-- Change a setting, or warn and keep it. -/
def configure (session : Session) (key value : Bytes) : Session × Option Warning :=
  match setOption session.options key value with
  | .ok options => ({ session with options }, none)
  | .error warning => (session, some warning)

/-! ## Making and compiling templates -/

/-- A construct with the current options. -/
def directive (session : Session) (kind : Kind) (expression : Bytes)
    (position : Position) : Directive :=
  { kind, expression, options := session.options, position }

/-- The node at the top of a template: a group without markup. -/
def root (session : Session) : Node :=
  .build (session.directive .plain [] {})

/-- A part of a template that is not built yet. -/
inductive Draft where
  | item (kind : Kind) (expression : Bytes) (position : Position) (content : List Draft)

mutual

/-- Build a part of a template, with every node evaluated. -/
def grow (session : Session) : Draft → Tree
  | .item kind expression position content =>
    .node (.build (session.directive kind expression position)) (session.growAll content)

/-- Build the parts of a template. -/
def growAll (session : Session) : List Draft → List Tree
  | [] => []
  | draft :: rest => session.grow draft :: session.growAll rest

end

/-- Build a whole template. -/
def template (session : Session) (drafts : List Draft) : Tree :=
  .node session.root (session.growAll drafts)

/-- Compile a tree to the chunks that are written for it.  The flag says whether
blanks are kept around the tree.  A verbose session reports the size of the code
before its trim marks are resolved. -/
def compile (session : Session) (above : Bool) (tree : Tree) : Logged (List Bytes) := do
  let code ← tree.code above
  if session.verbose then
    Logged.tell (.generated code.length session.options.format)
  pure (trimmedChunks code)

end Session

end TemplateCompiler
