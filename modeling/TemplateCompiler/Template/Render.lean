import TemplateCompiler.Logged
import TemplateCompiler.Template.Node

/-!
# Rendering

A tree is rendered to fragments of generated code.  How a node is laid out depends
on its own reading, on whether anything is nested below it, and on whether blanks
are kept around it; the layout then says what becomes of its content.

Main results:

- Theorem {lit}`render_eq_stop`: a node that was not evaluated stops the rendering.
- Theorem {lit}`render_closed`: below a closed layout nothing is visited.
-/

namespace TemplateCompiler

/-- How a node and its content are laid out in the code. -/
inductive Layout where
  /-- The fragments of the node alone; its content is not visited. -/
  | closed (fragments : List Fragment)
  /-- Fragments before and after those of the content. -/
  | wrapped (warnings : List Warning) (before after : List Fragment)
  /-- One literal, which holds the code of the content as text. -/
  | folded (margin : Margin) (opening closing : Bytes)
deriving DecidableEq, Repr

/-- A statement as a list of fragments. -/
def Margin.emit (margin : Margin) (action : Action) : List Fragment :=
  [.statement ⟨margin, action⟩]

/-- The layout of host code.  A value whose code ends in an arrow takes its block
as the body of a function, inside the call. -/
def Script.layout (script : Script) (margin : Margin) (hasContent : Bool) : Layout :=
  match script.mode with
  | .running => .wrapped [] (margin.emit (.run script.code)) []
  | .inserting escaped =>
    if hasContent && script.opensBlock then
      .wrapped [] (margin.emit (.openCall script.code escaped))
        (margin.emit (.closeCall escaped))
    else
      .wrapped (if hasContent then [.blockWithoutArrow script.code] else [])
        (margin.emit (.pushValue script.code escaped)) []

/-- The layout of markup.  An opener without a closer has no content: alone it is
pushed, or left for the literal of an enclosing construct that keeps blanks; with
something below it, only that is printed. -/
def Markup.layout (markup : Markup) (margin : Margin) (above hasContent : Bool) : Layout :=
  if hasContent then
    if markup.isPair then
      if markup.preserve then .folded margin markup.opening markup.closing
      else
        .wrapped [] (margin.emit (.pushText markup.opening))
          (margin.emit (.pushText markup.closing))
    else if markup.silent then .closed []
    else .wrapped [] [] []
  else if markup.isPair then
    .closed (margin.emit (.pushText (markup.opening ++ markup.closing)))
  else if markup.opener.isEmpty then .closed []
  else if above && !markup.preserve then .closed [.markup markup.opening]
  else .closed (margin.emit (.pushText markup.opening))

namespace Node

/-- Whether blanks are kept in a node, by itself or by a node above it. -/
def isPreserved (node : Node) (above : Bool) : Bool :=
  above || node.markup.preserve

/-- The margin of the statements of a node. -/
def margin (node : Node) (above : Bool) : Margin :=
  node.directive.margin (node.isPreserved above)

/-- The layout of a node. -/
def layout (node : Node) (above hasContent : Bool) : Layout :=
  match node.reading.detail with
  | .script script => script.layout (node.margin above) hasContent
  | _ => node.markup.layout (node.margin above) above hasContent

end Node

/-! ## Rendering a tree -/

namespace Tree

mutual

/-- The code of a tree.  The flag says whether blanks are kept around it. -/
def render (above : Bool) : Tree → Logged (List Fragment)
  | .node label children =>
    if label.evaluated then
      match label.layout above (!children.isEmpty) with
      | .closed fragments => pure fragments
      | .wrapped warnings before after => do
        Logged.warnAll warnings
        let content ← renderAll (label.isPreserved above) children
        pure (before ++ content.flatten ++ after)
      | .folded margin opening closing => do
        let content ← renderAll (label.isPreserved above) children
        let text := [Byte.lineFeed].intercalate (content.map printFragments)
        pure (margin.emit (.pushText (opening ++ text ++ closing)))
    else Logged.stop .renderedUnevaluated

/-- The code of several trees, tree by tree. -/
def renderAll (above : Bool) : List Tree → Logged (List (List Fragment))
  | [] => pure []
  | tree :: rest => do
    let first ← tree.render above
    let others ← renderAll above rest
    pure (first :: others)

end

/-- The code of a tree as text. -/
def code (above : Bool) (tree : Tree) : Logged Bytes := do
  let fragments ← tree.render above
  pure (printFragments fragments)

/-- A node that was not evaluated stops the rendering. -/
theorem render_eq_stop {label : Node} (h : label.evaluated = false) (above : Bool)
    (children : List Tree) :
    (Tree.node label children).render above = Logged.stop .renderedUnevaluated := by
  rw [render, h]
  rfl

/-- Below a closed layout nothing is visited. -/
theorem render_closed {label : Node} {above : Bool} {children : List Tree}
    {fragments : List Fragment} (h : label.evaluated = true)
    (hlayout : label.layout above (!children.isEmpty) = .closed fragments) :
    (Tree.node label children).render above = pure fragments := by
  rw [render, h, hlayout]
  rfl

end Tree

end TemplateCompiler
