import TemplateCompiler.Proofs.Code.StatementLines
import TemplateCompiler.Proofs.Template.Delimited

/-!
# The statements of a template

Where no blanks are kept, every node prints some actions before its content and some
after it, each as a statement of its own.  So a tree is a list of statements, each of
which belongs to a node, and the lines that are trimmed are the lines of these
statements.

Main results:

- Definition {lit}`Tree.emitted`: the statements of a tree, each with the node that it
  belongs to and the host code that it is nested in.
- Theorem {lit}`Tree.statements_mapNodes`: what a change of all nodes does to the statements.
- Theorem {lit}`Tree.fragments_node`: a node that neither folds its content nor is left
  for a literal is rendered to its frame round its content.
- Theorem {lit}`Tree.render_unpreserved`: a tree without kept blanks is rendered to its
  statements.
- Theorem {lit}`compile_unpreserved`: what is compiled are the lines of the statements
  with their marks resolved.
-/

namespace TemplateCompiler

/-! ## Frames -/

/-- What a node prints round its content. -/
structure Frame where
  before : List Action
  after : List Action
  /-- Whether the content is printed. -/
  visited : Bool

/-- What host code prints round its content. -/
def Script.frame (script : Script) (hasContent : Bool) : Frame :=
  match script.mode with
  | .running => ⟨[.run script.code], [], true⟩
  | .inserting escaped =>
    if hasContent && script.opensBlock then
      ⟨[.openCall script.code escaped], [.closeCall escaped], true⟩
    else ⟨[.pushValue script.code escaped], [], true⟩

/-- What markup prints round its content. -/
def Markup.frame (markup : Markup) (hasContent : Bool) : Frame :=
  if hasContent then
    if markup.isPair then ⟨[.pushText markup.opening], [.pushText markup.closing], true⟩
    else ⟨[], [], !markup.silent⟩
  else if markup.isPair then ⟨[.pushText (markup.opening ++ markup.closing)], [], true⟩
  else if markup.opener.isEmpty then ⟨[], [], true⟩
  else ⟨[.pushText markup.opening], [], true⟩

namespace Node

/-- The host code of a node. -/
def script? (node : Node) : Option Script :=
  match node.reading.detail with
  | .script script => some script
  | _ => none

/-- What a node prints round its content. -/
def frame (node : Node) (hasContent : Bool) : Frame :=
  match node.script? with
  | some script => script.frame hasContent
  | none => node.markup.frame hasContent

/-- An action of a node as a statement, where no blanks are kept. -/
def statement (node : Node) (action : Action) : Statement :=
  ⟨node.directive.margin false, action⟩

/-- An evaluated node that keeps no blanks and has an expression without marks. -/
structure IsLoose (node : Node) : Prop where
  evaluated : node.evaluated = true
  preserve : node.markup.preserve = false
  unmarked : Unmarked node.directive.expression

/-- Whether the host code of a node stands on one line. -/
def HasOneLine (node : Node) : Prop :=
  ∀ script ∈ node.script?, Byte.lineFeed ∉ script.code

end Node

/-- The node at the top of a template asks for nothing. -/
theorem Session.root_isLoose (session : Session) : session.root.IsLoose where
  evaluated := rfl
  preserve := rfl
  unmarked := by
    change Unmarked []
    decide

/-- A path leads to a part of a tree, by nodes that print their content. -/
inductive Tree.Reaches : Tree → List Nat → Tree → Prop
  | here {tree : Tree} : Reaches tree [] tree
  | nested {label : Node} {children : List Tree} {child target : Tree} {index : Nat}
      {path : List Nat} (hvisited : (label.frame true).visited = true)
      (hchild : children[index]? = some child) (h : Reaches child path target) :
      Reaches (.node label children) (index :: path) target

/-! ## Statements of a tree -/

/-- A statement of a tree. -/
structure Emitted where
  /-- The path to the node that the statement belongs to. -/
  origin : List Nat
  /-- The path to the nearest host code above that node. -/
  block : Option (List Nat)
  statement : Statement

/-- A statement of the node at the top of a tree. -/
def Emitted.own (label : Node) (action : Action) : Emitted :=
  ⟨[], none, label.statement action⟩

/-- The nearest host code above a node, seen from one node further up. -/
def Emitted.blockBelow (label : Node) (index : Nat) : Option (List Nat) → Option (List Nat)
  | some path => some (index :: path)
  | none => if label.script?.isSome then some [] else none

/-- A statement of a child, seen from the node above it. -/
def Emitted.below (label : Node) (index : Nat) (emitted : Emitted) : Emitted where
  origin := index :: emitted.origin
  block := Emitted.blockBelow label index emitted.block
  statement := emitted.statement

namespace Tree

mutual

/-- The statements of a tree, in document order. -/
def emitted : Tree → List Emitted
  | .node label children =>
    let frame := label.frame (!children.isEmpty)
    frame.before.map (Emitted.own label)
      ++ (if frame.visited then emittedAll label 0 children else [])
      ++ frame.after.map (Emitted.own label)

/-- The statements of the children of a node, of which the first one has the given
index. -/
def emittedAll (label : Node) (index : Nat) : List Tree → List Emitted
  | [] => []
  | tree :: rest =>
    tree.emitted.map (Emitted.below label index) ++ emittedAll label (index + 1) rest

end

/-- The statements of a tree without the nodes that they belong to. -/
def statements (tree : Tree) : List Statement :=
  tree.emitted.map Emitted.statement

private theorem map_statement_emittedAll (label : Node) (index : Nat) (children : List Tree) :
    (emittedAll label index children).map Emitted.statement = children.flatMap statements := by
  induction children generalizing index with
  | nil => rfl
  | cons tree rest ih =>
    rw [emittedAll, List.map_append, ih, List.map_map, List.flatMap_cons]
    rfl

/-- The statements of a node are its own round those of its children. -/
theorem statements_node (label : Node) (children : List Tree) :
    (Tree.node label children).statements
      = (label.frame (!children.isEmpty)).before.map label.statement
        ++ (if (label.frame (!children.isEmpty)).visited then children.flatMap statements else [])
        ++ (label.frame (!children.isEmpty)).after.map label.statement := by
  simp only [statements, emitted, List.map_append, List.map_map, apply_ite (List.map _),
    map_statement_emittedAll, List.map_nil]
  rfl

/-- Where a change of nodes keeps their frames, it changes the statements of a tree only as it
changes those of each node. -/
theorem statements_mapNodes {p : Node → Bool → Prop} {change : Node → Node}
    {effect : Statement → Statement}
    (hframe : ∀ node hasContent, (change node).frame hasContent = node.frame hasContent)
    (heffect : ∀ node hasContent, p node hasContent →
      ∀ action, (change node).statement action = effect (node.statement action))
    {tree : Tree} (h : tree.Every p) :
    (tree.mapNodes change).statements = tree.statements.map effect := by
  induction h with
  | @node label children hlabel hchildren ih =>
    have hcontent : (children.map (mapNodes change)).flatMap statements
        = (children.flatMap statements).map effect := by
      rw [List.flatMap_map, List.map_flatMap]
      exact List.flatMap_congr ih
    have hown (actions : List Action) : actions.map (change label).statement
        = (actions.map label.statement).map effect := by
      rw [List.map_map]
      exact List.map_congr_left fun action _ => heffect label _ hlabel action
    rw [mapNodes_node, statements_node, statements_node, List.isEmpty_map, hframe, hcontent, hown,
      hown]
    simp only [List.map_append, apply_ite (List.map effect), List.map_nil]

/-- What the actions of all nodes have in common. -/
theorem forall_statements {p : Node → Bool → Prop} {q : Statement → Prop}
    (hpq : ∀ node hasContent, p node hasContent →
      ∀ action ∈ (node.frame hasContent).before ++ (node.frame hasContent).after,
        q (node.statement action))
    {tree : Tree} (h : tree.Every p) : ∀ statement ∈ tree.statements, q statement := by
  induction h with
  | @node label children hlabel hchildren ih =>
    have hown := hpq label _ hlabel
    intro statement hmem
    rw [statements_node, List.mem_append, List.mem_append] at hmem
    rcases hmem with (hmem | hmem) | hmem
    · rcases List.mem_map.1 hmem with ⟨action, haction, rfl⟩
      exact hown action (List.mem_append_left _ haction)
    · split at hmem
      · rcases List.mem_flatMap.1 hmem with ⟨child, hchild, hmem⟩
        exact ih child hchild statement hmem
      · simp at hmem
    · rcases List.mem_map.1 hmem with ⟨action, haction, rfl⟩
      exact hown action (List.mem_append_right _ haction)

end Tree

/-! ## Rendering -/

namespace Node

/-- Whether a node folds its content into one literal. -/
def folds (node : Node) : Bool :=
  node.markup.preserve && node.markup.isPair

/-- Whether a node is left for the literal of a node above it, where blanks are kept: it
is an opener alone that keeps no blanks itself. -/
def isLeft (node : Node) (hasContent : Bool) : Bool :=
  node.script?.isNone && !hasContent && !node.markup.isPair && !node.markup.opener.isEmpty
    && !node.markup.preserve

/-- An action of a node as a fragment.  The flag says whether blanks are kept around the
node. -/
def fragment (node : Node) (above : Bool) (action : Action) : Fragment :=
  .statement ⟨node.margin above, action⟩

/-- A node that neither folds its content nor is left for a literal is laid out as its
frame round its content, unless nothing is printed of the content. -/
theorem layout_cases {node : Node} {above hasContent : Bool}
    (hfolds : hasContent = true → node.folds = false)
    (hleft : above = true → node.isLeft hasContent = false) :
    (∃ warnings, node.layout above hasContent
        = .wrapped warnings ((node.frame hasContent).before.map (node.fragment above))
          ((node.frame hasContent).after.map (node.fragment above))
        ∧ (node.frame hasContent).visited = true)
      ∨ (node.layout above hasContent
          = .closed ((node.frame hasContent).before.map (node.fragment above))
        ∧ (node.frame hasContent).after = []
        ∧ (hasContent = true → (node.frame hasContent).visited = false)) := by
  cases hdetail : node.reading.detail with
  | script script =>
    left
    simp only [layout, frame, script?, hdetail, Script.layout, Script.frame]
    cases script.mode with
    | running => exact ⟨[], rfl, rfl⟩
    | inserting escaped =>
      simp only []
      split
      · exact ⟨[], rfl, rfl⟩
      · exact ⟨_, rfl, rfl⟩
  | none | element element | comment conditional =>
    simp only [layout, frame, script?, hdetail, Markup.layout, Markup.frame]
    cases hasContent with
    | true =>
      cases hpair : node.markup.isPair with
      | true =>
        have hpreserve : node.markup.preserve = false := by
          simpa [folds, hpair] using hfolds rfl
        rw [hpreserve]
        exact .inl ⟨[], rfl, rfl⟩
      | false =>
        cases node.markup.silent with
        | true => exact .inr ⟨rfl, rfl, fun _ => rfl⟩
        | false => exact .inl ⟨[], rfl, rfl⟩
    | false =>
      right
      cases hpair : node.markup.isPair with
      | true => exact ⟨rfl, rfl, by simp⟩
      | false =>
        cases hopener : node.markup.opener.isEmpty with
        | true => exact ⟨rfl, rfl, by simp⟩
        | false =>
          have hpushed : (above && !node.markup.preserve) = false := by
            cases above with
            | false => rfl
            | true => simpa [isLeft, script?, hdetail, hpair, hopener] using hleft rfl
          simp only [hpushed]
          exact ⟨rfl, rfl, by simp⟩

end Node

namespace Tree

variable {label : Node} {children : List Tree} {above : Bool}

/-- What is rendered of a tree: the frame of its node round its content. -/
theorem fragments_node
    (h : (Tree.node label children).Every fun node _ => node.evaluated = true)
    (hfolds : children ≠ [] → label.folds = false)
    (hleft : above = true → label.isLeft (!children.isEmpty) = false) :
    (Tree.node label children).fragments above
      = (label.frame (!children.isEmpty)).before.map (label.fragment above)
        ++ (if (label.frame (!children.isEmpty)).visited
          then children.flatMap (fragments (label.isPreserved above)) else [])
        ++ (label.frame (!children.isEmpty)).after.map (label.fragment above) := by
  cases h with
  | node heval hchildren =>
    have hcontent : ∀ child ∈ children, (child.render (label.isPreserved above)).result
        = .ok (child.fragments (label.isPreserved above)) :=
      fun child hmem => render_of_evaluated (hchildren child hmem) _
    have hnonempty : (!children.isEmpty) = true → children ≠ [] := by simp
    rcases Node.layout_cases (fun hcontent => hfolds (hnonempty hcontent)) hleft with
      ⟨warnings, hlayout, hvisited⟩ | ⟨hlayout, hafter, hvisited⟩
    · rw [fragments_eq (render_wrapped heval hcontent hlayout), hvisited]
      rfl
    · have hnone : (if (label.frame (!children.isEmpty)).visited
          then children.flatMap (fragments (label.isPreserved above)) else []) = [] := by
        cases children with
        | nil => simp
        | cons child rest =>
          have hclosed := hvisited rfl
          rw [hclosed]
          rfl
      rw [fragments, render_closed heval hlayout, hnone, hafter]
      simp

end Tree

private theorem Node.fragment_eq_statement {node : Node} (h : node.markup.preserve = false) :
    node.fragment false = Fragment.statement ∘ node.statement := by
  funext action
  simp [fragment, statement, margin, isPreserved, h]

private theorem Tree.fragments_eq_statements {tree : Tree}
    (h : tree.Every fun node _ => node.evaluated = true ∧ node.markup.preserve = false) :
    tree.fragments false = tree.statements.map .statement := by
  induction h with
  | @node label children hlabel hchildren ih =>
    have heval := (Every.node hlabel hchildren).imp fun _ _ hnode => hnode.1
    have hfolds : label.folds = false := by
      simp [Node.folds, hlabel.2]
    have hbelow : label.isPreserved false = false := by
      simp [Node.isPreserved, hlabel.2]
    have hcontent : children.flatMap (fragments false)
        = (children.flatMap statements).map .statement := by
      rw [List.map_flatMap]
      exact List.flatMap_congr ih
    rw [fragments_node heval (fun _ => hfolds) (by simp), statements_node, hbelow, hcontent,
      Node.fragment_eq_statement hlabel.2]
    simp [apply_ite (List.map _)]

/-- A tree without kept blanks is rendered to its statements. -/
theorem Tree.render_unpreserved {tree : Tree}
    (h : tree.Every fun node _ => node.evaluated = true ∧ node.markup.preserve = false) :
    (tree.render false).result = .ok (tree.statements.map .statement) := by
  rw [← fragments_eq_statements h]
  exact render_of_evaluated (h.imp fun _ _ hnode => hnode.1) false

/-- A loose tree is rendered to its statements. -/
theorem Tree.render_eq_statements {tree : Tree} (h : tree.Every fun node _ => node.IsLoose) :
    (tree.render false).result = .ok (tree.statements.map .statement) :=
  render_unpreserved (h.imp fun _ _ hnode => ⟨hnode.evaluated, hnode.preserve⟩)

theorem Session.frame_root (session : Session) (hasContent : Bool) :
    session.root.frame hasContent = ⟨[], [], true⟩ := by
  cases hasContent <;> rfl

/-- The statements of a template are those of its parts. -/
theorem Session.statements_root (session : Session) (children : List Tree) :
    (Tree.node session.root children).statements = children.flatMap Tree.statements := by
  rw [Tree.statements_node, session.frame_root]
  simp

/-- What is compiled are the lines of the statements with their marks resolved. -/
theorem compile_unpreserved (session : Session) {tree : Tree}
    (h : tree.Every fun node _ => node.evaluated = true ∧ node.markup.preserve = false) :
    (session.compile false tree).result
      = .ok ((resolveMarks (tree.statements.flatMap Statement.lines)).map fun line =>
          line.print ++ [Byte.lineFeed]) := by
  rw [Session.compile_result (Tree.render_unpreserved h), printFragments_statements,
    trimmedChunks_statements]

/-- A loose tree is compiled to the lines of its statements, with their marks resolved. -/
theorem compile_statements (session : Session) {tree : Tree}
    (h : tree.Every fun node _ => node.IsLoose) :
    (session.compile false tree).result
      = .ok ((resolveMarks (tree.statements.flatMap Statement.lines)).map fun line =>
          line.print ++ [Byte.lineFeed]) :=
  compile_unpreserved session (h.imp fun _ _ hnode => ⟨hnode.evaluated, hnode.preserve⟩)

/-! ## Host code -/

/-- Host code is a part of its expression, without the blanks round it. -/
theorem Script.exists_code_read (escapeHtml : Bool) (expression : Bytes) :
    ∃ part, part <:+: expression ∧ (read escapeHtml expression).code = trim part := by
  unfold read
  split
  · exact ⟨_, (List.drop_suffix _ _).isInfix, rfl⟩
  · exact ⟨expression, List.infix_refl _, rfl⟩

/-- An evaluated node with host code reads it from its expression, and has no markup. -/
theorem Node.script_of_evaluated {node : Node} (h : node.evaluated = true) {script : Script}
    (hscript : script ∈ node.script?) :
    script = Script.read node.directive.options.escapeHtml node.directive.expression
      ∧ node.markup = {} := by
  rw [Node.markup]
  rw [Node.script?] at hscript
  rw [Node.reading, if_pos h, Directive.reading] at hscript ⊢
  cases hkind : node.directive.kind with
  | script =>
    simp only [hkind, Option.mem_some] at hscript
    exact ⟨hscript.symm, rfl⟩
  | plain | text | element | comment | doctype | custom => simp [hkind] at hscript

/-- Markup prints its opener and its closer, the closer only in a pair. -/
theorem Markup.exists_text_of_mem_frame {markup : Markup} {hasContent : Bool} {action : Action}
    (h : action ∈ (markup.frame hasContent).before ++ (markup.frame hasContent).after) :
    ∃ text, action = .pushText text ∧ (text = markup.opening ∨ markup.isPair = true
      ∧ (text = markup.closing ∨ text = markup.opening ++ markup.closing)) := by
  unfold frame at h
  split at h
  · split at h
    · next hpair =>
      simp only [List.singleton_append, List.mem_cons, List.not_mem_nil, or_false] at h
      rcases h with rfl | rfl
      · exact ⟨_, rfl, .inl rfl⟩
      · exact ⟨_, rfl, .inr ⟨hpair, .inl rfl⟩⟩
    · simp at h
  · split at h
    · next hpair => exact ⟨_, by simpa using h, .inr ⟨hpair, .inr rfl⟩⟩
    · split at h
      · simp at h
      · exact ⟨_, by simpa using h, .inl rfl⟩

/-- The actions of a node run no other code than its own. -/
theorem Node.exists_script_of_mem_frame {node : Node} {hasContent : Bool} {action : Action}
    (h : action ∈ (node.frame hasContent).before ++ (node.frame hasContent).after) {code : Bytes}
    (hcode : code ∈ action.code?) : ∃ script ∈ node.script?, code = script.code := by
  unfold frame at h
  split at h
  · next script hscript =>
    refine ⟨script, hscript, ?_⟩
    unfold Script.frame at h
    split at h
    · obtain rfl : action = .run script.code := by simpa using h
      simpa [Action.code?] using hcode.symm
    · split at h
      · simp only [List.singleton_append, List.mem_cons, List.not_mem_nil, or_false] at h
        rcases h with rfl | rfl
        · simpa [Action.code?] using hcode.symm
        · simp [Action.code?] at hcode
      · obtain ⟨escaped, rfl⟩ : ∃ escaped, action = .pushValue script.code escaped :=
          ⟨_, by simpa using h⟩
        simpa [Action.code?] using hcode.symm
  · rcases Markup.exists_text_of_mem_frame h with ⟨text, rfl, -⟩
    simp [Action.code?] at hcode

/-- The host code of an evaluated node is read from its expression. -/
theorem Node.IsLoose.script_code {node : Node} (h : node.IsLoose) {script : Script}
    (hscript : script ∈ node.script?) :
    Unmarked script.code ∧ ∀ c ∈ script.code.head?, isBlank c = false := by
  rw [(Node.script_of_evaluated h.evaluated hscript).1]
  rcases Script.exists_code_read node.directive.options.escapeHtml node.directive.expression with
    ⟨part, hpart, hcode⟩
  rw [hcode]
  exact ⟨(h.unmarked.of_subset hpart.subset).of_subset (trim_subset part), head?_trim part⟩

/-- What is known of the host code in the statements of a tree. -/
theorem Tree.code_of_mem_statements {tree : Tree} (h : tree.Every fun node _ => node.IsLoose) :
    ∀ statement ∈ tree.statements, ∀ code ∈ statement.action.code?,
      Unmarked code ∧ ∀ c ∈ code.head?, isBlank c = false := by
  refine forall_statements (fun node hasContent hnode action haction code hcode => ?_) h
  rcases Node.exists_script_of_mem_frame haction hcode with ⟨script, hscript, rfl⟩
  exact hnode.script_code hscript

/-- Where all host code stands on one line, so do all statements. -/
theorem Tree.lineFeed_not_mem_text {tree : Tree} (h : tree.Every fun node _ => node.HasOneLine) :
    ∀ statement ∈ tree.statements, Byte.lineFeed ∉ statement.text := by
  refine forall_statements (fun node hasContent hnode action haction => ?_) h
  refine Statement.not_mem_text (by decide) (fun text _ => Literal.lineFeed_not_mem_escape _) ?_
  intro code hcode
  rcases Node.exists_script_of_mem_frame haction hcode with ⟨script, hscript, rfl⟩
  exact hnode script hscript

end TemplateCompiler
