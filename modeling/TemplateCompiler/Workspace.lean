import TemplateCompiler.Session
import TemplateCompiler.Store

/-!
# Workspaces

A workspace is a session with the nodes that were made in it.  Constructs are made
with the options that are current, put together in the store, and rendered,
compiled or shown from any node on.

Main results:

- Theorem {lit}`Workspace.build_cell`: a node is made and evaluated without fail.
-/

namespace TemplateCompiler

/-- A session and its nodes. -/
structure Workspace where
  session : Session := {}
  store : Store := {}
deriving DecidableEq

namespace Workspace

/-! ## Steps -/

/-- Make a node without evaluating it. -/
def create (workspace : Workspace) (kind : Kind) (expression : Bytes) (position : Position)
    (parent : Option Nat) : Workspace :=
  let directive := workspace.session.directive kind expression position
  { workspace with store := workspace.store.create directive parent }

/-- Evaluate a node. -/
def evaluate (workspace : Workspace) (id : Nat) : Logged Workspace := do
  let store ← workspace.store.evaluate id
  pure { workspace with store }

/-- Make a node and evaluate it. -/
def build (workspace : Workspace) (kind : Kind) (expression : Bytes) (position : Position)
    (parent : Option Nat) : Logged Workspace :=
  (workspace.create kind expression position parent).evaluate workspace.store.size

/-- Attach a node to another as its last child. -/
def attach (workspace : Workspace) (parent child : Nat) : Logged Workspace :=
  match workspace.store.attach parent child with
  | .error violation => Logged.stop violation
  | .ok store => pure { workspace with store }

/-- A step in putting a template together. -/
inductive Step where
  /-- Make the node at the top of a template. -/
  | root
  /-- Make a node without evaluating it. -/
  | create (kind : Kind) (expression : Bytes) (position : Position) (parent : Option Nat)
  /-- Make a node and evaluate it. -/
  | build (kind : Kind) (expression : Bytes) (position : Position) (parent : Option Nat)
  /-- Evaluate a node. -/
  | evaluate (id : Nat)
  /-- Attach a node to another as its last child. -/
  | attach (parent child : Nat)
deriving DecidableEq

/-- Take one step. -/
def step (workspace : Workspace) : Step → Logged Workspace
  | .root => workspace.build .plain [] {} none
  | .create kind expression position parent =>
    pure (workspace.create kind expression position parent)
  | .build kind expression position parent =>
    workspace.build kind expression position parent
  | .evaluate id => workspace.evaluate id
  | .attach parent child => workspace.attach parent child

/-- The code of the tree below a node, trim marks included. -/
def render (workspace : Workspace) (id : Nat) : Logged Bytes :=
  match workspace.store.tree? id with
  | none => pure []
  | some tree => tree.code (workspace.store.isPreservedAbove id)

/-- The chunks that compiling the tree below a node writes. -/
def compile (workspace : Workspace) (id : Nat) : Logged (List Bytes) :=
  match workspace.store.tree? id with
  | none => pure []
  | some tree => workspace.session.compile (workspace.store.isPreservedAbove id) tree

/-- The diagram of the tree below a node. -/
def diagram (workspace : Workspace) (id : Nat) (level : Int) : Bytes :=
  match workspace.store.cell? id, workspace.store.tree? id with
  | some cell, some tree => tree.diagram cell.parent.isNone level
  | _, _ => []

/-- A statement at the margin of a node. -/
def statement (workspace : Workspace) (id : Nat) (action : Action) : Bytes :=
  match workspace.store.cell? id with
  | none => []
  | some cell =>
    Statement.print ⟨cell.node.directive.margin (workspace.store.isPreserved id), action⟩

/-- A node is made and evaluated without fail, with the warnings of its directive. -/
theorem build_cell (workspace : Workspace) (kind : Kind) (expression : Bytes)
    (position : Position) (parent : Option Nat) :
    let directive := workspace.session.directive kind expression position
    ∃ built, workspace.build kind expression position parent
        = ⟨directive.warnings.map .warning, .ok built⟩
      ∧ built.store.cell? workspace.store.size = some { node := .build directive, parent } := by
  intro directive
  rcases Store.evaluate_of_not_evaluated
    (Store.cell?_create_new workspace.store directive parent) rfl with ⟨after, hafter, hcell⟩
  refine ⟨{ workspace with store := after }, ?_, hcell⟩
  rw [build, evaluate]
  change (workspace.store.create directive parent).evaluate workspace.store.size >>= _ = _
  rw [hafter]
  change (⟨directive.warnings.map .warning ++ [], .ok _⟩ : Logged Workspace) = _
  rw [List.append_nil]
  rfl

end Workspace

end TemplateCompiler
