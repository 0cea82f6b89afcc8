import TemplateCompiler.Template.Render

/-!
# Stores of nodes

Nodes are put together step by step.  A store numbers them in the order of their
making; each knows the node that it is nested in, from its making on or since it
was attached, and the nodes that were attached to it.  The steps are checked, so a
node is attached at most once and to at most one node.

Main results:

- Theorem {lit}`Store.cell?_create_new`: a new node has the next number.
- Theorem {lit}`Store.evaluate_of_not_evaluated`: evaluating a node for the first time
  logs the warnings of its directive.
-/

namespace TemplateCompiler

/-- A node in a store. -/
structure Cell where
  node : Node
  /-- The number of the node that it is nested in. -/
  parent : Option Nat := none
  /-- The numbers of the nodes that were attached to it, in order. -/
  children : List Nat := []
deriving DecidableEq

/-- Nodes by number. -/
structure Store where
  cells : Array Cell := #[]
deriving DecidableEq

namespace Store

/-- The number of nodes. -/
def size (store : Store) : Nat :=
  store.cells.size

/-- The node of a number. -/
def cell? (store : Store) (id : Nat) : Option Cell :=
  store.cells[id]?

/-! ## Steps and views -/

/-- Make a node, which takes the next number. -/
def create (store : Store) (directive : Directive) (parent : Option Nat) : Store :=
  ⟨store.cells.push { node := { directive }, parent }⟩

/-- Evaluate a node.  Reading its expression may give warnings. -/
def evaluate (store : Store) (id : Nat) : Logged Store :=
  match store.cell? id with
  | none => pure store
  | some cell =>
    match cell.node.evaluate with
    | .error violation => Logged.stop violation
    | .ok node => do
      Logged.warnAll node.directive.warnings
      pure ⟨store.cells.modify id fun cell => { cell with node }⟩

/-- Attach a node to another as its last child. -/
def attach (store : Store) (parent child : Nat) : Except Violation Store :=
  match store.cell? parent, store.cell? child with
  | some above, some below =>
    if !above.node.evaluated then .error .parentUnevaluated
    else if below.parent.any (· != parent) then .error .secondParent
    else if above.children.contains child then .error .attachedTwice
    else
      let adopted := store.cells.modify child fun cell => { cell with parent := some parent }
      .ok ⟨adopted.modify parent fun cell => { cell with children := cell.children ++ [child] }⟩
  | _, _ => .ok store

/-- The made node has the next number. -/
@[simp] theorem cell?_create_new (store : Store) (directive : Directive)
    (parent : Option Nat) :
    (store.create directive parent).cell? store.size = some { node := { directive }, parent } := by
  simp [create, cell?, size]

/-- A node that was not evaluated is evaluated without fail, with the warnings of its
directive. -/
theorem evaluate_of_not_evaluated {store : Store} {id : Nat} {cell : Cell}
    (hcell : store.cell? id = some cell) (heval : cell.node.evaluated = false) :
    ∃ after, store.evaluate id = ⟨cell.node.directive.warnings.map .warning, .ok after⟩
      ∧ after.cell? id = some { cell with node := .build cell.node.directive } := by
  have hnode : cell.node.evaluate = .ok (.build cell.node.directive) := by
    rw [Node.evaluate, heval]
    rfl
  refine ⟨⟨store.cells.modify id fun old => { old with node := .build cell.node.directive }⟩,
    ?_, ?_⟩
  · simp only [evaluate, hcell, hnode]
    change (⟨cell.node.directive.warnings.map .warning ++ [], .ok _⟩ : Logged Store) = _
    rw [List.append_nil]
  · rw [cell?] at hcell ⊢
    rw [Array.getElem?_modify, if_pos rfl, hcell]
    rfl

/-- Whether blanks are kept in a node, looked for over so many nodes upwards. -/
def preservedWithin (store : Store) : Nat → Nat → Bool
  | 0, _ => false
  | count + 1, id =>
    match store.cell? id with
    | none => false
    | some cell =>
      cell.node.markup.preserve
        || cell.parent.any fun parent => store.preservedWithin count parent

/-- Whether blanks are kept in a node, by itself or by a node that it is nested in.
No chain of nodes is longer than the store. -/
def isPreserved (store : Store) (id : Nat) : Bool :=
  store.preservedWithin store.size id

/-- Whether blanks are kept around a node. -/
def isPreservedAbove (store : Store) (id : Nat) : Bool :=
  (store.cell? id).any fun cell => cell.parent.any store.isPreserved

/-- The tree below a node, down to so many levels. -/
def treeWithin (store : Store) : Nat → Nat → Option Tree
  | 0, _ => none
  | depth + 1, id =>
    (store.cell? id).map fun cell =>
      .node cell.node (cell.children.filterMap fun child => store.treeWithin depth child)

/-- The tree below a node.  No branch of distinct nodes is longer than the store, and
one level more shows what is below its last node. -/
def tree? (store : Store) (id : Nat) : Option Tree :=
  store.treeWithin (store.size + 1) id

end Store

end TemplateCompiler
