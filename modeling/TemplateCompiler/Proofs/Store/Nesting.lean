import TemplateCompiler.Workspace
import Mathlib.Logic.Relation

/-!
# Who is nested in whom

Nodes are put together step by step, and each step looks only at the two nodes that it joins.
Still every node ends up among the children of at most one other node, and there only once:
a node that was attached knows the node that it is nested in, never forgets it, and is not
attached again.

Main results:

- Theorem {lit}`Store.edits_of_attach`: what attaching a node checks, and what it changes.
- Theorem {lit}`Store.Edit.nested` and {lit}`Store.Edit.grows`: what one change of a store
  keeps.
- Theorem {lit}`children_have_one_parent`: what any steps without a violation keep.
-/

namespace TemplateCompiler

namespace Store

/-- The node that a node is nested in. -/
def parent? (store : Store) (id : Nat) : Option Nat :=
  (store.cell? id).bind Cell.parent

/-- The nodes that were attached to a node, in order. -/
def children (store : Store) (id : Nat) : List Nat :=
  ((store.cell? id).map Cell.children).getD []

/-- Whether a node is there and was evaluated. -/
def isEvaluated (store : Store) (id : Nat) : Bool :=
  (store.cell? id).any fun cell => cell.node.evaluated

theorem children_eq {store : Store} {id : Nat} {cell : Cell} (h : store.cell? id = some cell) :
    store.children id = cell.children := by
  rw [children, h]
  rfl

private theorem parent?_eq {store : Store} {id : Nat} {cell : Cell}
    (h : store.cell? id = some cell) :
    store.parent? id = cell.parent := by
  rw [parent?, h]
  rfl

private theorem isEvaluated_eq {store : Store} {id : Nat} {cell : Cell}
    (h : store.cell? id = some cell) : store.isEvaluated id = cell.node.evaluated := by
  rw [isEvaluated, h]
  rfl

/-! ## Changes of a store -/

/-- What a step changes in a store. -/
inductive Edit (store after : Store) : Prop
  /-- A node is made or evaluated; no node gets another child or loses its parent. -/
  | keep (hparent : ∀ id parent, store.parent? id = some parent → after.parent? id = some parent)
      (hchildren : ∀ id, after.children id = store.children id)
      (heval : ∀ id, store.isEvaluated id = true → after.isEvaluated id = true)
  /-- A node is attached to an evaluated one, which alone can be its parent already. -/
  | attach {parent child : Nat} (habove : store.isEvaluated parent = true)
      (hfree : ∀ other, store.parent? child = some other → other = parent)
      (hnew : child ∉ store.children parent)
      (hparent : ∀ id, after.parent? id = if id = child then some parent else store.parent? id)
      (hchildren : ∀ id, after.children id
        = if id = parent then store.children id ++ [child] else store.children id)
      (heval : ∀ id, after.isEvaluated id = store.isEvaluated id)

private theorem cell?_modify (store : Store) (id other : Nat) (change : Cell → Cell) :
    cell? ⟨store.cells.modify id change⟩ other
      = (store.cell? other).map fun cell => if other = id then change cell else cell := by
  rw [cell?, Array.getElem?_modify]
  by_cases h : id = other
  · simp [h, cell?]
  · simp [h, Ne.symm h, cell?]

/-- Making a node is an edit. -/
theorem edit_create (store : Store) (directive : Directive) (parent : Option Nat) :
    Edit store (store.create directive parent) := by
  have hcell (id : Nat) : (store.create directive parent).cell? id
      = if id = store.size then some { node := { directive }, parent } else store.cell? id := by
    rw [create, cell?, Array.getElem?_push]
    rfl
  have hnone : store.cell? store.size = none := by
    simp [cell?, size]
  refine .keep (fun id above habove => ?_) (fun id => ?_) (fun id heval => ?_)
  · rw [parent?, hcell, if_neg, ← parent?]
    · exact habove
    · rintro rfl
      simp [parent?, hnone] at habove
  · rw [children, hcell]
    split
    · next hid => simp [children, hid, hnone]
    · rfl
  · rw [isEvaluated, hcell, if_neg, ← isEvaluated]
    · exact heval
    · rintro rfl
      simp [isEvaluated, hnone] at heval

/-- Evaluating a node is an edit. -/
theorem edit_evaluated (store : Store) {id : Nat} {node : Node} (hnode : node.evaluated = true) :
    Edit store ⟨store.cells.modify id fun cell => { cell with node }⟩ := by
  refine .keep (fun other parent hparent => ?_) (fun other => ?_) (fun other heval => ?_)
  · rw [parent?, cell?_modify, Option.bind_map]
    rw [parent?] at hparent
    rw [← hparent]
    congr 1
    funext cell
    simp only [Function.comp_apply]
    split <;> rfl
  · rw [children, cell?_modify, Option.map_map, children]
    congr 2
    funext cell
    simp only [Function.comp_apply]
    split <;> rfl
  · rw [isEvaluated, Option.any_eq_true] at heval
    rcases heval with ⟨cell, hcell, heval⟩
    rw [isEvaluated, cell?_modify, hcell]
    simp only [Option.map_some, Option.any_some]
    split
    · exact hnode
    · exact heval

/-- Evaluating a node changes at most that. -/
theorem edits_of_evaluate {store after : Store} {id : Nat}
    (h : (store.evaluate id).result = .ok after) : Relation.ReflTransGen Edit store after := by
  unfold evaluate at h
  split at h
  · cases h
    exact .refl
  · next cell hcell =>
    split at h
    · cases h
    · next node hnode =>
      have heval : node.evaluated = true := by
        unfold Node.evaluate at hnode
        split at hnode
        · cases hnode
        · cases hnode
          rfl
      cases h
      exact .single (store.edit_evaluated heval)

/-- A store with a node attached to another one. -/
def attached (store : Store) (parent child : Nat) : Store :=
  ⟨(store.cells.modify child fun cell => { cell with parent := some parent }).modify parent
    fun cell => { cell with children := cell.children ++ [child] }⟩

private theorem cell?_attached (store : Store) (parent child id : Nat) :
    (store.attached parent child).cell? id = (store.cell? id).map fun cell =>
      { cell with
        parent := if id = child then some parent else cell.parent
        children := if id = parent then cell.children ++ [child] else cell.children } := by
  rw [attached, cell?_modify, cell?_modify, Option.map_map]
  congr 1
  funext cell
  simp only [Function.comp_apply]
  split <;> split <;> rfl

/-- Attaching a node is an edit. -/
theorem edit_attached {store : Store} {parent child : Nat} {above below : Cell}
    (habove : store.cell? parent = some above) (hbelow : store.cell? child = some below)
    (heval : above.node.evaluated = true) (hfree : ∀ other ∈ below.parent, other = parent)
    (hnew : child ∉ above.children) : Edit store (store.attached parent child) := by
  refine @Edit.attach _ _ parent child ?_ ?_ ?_ (fun id => ?_) (fun id => ?_)
    (fun id => ?_)
  · rw [isEvaluated_eq habove, heval]
  · rw [parent?_eq hbelow]
    exact hfree
  · rwa [children_eq habove]
  · rw [parent?, cell?_attached, Option.bind_map]
    by_cases hid : id = child
    · rw [if_pos hid, hid, hbelow]
      simp
    · simp only [hid, if_false, parent?]
      rfl
  · rw [children, cell?_attached, Option.map_map]
    by_cases hid : id = parent
    · rw [if_pos hid, children_eq (hid ▸ habove), hid, habove]
      simp
    · simp only [hid, if_false, children]
      rfl
  · rw [isEvaluated, cell?_attached, isEvaluated, Option.any_map]

/-- Attaching a node to one that is there checks both of them. -/
theorem edits_of_attach {store after : Store} {parent child : Nat}
    (h : store.attach parent child = .ok after) : Relation.ReflTransGen Edit store after := by
  unfold attach at h
  split at h
  · next above below habove hbelow =>
    split at h
    · cases h
    · next heval =>
      split at h
      · cases h
      · next hfree =>
        split at h
        · cases h
        · next hnew =>
          cases h
          simp only [Bool.not_eq_true', Bool.not_eq_false] at heval
          refine .single (edit_attached habove hbelow heval (fun other hother => ?_) ?_)
          · rw [Option.mem_def.1 hother] at hfree
            simpa using hfree
          · simpa using hnew
  · cases h
    exact .refl

/-! ## What a change keeps -/

/-- Whether the children of nodes are children of no other node, and only once; only
evaluated nodes have any. -/
structure Nested (store : Store) : Prop where
  parent : ∀ id, ∀ child ∈ store.children id, store.parent? child = some id
  nodup : ∀ id, (store.children id).Nodup
  evaluated : ∀ id, store.children id ≠ [] → store.isEvaluated id = true

/-- Whether no node of a store has lost in a later one what it had. -/
structure Grows (store after : Store) : Prop where
  parent : ∀ id parent, store.parent? id = some parent → after.parent? id = some parent
  children : ∀ id, store.children id <+: after.children id
  evaluated : ∀ id, store.isEvaluated id = true → after.isEvaluated id = true

/-- A store without nodes is nested. -/
theorem nested_empty : Nested {} where
  parent := by
    intro id child hchild
    cases hchild
  nodup := fun _ => List.nodup_nil
  evaluated := fun _ hne => absurd rfl hne

namespace Grows

variable {first second third : Store}

theorem refl (store : Store) : store.Grows store where
  parent := fun _ _ h => h
  children := fun _ => List.prefix_refl _
  evaluated := fun _ h => h

theorem trans (h : first.Grows second) (h' : second.Grows third) : first.Grows third where
  parent := fun id parent hparent => h'.parent id parent (h.parent id parent hparent)
  children := fun id => (h.children id).trans (h'.children id)
  evaluated := fun id heval => h'.evaluated id (h.evaluated id heval)

end Grows

namespace Edit

variable {store after : Store}

/-- An edit lets a store grow. -/
theorem grows (h : Edit store after) : store.Grows after := by
  cases h with
  | keep hparent hchildren heval =>
    exact ⟨hparent, fun id => hchildren id ▸ List.prefix_refl _, heval⟩
  | @attach parent child habove hfree hnew hparent hchildren heval =>
    refine ⟨fun id other hother => ?_, fun id => ?_, fun id hid => (heval id).trans hid⟩
    · rw [hparent]
      split
      · next hid =>
        rw [hfree other (hid ▸ hother)]
      · exact hother
    · rw [hchildren]
      split
      · exact List.prefix_append _ _
      · exact List.prefix_refl _

/-- An edit keeps a store nested. -/
theorem nested (h : Edit store after) (hnested : store.Nested) : after.Nested := by
  have hgrows := h.grows
  cases h with
  | keep hparent hchildren heval =>
    refine ⟨fun id child hmem => ?_, fun id => ?_, fun id hne => ?_⟩
    · rw [hchildren] at hmem
      exact hparent child id (hnested.parent id child hmem)
    · rw [hchildren]
      exact hnested.nodup id
    · rw [hchildren] at hne
      exact heval id (hnested.evaluated id hne)
  | @attach parent child habove hfree hnew hparent hchildren heval =>
    have hattached : after.parent? child = some parent := by
      rw [hparent, if_pos rfl]
    refine ⟨fun id other hmem => ?_, fun id => ?_, fun id hne => ?_⟩
    · rw [hchildren] at hmem
      split at hmem
      · next hid =>
        rcases List.mem_append.1 hmem with hold | hlast
        · exact hgrows.parent other id (hnested.parent id other hold)
        · rw [List.mem_singleton.1 hlast, hid]
          exact hattached
      · exact hgrows.parent other id (hnested.parent id other hmem)
    · rw [hchildren]
      split
      · next hid =>
        rw [hid]
        exact List.nodup_append.2 ⟨hnested.nodup parent, by simp, by
          intro other hother last hlast
          rw [List.mem_singleton.1 hlast]
          rintro rfl
          exact hnew hother⟩
      · exact hnested.nodup id
    · rw [heval]
      rw [hchildren] at hne
      split at hne
      · next hid => rw [hid, habove]
      · exact hnested.evaluated id hne

end Edit

/-- Any edits let a store grow. -/
theorem grows_of_edits {store after : Store} (h : Relation.ReflTransGen Edit store after) :
    store.Grows after := by
  induction h with
  | refl => exact .refl _
  | tail _ hedit ih => exact ih.trans hedit.grows

/-- Any edits keep a store nested. -/
theorem nested_of_edits {store after : Store} (h : Relation.ReflTransGen Edit store after)
    (hnested : store.Nested) : after.Nested := by
  induction h with
  | refl => exact hnested
  | tail _ hedit ih => exact hedit.nested ih

end Store

/-! ## Steps -/

namespace Workspace

/-- Run several steps; a violation ends this. -/
def run (workspace : Workspace) : List Step → Logged Workspace
  | [] => pure workspace
  | step :: rest => do
    let next ← workspace.step step
    next.run rest

private theorem edits_of_evaluate {workspace next : Workspace} {id : Nat}
    (h : (workspace.evaluate id).result = .ok next) :
    Relation.ReflTransGen Store.Edit workspace.store next.store := by
  unfold evaluate at h
  cases hstore : (workspace.store.evaluate id).result with
  | error violation =>
    rw [Logged.bind_of_error hstore] at h
    cases h
  | ok store =>
    rw [Logged.bind_result_ok hstore] at h
    cases h
    exact Store.edits_of_evaluate hstore

private theorem edits_of_build {workspace next : Workspace} {kind : Kind} {expression : Bytes}
    {position : Position} {parent : Option Nat}
    (h : (workspace.build kind expression position parent).result = .ok next) :
    Relation.ReflTransGen Store.Edit workspace.store next.store :=
  .head (Store.edit_create ..) (edits_of_evaluate h)

private theorem edits_of_step {workspace next : Workspace} {step : Step}
    (h : (workspace.step step).result = .ok next) :
    Relation.ReflTransGen Store.Edit workspace.store next.store := by
  cases step with
  | root => exact edits_of_build h
  | create kind expression position parent =>
    cases h
    exact .single (Store.edit_create ..)
  | build kind expression position parent => exact edits_of_build h
  | evaluate id => exact edits_of_evaluate h
  | attach parent child =>
    simp only [step, attach] at h
    split at h
    · cases h
    · next store hstore =>
      cases h
      exact Store.edits_of_attach hstore

/-- A run that meets no violation edits the store. -/
theorem edits_of_run {workspace last : Workspace} {steps : List Step}
    (h : (workspace.run steps).result = .ok last) :
    Relation.ReflTransGen Store.Edit workspace.store last.store := by
  induction steps generalizing workspace with
  | nil =>
    cases h
    exact .refl
  | cons step rest ih =>
    rw [run] at h
    cases hstep : (workspace.step step).result with
    | error violation =>
      rw [Logged.bind_of_error hstep] at h
      cases h
    | ok next =>
      rw [Logged.bind_result_ok hstep] at h
      exact (edits_of_step hstep).trans (ih h)

/-- A run without a violation has none in its first part. -/
theorem exists_of_run_append {workspace last : Workspace} {before after : List Step}
    (h : (workspace.run (before ++ after)).result = .ok last) :
    ∃ middle, (workspace.run before).result = .ok middle
      ∧ (middle.run after).result = .ok last := by
  induction before generalizing workspace with
  | nil => exact ⟨workspace, rfl, h⟩
  | cons step rest ih =>
    rw [List.cons_append, run] at h
    cases hstep : (workspace.step step).result with
    | error violation =>
      rw [Logged.bind_of_error hstep] at h
      cases h
    | ok next =>
      rw [Logged.bind_result_ok hstep] at h
      rcases ih h with ⟨middle, hmiddle, hlast⟩
      refine ⟨middle, ?_, hlast⟩
      rw [run, Logged.bind_result_ok hstep]
      exact hmiddle

end Workspace

/-- However nodes are made, evaluated and attached without a violation, each child of a node
knows that node as its parent, is its child once and the child of no other node; only
evaluated nodes have children.  And from any point on, a parent that a node knows stays its
parent, and children only follow those that are there. -/
theorem children_have_one_parent (session : Session) (before after : List Workspace.Step)
    (last : Workspace)
    (h : (Workspace.run { session } (before ++ after)).result = .ok last) :
    (∀ id, ∀ child ∈ last.store.children id, last.store.parent? child = some id)
      ∧ (∀ id, (last.store.children id).Nodup)
      ∧ (∀ id other child, child ∈ last.store.children id → child ∈ last.store.children other →
        id = other)
      ∧ (∀ id, last.store.children id ≠ [] → last.store.isEvaluated id = true)
      ∧ ∃ middle, (Workspace.run { session } before).result = .ok middle
        ∧ (∀ id parent, middle.store.parent? id = some parent →
          last.store.parent? id = some parent)
        ∧ ∀ id, middle.store.children id <+: last.store.children id := by
  have hnested := Store.nested_of_edits (Workspace.edits_of_run h) Store.nested_empty
  rcases Workspace.exists_of_run_append h with ⟨middle, hmiddle, hlast⟩
  have hgrows := Store.grows_of_edits (Workspace.edits_of_run hlast)
  refine ⟨hnested.parent, hnested.nodup, fun id other child hid hother => ?_, hnested.evaluated,
    middle, hmiddle, hgrows.parent, hgrows.children⟩
  have hparent := hnested.parent id child hid
  rw [hnested.parent other child hother] at hparent
  exact (Option.some.inj hparent).symm

/-- A group that is attached before it is evaluated, and has a text attached after that. -/
theorem children_have_one_parent_of_late_evaluation :
    ∃ last, (Workspace.run {} ([.root, .create .plain [] {} none, .attach 0 1]
          ++ [.evaluate 1, .build .text (ascii "a") {} (some 1), .attach 1 2])).result = .ok last
      ∧ last.store.children 0 = [1] ∧ last.store.children 1 = [2]
      ∧ ∀ id other child, child ∈ last.store.children id → child ∈ last.store.children other →
        id = other := by
  have hrun : (Workspace.run {} ([.root, .create .plain [] {} none, .attach 0 1]
      ++ [.evaluate 1, .build .text (ascii "a") {} (some 1), .attach 1 2])).result = .ok _ := rfl
  exact ⟨_, hrun, rfl, rfl, (children_have_one_parent {} _ _ _ hrun).2.2.1⟩

end TemplateCompiler
