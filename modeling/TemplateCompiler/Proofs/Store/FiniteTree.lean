import TemplateCompiler.Proofs.Store.Nesting
import Mathlib.Data.Fintype.Pigeonhole
import Mathlib.Data.List.Perm.Subperm
import Mathlib.Order.WellFounded

/-!
# Trees in a store

The tree below a node is read off the children of nodes, down to a depth that the size of the
store bounds.  Where what is below a node is finite, nothing is cut off: no node is met twice
on the way down, so the way is no longer than the store.  What is put together by steps below
a node that is nested in no other is always finite.

Main results:

- Theorem {lit}`Store.IsFinite.tree?_eq`: the tree below a node is the node with the trees
  below its children.
- Theorem {lit}`Store.Nested.isFinite`: below a node without a parent there is a finite tree.
-/

namespace TemplateCompiler

namespace Store

variable {store : Store}

/-! ## Finite trees -/

/-- Whether all ways down from a node come to an end. -/
def IsFinite (store : Store) (id : Nat) : Prop :=
  Acc (fun child parent => child ∈ store.children parent) id

/-- Whether each node on a way is a child of the one before it. -/
def IsWay (store : Store) (way : List Nat) : Prop :=
  way.IsChain fun parent child => child ∈ store.children parent

private theorem lt_size_of_cell? {id : Nat} {cell : Cell} (h : store.cell? id = some cell) :
    id < store.size := by
  refine Nat.lt_of_not_le fun hle => ?_
  rw [cell?, Array.getElem?_eq_none hle] at h
  cases h

/-- Where one level more shows more of a tree, a way leads down that far. -/
theorem exists_way_of_treeWithin_ne {depth id : Nat}
    (h : store.treeWithin depth id ≠ store.treeWithin (depth + 1) id) :
    ∃ way, way.length = depth ∧ store.IsWay (id :: way)
      ∧ ∀ node ∈ id :: way, node < store.size := by
  induction depth generalizing id with
  | zero =>
    cases hcell : store.cell? id with
    | none => simp [treeWithin, hcell] at h
    | some cell =>
      refine ⟨[], rfl, .singleton id, ?_⟩
      rw [List.forall_mem_singleton]
      exact lt_size_of_cell? hcell
  | succ depth ih =>
    cases hcell : store.cell? id with
    | none => simp [treeWithin, hcell] at h
    | some cell =>
      obtain ⟨child, hchild, hne⟩ : ∃ child ∈ cell.children,
          store.treeWithin depth child ≠ store.treeWithin (depth + 1) child := by
        by_contra hnone
        push Not at hnone
        refine h ?_
        rw [treeWithin, treeWithin, hcell, Option.map_some, Option.map_some,
          List.filterMap_congr hnone]
      rcases ih hne with ⟨way, hlength, hway, hsize⟩
      refine ⟨child :: way, by rw [List.length_cons, hlength], .cons_cons ?_ hway, ?_⟩
      · rwa [children_eq hcell]
      · exact List.forall_mem_cons.2 ⟨lt_size_of_cell? hcell, hsize⟩

/-- Whether a node is below another one, some levels down. -/
def IsBelow (store : Store) : Nat → Nat → Prop :=
  Relation.TransGen fun child parent => child ∈ store.children parent

private theorem isBelow_of_mem_way {id node : Nat} {way : List Nat} (hway : store.IsWay (id :: way))
    (hnode : node ∈ way) : store.IsBelow node id := by
  induction way generalizing id with
  | nil => cases hnode
  | cons child rest ih =>
    rw [IsWay, List.isChain_cons_cons] at hway
    rcases List.mem_cons.1 hnode with rfl | hrest
    · exact .single hway.1
    · exact (ih hway.2 hrest).tail hway.1

namespace IsFinite

variable {id : Nat}

/-- What is below a child of a finite tree is finite. -/
theorem child (h : store.IsFinite id) {child : Nat} (hchild : child ∈ store.children id) :
    store.IsFinite child :=
  Acc.inv h hchild

/-- No node of a finite tree is below itself. -/
theorem not_isBelow_self (h : store.IsFinite id) : ¬store.IsBelow id id := by
  induction h.transGen with
  | intro node _ ih => exact fun hself => ih node hself h hself

/-- No node is met twice on a way down a finite tree. -/
theorem nodup_way (h : store.IsFinite id) {way : List Nat} (hway : store.IsWay (id :: way)) :
    (id :: way).Nodup := by
  induction way generalizing id with
  | nil => exact List.nodup_singleton id
  | cons child rest ih =>
    have hnode : id ∉ child :: rest := fun hmem =>
      h.not_isBelow_self (isBelow_of_mem_way hway hmem)
    rw [IsWay, List.isChain_cons_cons] at hway
    exact List.nodup_cons.2 ⟨hnode, ih (h.child hway.1) hway.2⟩

/-- The tree below a node is the node with the trees below its children. -/
theorem tree?_eq (h : store.IsFinite id) :
    store.tree? id = (store.cell? id).map fun cell =>
      .node cell.node (cell.children.filterMap store.tree?) := by
  have hdeep : store.treeWithin (store.size + 1) id = store.treeWithin (store.size + 2) id := by
    by_contra hne
    rcases exists_way_of_treeWithin_ne hne with ⟨way, hlength, hway, hsize⟩
    have hsubset : id :: way ⊆ List.range store.size := fun node hnode =>
      List.mem_range.2 (hsize node hnode)
    have hle := (List.subperm_of_subset (h.nodup_way hway) hsubset).length_le
    rw [List.length_cons, List.length_range] at hle
    omega
  exact hdeep

end IsFinite

/-- Below a node that is nested in no other, what was put together by steps is a finite
tree. -/
theorem Nested.isFinite (h : store.Nested) {id : Nat} (hroot : store.parent? id = none) :
    store.IsFinite id := by
  refine Classical.not_not.1 fun hinfinite => ?_
  rcases not_acc_iff_exists_descending_chain.1 hinfinite with ⟨way, hstart, hway⟩
  have hparent (count : Nat) : store.parent? (way (count + 1)) = some (way count) :=
    h.parent (way count) (way (count + 1)) (hway count)
  have hsize (count : Nat) : way count < store.size := by
    have hchild := hway count
    rw [children] at hchild
    cases hcell : store.cell? (way count) with
    | none => simp [hcell] at hchild
    | some cell => exact lt_size_of_cell? hcell
  -- A node that is met again is met again one node further up, and so is the first one.
  have hapart (first : Nat) : ∀ more, way first ≠ way (first + more + 1) := by
    induction first with
    | zero =>
      intro more heq
      have hnone := hparent (0 + more)
      rw [← heq, hstart, hroot] at hnone
      cases hnone
    | succ first ih =>
      intro more heq
      have hsame := hparent (first + 1 + more)
      rw [← heq, hparent, Option.some_inj, Nat.add_right_comm] at hsame
      exact ih more hsame
  obtain ⟨first, second, hne, heq⟩ :=
    Finite.exists_ne_map_eq_of_infinite fun count => (⟨way count, hsize count⟩ : Fin store.size)
  rw [Fin.mk.injEq] at heq
  rcases Nat.lt_or_gt_of_ne hne with hlt | hlt
  · rcases Nat.exists_eq_add_of_lt hlt with ⟨more, rfl⟩
    exact hapart first more heq
  · rcases Nat.exists_eq_add_of_lt hlt with ⟨more, rfl⟩
    exact hapart second more heq.symm

end Store

end TemplateCompiler
