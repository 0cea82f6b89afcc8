import TemplateCompiler.Proofs.Template.Static

/-!
# Exposed text

Where blanks are kept, an opener that stands alone is left for the literal of a node
above it.  Nothing makes sure that there is such a node: below an opener without a
closer the text is exposed, and stands among the statements of the program.

Main results:

- Theorem {lit}`Tree.arePushes_fragments_iff`: a static tree is rendered to pushes of text
  exactly when no leaf is exposed.
-/

namespace TemplateCompiler

/-! ## Leaves -/

/-- A tree has a leaf below a path of nodes, the top one first. -/
inductive Tree.HasLeaf : Tree → List Node → Node → Prop
  | here {leaf : Node} : HasLeaf (.node leaf []) [] leaf
  | nested {label leaf : Node} {children : List Tree} {child : Tree} {path : List Node}
      (hmem : child ∈ children) (h : HasLeaf child path leaf) :
      HasLeaf (.node label children) (label :: path) leaf

/-- Whether a leaf is left for a literal that does not come: it has an opener only,
blanks are kept above it but not by itself, no node of the path folds its content into a
literal, and none drops it.  The flag says whether blanks are kept above the path. -/
structure Exposed (above : Bool) (path : List Node) (leaf : Node) : Prop where
  opener : leaf.markup.opener ≠ []
  closer : leaf.markup.closer = []
  preserve : leaf.markup.preserve = false
  kept : above = true ∨ ∃ node ∈ path, node.markup.preserve = true
  unfolded : ∀ node ∈ path, node.markup.preserve = true → node.markup.isPair = false
  printed : ∀ node ∈ path, node.markup.silent = false

/-- A node passes exposure on to its content, unless it folds or drops the content. -/
theorem exposed_cons_iff {above : Bool} {label leaf : Node} {path : List Node} :
    Exposed above (label :: path) leaf ↔
      label.markup.silent = false ∧ (label.markup.preserve = true → label.markup.isPair = false)
        ∧ Exposed (label.isPreserved above) path leaf := by
  constructor
  · rintro ⟨hopener, hcloser, hpreserve, hkept, hunfolded, hprinted⟩
    rw [List.forall_mem_cons] at hunfolded hprinted
    refine ⟨hprinted.1, hunfolded.1, hopener, hcloser, hpreserve, ?_, hunfolded.2, hprinted.2⟩
    rcases hkept with habove | ⟨node, hmem, hnode⟩
    · simp [Node.isPreserved, habove]
    · rcases List.mem_cons.1 hmem with rfl | hmem
      · simp [Node.isPreserved, hnode]
      · exact .inr ⟨node, hmem, hnode⟩
  · rintro ⟨hsilent, hfold, hopener, hcloser, hpreserve, hkept, hunfolded, hprinted⟩
    refine ⟨hopener, hcloser, hpreserve, ?_, ?_, ?_⟩
    · rcases hkept with hkept | ⟨node, hmem, hnode⟩
      · rw [Node.isPreserved, Bool.or_eq_true] at hkept
        rcases hkept with habove | hlabel
        · exact .inl habove
        · exact .inr ⟨label, by simp, hlabel⟩
      · exact .inr ⟨node, by simp [hmem], hnode⟩
    · rw [List.forall_mem_cons]
      exact ⟨hfold, hunfolded⟩
    · rw [List.forall_mem_cons]
      exact ⟨hsilent, hprinted⟩

namespace Tree

/-- Whether no leaf of a tree is exposed. -/
def IsSheltered (above : Bool) (tree : Tree) : Prop :=
  ∀ path leaf, tree.HasLeaf path leaf → ¬Exposed above path leaf

private theorem isSheltered_leaf_iff {above : Bool} {label : Node} :
    (Tree.node label []).IsSheltered above ↔ ¬Exposed above [] label := by
  constructor
  · intro h
    exact h [] label .here
  · intro h path leaf hleaf
    cases hleaf with
    | here => exact h
    | nested hmem => simp at hmem

private theorem isSheltered_branch_iff {above : Bool} {label : Node} {children : List Tree}
    (hne : children ≠ []) :
    (Tree.node label children).IsSheltered above ↔
      label.markup.silent = true
        ∨ (label.markup.preserve = true ∧ label.markup.isPair = true)
        ∨ ∀ child ∈ children, child.IsSheltered (label.isPreserved above) := by
  constructor
  · intro h
    cases hsilent : label.markup.silent with
    | true => exact .inl rfl
    | false =>
      by_cases hfold : label.markup.preserve = true ∧ label.markup.isPair = true
      · exact .inr (.inl hfold)
      · refine .inr (.inr ?_)
        intro child hmem path leaf hleaf hexposed
        have hunfolded : label.markup.preserve = true → label.markup.isPair = false := by
          intro hpreserve
          simpa [hpreserve] using hfold
        exact h (label :: path) leaf (.nested hmem hleaf)
          (exposed_cons_iff.2 ⟨hsilent, hunfolded, hexposed⟩)
  · intro h path leaf hleaf hexposed
    cases hleaf with
    | here => exact hne rfl
    | nested hmem hleaf =>
      rcases exposed_cons_iff.1 hexposed with ⟨hsilent, hunfolded, hexposed⟩
      rcases h with hsilent' | ⟨hpreserve, hpair⟩ | hchildren
      · rw [hsilent] at hsilent'
        contradiction
      · rw [hunfolded hpreserve] at hpair
        contradiction
      · exact hchildren _ hmem _ _ hleaf hexposed

end Tree

/-- Whether a fragment pushes text. -/
def Fragment.IsPush (fragment : Fragment) : Prop :=
  ∃ margin text, fragment = .statement ⟨margin, .pushText text⟩

/-- Whether some code only pushes text. -/
def ArePushes (fragments : List Fragment) : Prop :=
  ∀ fragment ∈ fragments, fragment.IsPush

private theorem arePushes_nil : ArePushes [] := by
  simp [ArePushes]

private theorem arePushes_emit (margin : Margin) (text : Bytes) :
    ArePushes (margin.emit (.pushText text)) := by
  rw [Margin.emit, ArePushes, List.forall_mem_singleton]
  exact ⟨margin, text, rfl⟩

private theorem arePushes_wrapped_iff {before after : List Fragment} (hbefore : ArePushes before)
    (hafter : ArePushes after) (children : List Tree) (fragments : Tree → List Fragment) :
    ArePushes (before ++ children.flatMap fragments ++ after) ↔
      ∀ child ∈ children, ArePushes (fragments child) := by
  constructor
  · intro h child hmem fragment hfragment
    apply h
    have hcontent : fragment ∈ children.flatMap fragments :=
      List.mem_flatMap.2 ⟨child, hmem, hfragment⟩
    simp [hcontent]
  · intro h fragment hfragment
    rw [List.mem_append, List.mem_append] at hfragment
    rcases hfragment with (hfragment | hfragment) | hfragment
    · exact hbefore fragment hfragment
    · rcases List.mem_flatMap.1 hfragment with ⟨child, hmem, hfragment⟩
      exact h child hmem fragment hfragment
    · exact hafter fragment hfragment

/-! ## Rendering -/

namespace Tree

/-- A leaf is left for another literal exactly when it is exposed. -/
theorem arePushes_leaf_iff {label : Node} (h : label.IsStatic) (above : Bool) :
    ArePushes ((Tree.node label []).fragments above) ↔ ¬Exposed above [] label := by
  rw [fragments_eq (render_leaf h above)]
  split
  · next hpair =>
    have hcloser := Markup.closer_ne_nil hpair
    exact iff_of_true (arePushes_emit _ _) fun hexposed => hcloser hexposed.closer
  · next hpair =>
    split
    · next hopener =>
      have hnone : label.markup.opener = [] := by simpa using hopener
      exact iff_of_true arePushes_nil fun hexposed => hexposed.opener hnone
    · next hopener =>
      have hne : label.markup.opener ≠ [] := by simpa using hopener
      have hcloser : label.markup.closer = [] := by simpa [Markup.isPair, hne] using hpair
      split
      · next hkept =>
        rw [Bool.and_eq_true, Bool.not_eq_true'] at hkept
        refine iff_of_false ?_ (not_not_intro ?_)
        · simp [ArePushes, Fragment.IsPush]
        · exact ⟨hne, hcloser, hkept.2, .inl hkept.1, by simp, by simp⟩
      · next hkept =>
        refine iff_of_true (arePushes_emit _ _) ?_
        intro hexposed
        apply hkept
        have habove : above = true := by simpa using hexposed.kept
        simp [habove, hexposed.preserve]

/-- Content is folded, dropped or passed on. -/
theorem arePushes_branch_iff {label : Node} {children : List Tree} {above : Bool}
    (h : label.IsStatic) (hne : children ≠ [])
    (hrender : ∀ child ∈ children, (child.render (label.isPreserved above)).result
      = .ok (child.fragments (label.isPreserved above))) :
    ArePushes ((Tree.node label children).fragments above) ↔
      label.markup.silent = true
        ∨ (label.markup.preserve = true ∧ label.markup.isPair = true)
        ∨ ∀ child ∈ children, ArePushes (child.fragments (label.isPreserved above)) := by
  rw [fragments_eq (render_branch h hne hrender)]
  split
  · next hpair =>
    have hsilent : label.markup.silent ≠ true := by
      intro hsilent
      rw [h.not_isPair_of_silent hsilent] at hpair
      contradiction
    split
    · next hpreserve => exact iff_of_true (arePushes_emit _ _) (.inr (.inl ⟨hpreserve, hpair⟩))
    · next hpreserve =>
      rw [arePushes_wrapped_iff (arePushes_emit _ _) (arePushes_emit _ _)]
      simp [hsilent, hpreserve]
  · next hpair =>
    split
    · next hsilent => exact iff_of_true arePushes_nil (.inl hsilent)
    · next hsilent =>
      have hcontent := arePushes_wrapped_iff arePushes_nil arePushes_nil children fun child =>
        child.fragments (label.isPreserved above)
      rw [List.nil_append, List.append_nil] at hcontent
      rw [hcontent]
      simp [hsilent, hpair]

/-- A static tree is rendered to pushes of text exactly when no leaf is exposed. -/
theorem arePushes_fragments_iff {tree : Tree} (h : tree.Every fun node _ => node.IsStatic)
    (above : Bool) : ArePushes (tree.fragments above) ↔ tree.IsSheltered above := by
  induction h generalizing above with
  | @node label children hlabel hchildren ih =>
    by_cases hne : children = []
    · subst hne
      rw [arePushes_leaf_iff hlabel, isSheltered_leaf_iff]
    · have hrender : ∀ child ∈ children, (child.render (label.isPreserved above)).result
          = .ok (child.fragments (label.isPreserved above)) := by
        intro child hmem
        exact render_of_evaluated ((hchildren child hmem).imp fun _ _ hnode => hnode.evaluated) _
      rw [arePushes_branch_iff hlabel hne hrender, isSheltered_branch_iff hne]
      have hcontent : (∀ child ∈ children, ArePushes (child.fragments (label.isPreserved above)))
          ↔ ∀ child ∈ children, child.IsSheltered (label.isPreserved above) :=
        forall₂_congr fun child hmem => ih child hmem _
      rw [hcontent]

end Tree

/-- Pushes of text are printed as literals of escaped text, line by line. -/
theorem exists_lines_of_arePushes {fragments : List Fragment} (h : ArePushes fragments) :
    ∃ lines : List (Nat × Bytes), printFragments fragments = lines.flatMap fun line =>
      spaces line.1 ++ pushLiteral (Literal.escape line.2) ++ [Byte.lineFeed] := by
  induction fragments with
  | nil => exact ⟨[], rfl⟩
  | cons fragment rest ih =>
    rw [ArePushes, List.forall_mem_cons] at h
    rcases h with ⟨⟨margin, text, rfl⟩, hrest⟩
    rcases ih hrest with ⟨lines, hlines⟩
    refine ⟨(margin.code, spaces margin.markup ++ text) :: lines, ?_⟩
    rw [printFragments_cons, hlines, List.flatMap_cons]
    rfl

/-- Text of a static template never becomes code, exactly when no leaf is exposed. -/
theorem render_arePushes_iff_isSheltered {tree : Tree}
    (h : tree.Every fun node _ => node.IsStatic) :
    ∃ fragments, (tree.render false).result = .ok fragments
      ∧ (ArePushes fragments ↔ tree.IsSheltered false)
      ∧ (tree.IsSheltered false →
        ∃ lines : List (Nat × Bytes), printFragments fragments = lines.flatMap fun line =>
          spaces line.1 ++ pushLiteral (Literal.escape line.2) ++ [Byte.lineFeed]) := by
  have hpushes := Tree.arePushes_fragments_iff h false
  have hrender := Tree.render_of_evaluated (h.imp fun _ _ hnode => hnode.evaluated) false
  exact ⟨tree.fragments false, hrender, hpushes,
    fun hsheltered => exists_lines_of_arePushes (hpushes.2 hsheltered)⟩

/-- Text below an element that keeps blanks but has no closing tag is exposed. -/
theorem render_arePushes_iff_isSheltered_of_self_closing_pre :
    ∃ fragments, ((Session.template {} [.item .element (ascii "%pre/") {}
        [.item .text (ascii "x") {} []]]).render false).result = .ok fragments
      ∧ ¬ArePushes fragments := by
  have hstatic : (Session.template {} [.item .element (ascii "%pre/") {}
      [.item .text (ascii "x") {} []]]).Every fun node _ => node.IsStatic := by
    simp only [Session.template, Session.growAll, Session.grow]
    refine .node ⟨rfl, rfl⟩ ?_
    rw [List.forall_mem_singleton]
    refine .node ⟨rfl, rfl⟩ ?_
    rw [List.forall_mem_singleton]
    exact .node ⟨rfl, rfl⟩ (by simp)
  rcases render_arePushes_iff_isSheltered hstatic with ⟨fragments, hrender, hpushes, -⟩
  refine ⟨fragments, hrender, fun h => ?_⟩
  refine hpushes.1 h _ _ (.nested (.head _) (.nested (.head _) .here)) ?_
  refine ⟨by decide, rfl, rfl, .inr ⟨_, .tail _ (.head _), ?_⟩, ?_, ?_⟩
  · decide +kernel
  · rw [List.forall_mem_cons, List.forall_mem_singleton]
    exact ⟨fun _ => rfl, fun _ => by decide +kernel⟩
  · rw [List.forall_mem_cons, List.forall_mem_singleton]
    exact ⟨rfl, rfl⟩

end TemplateCompiler
