import TemplateCompiler.Proofs.Code.Insertion
import TemplateCompiler.Proofs.Template.Comments
import TemplateCompiler.Proofs.Template.Folding

/-!
# Taking a comment out of a template

A comment for the template only prints nothing, so beside other content it can be taken out
of a template and the code stays as it is.  There is one exception: a pair that keeps blanks
joins the code of its content with line feeds, and to it a comment is an empty line.  Taking
the comment out of it takes out one line feed, in the written form that it has in the literals
round it.

Main results:

- Theorem {lit}`Tree.Removal.inserted`: a comment in a printed pair that keeps blanks is one
  line feed.
- Theorem {lit}`Tree.Removal.render_eq`: a comment whose parent is not such a pair is taken out
  without a trace.
- Theorem {lit}`compile_without_comment`: what the two templates are compiled to.
-/

namespace TemplateCompiler

/-- An evaluated node that reads its markup itself. -/
structure Node.IsBuiltIn (node : Node) : Prop where
  evaluated : node.evaluated = true
  kind : ∀ markup, node.directive.kind ≠ .custom markup

namespace Node.IsBuiltIn

variable {node : Node}

/-- Only tags keep blanks. -/
theorem angled_of_folds (h : node.IsBuiltIn) (hfolds : node.folds = true) :
    Angled node.markup.opener ∧ Angled node.markup.closer := by
  simp only [Node.folds, Bool.and_eq_true] at hfolds
  rcases hfolds with ⟨hpreserve, hpair⟩
  have hcloser := Markup.closer_ne_nil hpair
  rw [Node.markup, Node.reading, h.evaluated, if_pos rfl, Directive.reading] at hpreserve hcloser ⊢
  cases hkind : node.directive.kind with
  | element =>
    rw [hkind] at hcloser
    have hangled := (TagForm.read node.directive.expression).angled_markup node.directive.options
    exact ⟨hangled.1, hangled.2 hcloser⟩
  | plain | text | script | doctype => simp [hkind] at hpreserve
  | comment =>
    simp only [hkind] at hpreserve
    cases hcomment : Comment.read node.directive.expression <;>
      simp [hcomment, Comment.markup] at hpreserve
  | custom markup => exact absurd hkind (h.kind markup)

private theorem closes_opening (h : node.IsBuiltIn) (hfolds : node.folds = true) :
    Literal.Closes node.markup.opening := by
  unfold Markup.opening
  cases node.markup.inside with
  | true => exact Literal.Closes.append ⟨rightMark, rfl, by decide⟩ _
  | false =>
    have hnone : Markup.markIf false rightMark = [] := rfl
    rw [hnone, List.append_nil]
    exact Literal.Closes.append ⟨Byte.greater, (h.angled_of_folds hfolds).1.2, by decide⟩ _

private theorem opens_closing (h : node.IsBuiltIn) (hfolds : node.folds = true) :
    Literal.Opens node.markup.closing := by
  unfold Markup.closing
  cases node.markup.inside with
  | true => exact ⟨leftMark, rfl, by decide⟩
  | false =>
    have hnone : Markup.markIf false leftMark = [] := rfl
    rw [hnone, List.nil_append]
    exact Literal.Opens.append ⟨Byte.less, (h.angled_of_folds hfolds).2.1, by decide⟩ _

end Node.IsBuiltIn

/-! ## Trees with and without a comment -/

namespace Tree

/-- A tree without one comment for the template only that has siblings in the tree.  Above
the parent of the comment stand some nodes, the top one first. -/
inductive Removal : Tree → List Node → Node → Tree → Prop
  | here {parent comment : Node} {before below after : List Tree} (hcomment : comment.IsHidden)
      (hsiblings : before ++ after ≠ []) :
      Removal (.node parent (before ++ .node comment below :: after)) [] parent
        (.node parent (before ++ after))
  | nested {label parent : Node} {above : List Node} {before after : List Tree}
      {child left : Tree} (h : Removal child above parent left) :
      Removal (.node label (before ++ child :: after)) (label :: above) parent
        (.node label (before ++ left :: after))

/-- Whether a node is a pair that keeps blanks, below nodes that print their content. -/
def ShowsLines (above : List Node) (parent : Node) : Prop :=
  parent.folds = true ∧ ∀ node ∈ above, (node.frame true).visited = true

private theorem fragments_hidden {label : Node} (h : label.IsHidden) (above : Bool)
    (children : List Tree) : (Tree.node label children).fragments above = [] := by
  rw [fragments, render_hidden h]
  rfl

/-- What a pair that keeps blanks prints. -/
theorem printFragments_of_folds {label : Node} {children : List Tree} {above : Bool}
    (h : (Tree.node label children).Every fun node _ => node.evaluated = true)
    (hne : children ≠ []) (hfolds : label.folds = true) :
    printFragments ((Tree.node label children).fragments above)
      = (Statement.mk (label.margin above) (.pushText (label.markup.opening
          ++ [Byte.lineFeed].intercalate
            (children.map fun child => printFragments (child.fragments true))
          ++ label.markup.closing))).print := by
  rw [fragments_of_folds h hne hfolds, printFragments_cons, printFragments_nil, List.append_nil]
  rfl

private theorem every_middle {p : Node → Prop} {label : Node} {before after : List Tree}
    {child : Tree}
    (h : (Tree.node label (before ++ child :: after)).Every fun node _ => p node) :
    p label ∧ child.Every (fun node _ => p node)
      ∧ ∀ middle : List Tree, (∀ tree ∈ middle, tree.Every fun node _ => p node) →
        (Tree.node label (before ++ middle ++ after)).Every fun node _ => p node := by
  cases h with
  | node hlabel hchildren =>
    rw [List.forall_mem_append, List.forall_mem_cons] at hchildren
    rcases hchildren with ⟨hbefore, hchild, hafter⟩
    refine ⟨hlabel, hchild, fun middle hmiddle => .node hlabel ?_⟩
    rw [List.forall_mem_append, List.forall_mem_append]
    exact ⟨⟨hbefore, hmiddle⟩, hafter⟩

namespace Removal

variable {tree left : Tree} {above : List Node} {parent : Node}

/-- What is true of all nodes of a tree is true without the comment. -/
theorem every {p : Node → Prop} (h : tree.Removal above parent left)
    (htree : tree.Every fun node _ => p node) : left.Every fun node _ => p node := by
  induction h with
  | here hcomment hsiblings =>
    have hleft := (every_middle htree).2.2 [] (by simp)
    rwa [List.append_nil] at hleft
  | nested h ih =>
    rcases every_middle htree with ⟨-, hchild, hrest⟩
    have hleft := hrest [_] (by simpa using ih hchild)
    rwa [List.append_assoc] at hleft

end Removal

/-! ### One line feed more -/

section Inserted

variable {label : Node} {before after : List Tree} {kept : Bool}

/-- What is inserted in the content of a pair that keeps blanks is inserted in its push, in
written form. -/
theorem inserted_of_folds {child left : Tree} {extra : Bytes}
    (htree : (Tree.node label (before ++ child :: after)).Every fun node _ => node.evaluated = true)
    (hleft : (Tree.node label (before ++ left :: after)).Every fun node _ => node.evaluated = true)
    (hfolds : label.folds = true) (hopens : Literal.Opens extra) (hcloses : Literal.Closes extra)
    (h : Literal.Inserted extra (printFragments (child.fragments true))
      (printFragments (left.fragments true))) :
    Literal.Inserted (Literal.escape extra)
      (printFragments ((Tree.node label (before ++ child :: after)).fragments kept))
      (printFragments ((Tree.node label (before ++ left :: after)).fragments kept)) := by
  rcases exists_intercalate_cons [Byte.lineFeed]
    (before.map fun child => printFragments (child.fragments true))
    (after.map fun child => printFragments (child.fragments true)) with ⟨front, back, hjoined⟩
  have hinserted := h.surround (label.markup.opening ++ front) (back ++ label.markup.closing)
  rw [printFragments_of_folds htree (by simp) hfolds,
    printFragments_of_folds hleft (by simp) hfolds]
  simp only [List.map_append, List.map_cons, hjoined]
  simp only [List.append_assoc] at hinserted ⊢
  exact Statement.inserted_print hinserted hopens hcloses _

/-- What is inserted in other content that is printed is inserted in the whole. -/
theorem inserted_of_visited {child left : Tree} {extra : Bytes}
    (htree : (Tree.node label (before ++ child :: after)).Every fun node _ => node.evaluated = true)
    (hleft : (Tree.node label (before ++ left :: after)).Every fun node _ => node.evaluated = true)
    (hfolds : label.folds = false) (hvisited : (label.frame true).visited = true)
    (h : Literal.Inserted extra (printFragments (child.fragments (label.isPreserved kept)))
      (printFragments (left.fragments (label.isPreserved kept)))) :
    Literal.Inserted extra
      (printFragments ((Tree.node label (before ++ child :: after)).fragments kept))
      (printFragments ((Tree.node label (before ++ left :: after)).fragments kept)) := by
  have hempty (middle : Tree) : (!(before ++ middle :: after).isEmpty) = true := by simp
  have hcontent : label.isLeft true = false := by simp [Node.isLeft]
  rw [fragments_node htree (fun _ => hfolds) (by rw [hempty]; exact fun _ => hcontent),
    fragments_node hleft (fun _ => hfolds) (by rw [hempty]; exact fun _ => hcontent),
    hempty, hempty, if_pos hvisited, if_pos hvisited]
  have hinserted := h.surround
    (printFragments ((label.frame true).before.map (label.fragment kept))
      ++ printFragments (before.flatMap (fragments (label.isPreserved kept))))
    (printFragments (after.flatMap (fragments (label.isPreserved kept)))
      ++ printFragments ((label.frame true).after.map (label.fragment kept)))
  simpa only [List.flatMap_append, List.flatMap_cons, printFragments_append,
    List.append_assoc] using hinserted

/-- A hidden comment among the content of a pair that keeps blanks is one line feed. -/
theorem inserted_of_hidden {comment : Node} {below : List Tree}
    (htree : (Tree.node label (before ++ .node comment below :: after)).Every
      fun node _ => node.evaluated = true)
    (hleft : (Tree.node label (before ++ after)).Every fun node _ => node.evaluated = true)
    (hbuiltIn : label.IsBuiltIn) (hfolds : label.folds = true) (hcomment : comment.IsHidden)
    (hsiblings : before ++ after ≠ []) :
    Literal.Inserted (lineFeedIn 1)
      (printFragments ((Tree.node label (before ++ .node comment below :: after)).fragments kept))
      (printFragments ((Tree.node label (before ++ after)).fragments kept)) := by
  have hinserted := inserted_intercalate (hbuiltIn.closes_opening hfolds)
    (hbuiltIn.opens_closing hfolds)
    (before.map fun child => printFragments (child.fragments true))
    (after.map fun child => printFragments (child.fragments true)) (by simpa using hsiblings)
  rw [printFragments_of_folds htree (by simp) hfolds,
    printFragments_of_folds hleft hsiblings hfolds]
  simp only [List.map_append, List.map_cons, fragments_hidden hcomment, printFragments_nil]
  exact Statement.inserted_print hinserted (opens_lineFeedIn 0) (closes_lineFeedIn 0) _

end Inserted

namespace Removal

variable {tree left : Tree} {above : List Node} {parent : Node}

/-- A comment in a printed pair that keeps blanks is one line feed, as it is written in the
literals of all such pairs round it. -/
theorem inserted (h : tree.Removal above parent left)
    (htree : tree.Every fun node _ => node.IsBuiltIn) (hshows : ShowsLines above parent)
    (kept : Bool) :
    Literal.Inserted (lineFeedIn ((above.filter Node.folds).length + 1))
      (printFragments (tree.fragments kept)) (printFragments (left.fragments kept)) := by
  have hevaluated {tree : Tree} (htree : tree.Every fun node _ => node.IsBuiltIn) :
      tree.Every fun node _ => node.evaluated = true := htree.imp fun _ _ hnode => hnode.evaluated
  induction h generalizing kept with
  | @here parent comment before below after hcomment hsiblings =>
    have hleft := (here hcomment hsiblings : Removal (.node parent _) [] parent _).every htree
    exact inserted_of_hidden (hevaluated htree) (hevaluated hleft) (every_middle htree).1 hshows.1
      hcomment hsiblings
  | @nested label parent above before after child left h ih =>
    have hleft := (nested h : Removal (.node label _) _ parent _).every htree
    rcases every_middle htree with ⟨-, hchild, -⟩
    rcases List.forall_mem_cons.1 hshows.2 with ⟨hvisited, habove⟩
    have hinserted := ih hchild ⟨hshows.1, habove⟩
    -- A pair that keeps blanks writes what is inserted in escapes once more.
    by_cases hfolds : label.folds = true
    · rw [List.filter_cons_of_pos hfolds, List.length_cons, lineFeedIn]
      exact inserted_of_folds (hevaluated htree) (hevaluated hleft) hfolds (opens_lineFeedIn _)
        (closes_lineFeedIn _) (hinserted true)
    · rw [List.filter_cons_of_neg hfolds]
      exact inserted_of_visited (hevaluated htree) (hevaluated hleft)
        (Bool.eq_false_iff.2 hfolds) hvisited (hinserted _)

end Removal

/-! ### Nothing more -/

private theorem flatten_renderAll_cons (above : Bool) (tree : Tree) (rest : List Tree) :
    List.flatten <$> renderAll above (tree :: rest)
      = tree.render above >>= fun first =>
          (first ++ ·) <$> List.flatten <$> renderAll above rest := by
  simp [renderAll]

/-- A hidden comment adds nothing to the code of trees, tree by tree. -/
theorem flatten_renderAll_hidden {comment : Node} (h : comment.IsHidden) (above : Bool)
    (before below after : List Tree) :
    List.flatten <$> renderAll above (before ++ .node comment below :: after)
      = List.flatten <$> renderAll above (before ++ after) := by
  induction before with
  | nil =>
    rw [List.nil_append, List.nil_append, flatten_renderAll_cons, render_hidden h, pure_bind]
    exact id_map _
  | cons tree rest ih =>
    rw [List.cons_append, List.cons_append, flatten_renderAll_cons, flatten_renderAll_cons, ih]

private theorem renderAll_middle {above : Bool} {child left : Tree}
    (h : child.render above = left.render above) (before after : List Tree) :
    renderAll above (before ++ child :: after) = renderAll above (before ++ left :: after) := by
  induction before with
  | nil => rw [List.nil_append, List.nil_append, renderAll, renderAll, h]
  | cons tree rest ih => rw [List.cons_append, List.cons_append, renderAll, renderAll, ih]

section Layouts

variable {label : Node} {kept : Bool} (heval : label.evaluated = true)

include heval

/-- What a node with content is rendered to where it is printed round the content. -/
theorem render_of_wrapped {children : List Tree} (hne : children ≠ [])
    {warnings : List Warning} {before after : List Fragment}
    (hlayout : label.layout kept true = .wrapped warnings before after) :
    (Tree.node label children).render kept
      = Logged.warnAll warnings >>= fun _ => (before ++ · ++ after) <$> List.flatten
        <$> renderAll (label.isPreserved kept) children := by
  have hempty : (!children.isEmpty) = true := by simpa using hne
  rw [render, if_pos heval, hempty, hlayout]
  simp

private theorem render_of_closed {children : List Tree} (hne : children ≠ [])
    {fragments : List Fragment} (hlayout : label.layout kept true = .closed fragments) :
    (Tree.node label children).render kept = pure fragments := by
  have hempty : (!children.isEmpty) = true := by simpa using hne
  exact render_closed heval (by rw [hempty]; exact hlayout)

/-- A node that does not fold its content is rendered knowing only the joined code of it, and
not even that if the content is not printed. -/
theorem render_eq_of_flatten (hfolds : label.folds = false) {trees others : List Tree}
    (htrees : trees ≠ []) (hothers : others ≠ [])
    (h : (label.frame true).visited = true → ∀ above,
      List.flatten <$> renderAll above trees = List.flatten <$> renderAll above others) :
    (Tree.node label trees).render kept = (Tree.node label others).render kept := by
  have hleft : kept = true → label.isLeft true = false := by
    intro _
    simp [Node.isLeft]
  rcases Node.layout_cases (fun _ => hfolds) hleft with
    ⟨warnings, hlayout, hvisited⟩ | ⟨hlayout, -, -⟩
  · rw [render_of_wrapped heval htrees hlayout, render_of_wrapped heval hothers hlayout,
      h hvisited]
  · rw [render_of_closed heval htrees hlayout, render_of_closed heval hothers hlayout]

end Layouts

namespace Removal

variable {tree left : Tree} {above : List Node} {parent : Node}

/-- A comment whose parent is not a printed pair that keeps blanks is taken out without a
trace. -/
theorem render_eq (h : tree.Removal above parent left)
    (htree : tree.Every fun node _ => node.evaluated = true)
    (hshows : ¬ShowsLines above parent) (kept : Bool) :
    tree.render kept = left.render kept := by
  induction h generalizing kept with
  | @here parent comment before below after hcomment hsiblings =>
    have hfolds : parent.folds = false := by
      rw [Bool.eq_false_iff]
      intro hfolds
      exact hshows ⟨hfolds, by simp⟩
    exact render_eq_of_flatten (every_middle htree).1 hfolds (by simp) hsiblings fun _ above =>
      flatten_renderAll_hidden hcomment above before below after
  | @nested label parent above before after child left h ih =>
    rcases every_middle htree with ⟨heval, hchild, -⟩
    have hbelow (hvisited : (label.frame true).visited = true) : ¬ShowsLines above parent := by
      intro hchildShows
      exact hshows ⟨hchildShows.1, List.forall_mem_cons.2 ⟨hvisited, hchildShows.2⟩⟩
    -- A pair that keeps blanks needs the code of its children one by one, so the induction
    -- hypothesis is an equation of renderings and not of joined code.
    by_cases hfolds : label.folds = true
    · have hvisited : (label.frame true).visited = true := by
        rw [Node.frame_of_folds heval hfolds]
      have hempty : (before ++ child :: after).isEmpty = (before ++ left :: after).isEmpty := by
        cases before <;> rfl
      exact render_congr hempty fun above =>
        renderAll_middle (ih hchild (hbelow hvisited) above) before after
    · refine render_eq_of_flatten heval (Bool.eq_false_iff.2 hfolds) (by simp) (by simp) ?_
      intro hvisited above
      rw [renderAll_middle (ih hchild (hbelow hvisited) above)]

end Removal

end Tree

/-- A comment for the template only is taken out of a template without a trace, if it has
siblings, unless its parent is a pair that keeps blanks, below nodes that print their content.
In such a pair the comment is one line feed, written as the literals round it require.  So the
two templates never have the same code, and they are not compiled to the same unless a trim
mark takes the line feed out again, which it can do only in a literal of its own. -/
theorem compile_without_comment (session : Session) {tree left : Tree} {above : List Node}
    {parent : Node} (h : tree.Removal above parent left)
    (htree : tree.Every fun node _ => node.IsBuiltIn) (kept : Bool) :
    (¬Tree.ShowsLines above parent →
      ∃ log chunks, session.compile kept tree = ⟨log, .ok chunks⟩
        ∧ session.compile kept left = ⟨log, .ok chunks⟩)
      ∧ (Tree.ShowsLines above parent → ∃ before after,
        (tree.code kept).result
            = .ok (before ++ lineFeedIn ((above.filter Node.folds).length + 1) ++ after)
          ∧ (left.code kept).result = .ok (before ++ after)
          ∧ (tree.code kept).result ≠ (left.code kept).result
          ∧ ((∃ node ∈ above, node.folds = true) ∨ Unmarked (before ++ after) →
            (session.compile kept tree).result.map List.flatten
              ≠ (session.compile kept left).result.map List.flatten)) := by
  have hevaluated {tree : Tree} (htree : tree.Every fun node _ => node.IsBuiltIn) :
      tree.Every fun node _ => node.evaluated = true := htree.imp fun _ _ hnode => hnode.evaluated
  have hrendered := Tree.render_of_evaluated (hevaluated htree) kept
  have hwithout := Tree.render_of_evaluated (hevaluated (h.every htree)) kept
  constructor
  · intro hshows
    have hcompile : session.compile kept left = session.compile kept tree := by
      rw [Session.compile, Session.compile, Tree.code, Tree.code,
        h.render_eq (hevaluated htree) hshows]
    have hresult : (session.compile kept tree).result
        = .ok (trimmedChunks (printFragments (tree.fragments kept))) :=
      Session.compile_result hrendered
    rw [hcompile]
    exact ⟨_, _, Logged.eq_of_result hresult, Logged.eq_of_result hresult⟩
  · intro hshows
    have hinserted := h.inserted htree hshows kept
    have hcode := Tree.code_result hrendered
    have hcodeLeft := Tree.code_result hwithout
    have hcompile := @Session.compile_result session _ _ _ hrendered
    have hcompileLeft := @Session.compile_result session _ _ _ hwithout
    have hne := hinserted.ne (lineFeedIn_ne_nil _)
    have hkept := trimmed_ne_of_inserted hinserted
    rcases hinserted with ⟨before, after, -, hlonger, hshorter⟩
    rw [hlonger] at hcode hcompile hne hkept
    rw [hshorter] at hcodeLeft hcompileLeft hne hkept
    rw [hcode, hcodeLeft, hcompile, hcompileLeft]
    refine ⟨before, after, rfl, rfl, fun heq => hne (Except.ok.inj heq), fun hcase heq => ?_⟩
    refine hkept (hcase.imp_left ?_) (Except.ok.inj heq)
    rintro ⟨node, hmem, hfolds⟩
    exact List.length_pos_of_mem (List.mem_filter.2 ⟨hmem, hfolds⟩)

/-- A comment between two texts in an element that keeps blanks. -/
theorem compile_without_comment_of_pre :
    (Session.compile {} false (Session.template {} [.item .element (ascii "%pre") {}
        [.item .text (ascii "a") {} [], .item .comment (ascii "-# x") {} [],
          .item .text (ascii "b") {} []]])).result.map List.flatten
      ≠ (Session.compile {} false (Session.template {} [.item .element (ascii "%pre") {}
        [.item .text (ascii "a") {} [], .item .text (ascii "b") {} []]])).result.map
          List.flatten := by
  have hbuiltIn : (Session.template {} [.item .element (ascii "%pre") {}
      [.item .text (ascii "a") {} [], .item .comment (ascii "-# x") {} [],
        .item .text (ascii "b") {} []]]).Every fun node _ => node.IsBuiltIn := by
    simp only [Session.template, Session.growAll, Session.grow]
    refine .node ⟨rfl, by rintro markup ⟨⟩⟩ ?_
    rw [List.forall_mem_singleton]
    refine .node ⟨rfl, by rintro markup ⟨⟩⟩ ?_
    simp only [List.forall_mem_cons, List.not_mem_nil, false_implies, implies_true, and_true]
    exact ⟨.node ⟨rfl, by rintro markup ⟨⟩⟩ (by simp),
      .node ⟨rfl, by rintro markup ⟨⟩⟩ (by simp), .node ⟨rfl, by rintro markup ⟨⟩⟩ (by simp)⟩
  have hremoval := @Tree.Removal.nested (Session.root {}) _ _ [] [] _ _
    (@Tree.Removal.here (.build (Session.directive {} .element (ascii "%pre") {}))
      (.build (Session.directive {} .comment (ascii "-# x") {}))
      [Session.grow {} (.item .text (ascii "a") {} [])] []
      [Session.grow {} (.item .text (ascii "b") {} [])] ⟨rfl, rfl, by decide⟩ (by simp))
  have hmore := (compile_without_comment {} hremoval hbuiltIn false).2
  rcases hmore ⟨by decide +kernel, by simp; rfl⟩ with ⟨before, after, -, hleft, -, hcompile⟩
  have hcode : ((Session.template {} [.item .element (ascii "%pre") {}
      [.item .text (ascii "a") {} [], .item .text (ascii "b") {} []]]).code false).result
        = .ok (ascii "$o.push \"<pre>a\\nb</pre>\"\n") := by
    decide +kernel
  refine hcompile (.inr ?_)
  rw [← Except.ok.inj (hcode.symm.trans hleft)]
  decide

-- A mark inside the element takes the line feed of the comment out again.
example : (Session.compile {} false (Session.template {} [.item .element (ascii "%pre<") {}
      [.item .comment (ascii "-# x") {} [], .item .text (ascii "b") {} []]])).result
    = (Session.compile {} false (Session.template {} [.item .element (ascii "%pre<") {}
      [.item .text (ascii "b") {} []]])).result := by
  decide +kernel

end TemplateCompiler
