import TemplateCompiler.Proofs.Template.Quiet
import TemplateCompiler.Proofs.Template.Statements

/-!
# Folded content

A pair that keeps blanks folds the code of its content into one literal, as text.  Openers
that stand alone are left for this literal, and so become a part of the document.  All
other content is printed as statements, pushes among them, and then stands in the document
as code.

Main results:

- Theorem {lit}`Tree.hasCall_iff`: where blanks are kept, a tree is rendered to a push
  exactly when one of its nodes prints one.
- Theorem {lit}`Tree.isClean_of_mem_fragments`: in the code of a quiet template each push
  starts a statement, unless a node swallows a push or text dangles.
- Theorem {lit}`render_callsStartStatements`: pushes do start statements only if no node
  swallows one, and if no text dangles either, they do.
-/

namespace TemplateCompiler

/-! ## Pushes in the code -/

/-- The start of every push. -/
def pushCall : Bytes := ascii "$o.push"

private theorem pushCall_eq : pushCall = Byte.dollar :: Byte.letterO :: ascii ".push" := rfl

/-- Whether an action is a push. -/
def Action.isCall : Action → Bool
  | .pushText _ | .pushValue _ _ | .openCall _ _ => true
  | .run _ | .closeCall _ => false

/-- Whether a push stands in the code only at the start of a statement, right behind its
indentation. -/
def CallsStartStatements (fragments : List Fragment) : Prop :=
  ∀ front back, printFragments fragments = front ++ pushCall ++ back →
    ∃ before statement after, fragments = before ++ .statement statement :: after
      ∧ front = printFragments before ++ spaces statement.margin.code

/-- Whether fragments have a push among them. -/
def HasCall (fragments : List Fragment) : Prop :=
  ∃ statement, .statement statement ∈ fragments ∧ statement.action.isCall = true

@[simp] theorem hasCall_append {first second : List Fragment} :
    HasCall (first ++ second) ↔ HasCall first ∨ HasCall second := by
  simp only [HasCall, List.mem_append, or_and_right, exists_or]

@[simp] theorem hasCall_map_fragment {node : Node} {above : Bool} {actions : List Action} :
    HasCall (actions.map (node.fragment above)) ↔ actions.any Action.isCall = true := by
  simp [HasCall, Node.fragment]

/-- Whether the only push in a fragment is the one that it starts with, if it does. -/
def Fragment.IsClean : Fragment → Prop
  | .statement s =>
    if s.action.isCall then ∃ rest, s.source = pushCall ++ rest ∧ Quiet rest else Quiet s.source
  | .markup text => Settled text

private theorem settled_spaces (width : Nat) : Settled (spaces width) := by
  have hdollar : Byte.dollar ∉ spaces width := by
    intro hmem
    exact absurd (List.eq_of_mem_replicate hmem) (by decide)
  exact settled_of_not_mem hdollar

private theorem quiet_valueSource {code : Bytes} (h : Quiet code) (escaped : Bool) :
    Quiet (valueSource code escaped) := by
  have hhelper : Settled (ascii "$e(") := by decide
  have hclose : Settled (ascii ")") := by decide
  unfold valueSource
  split
  · exact (hhelper.append_append h hclose (by decide) (by decide)).1
  · exact h

/-- The source of a push starts as such, and the rest of it is quiet if its text or host
code is. -/
theorem Action.exists_source_of_isCall {action : Action} (h : action.isCall = true) (width : Nat) :
    ∃ rest, action.source (spaces width) = pushCall ++ rest
      ∧ ((∀ text, action = .pushText text → Quiet text) → (∀ code ∈ action.code?, Quiet code) →
        Quiet rest) := by
  have hspaces := settled_spaces width
  have hliteral {body : Bytes} (hbody : Quiet body) :
      Quiet (ascii " \"" ++ body ++ [Byte.quote]) := by
    have hopening : Settled (ascii " \"") := by decide
    exact (hopening.append_append hbody (by decide) (by decide) (by decide)).1
  cases action with
  | pushText text =>
    refine ⟨ascii " \"" ++ Literal.escape (spaces width ++ text) ++ [Byte.quote], rfl, ?_⟩
    intro htext _
    exact hliteral (Literal.quiet_escape (hspaces.1.append (htext text rfl) (.inl hspaces.2)))
  | pushValue code escaped =>
    by_cases hempty : (spaces width).isEmpty = true
    · refine ⟨ascii " " ++ valueSource code escaped, ?_, ?_⟩
      · rw [source, if_pos hempty]
        rfl
      · intro _ hcode
        have hspace : Settled (ascii " ") := by decide
        exact hspace.1.append (quiet_valueSource (hcode code rfl) escaped) (.inl hspace.2)
    · refine ⟨ascii " \"" ++ (spaces width ++ ascii "#\x7b" ++ valueSource code escaped
        ++ ascii "\x7d") ++ [Byte.quote], ?_, ?_⟩
      · rw [source, if_neg hempty]
        rfl
      · intro _ hcode
        have hopen : Settled (ascii "#\x7b") := by decide
        exact hliteral ((hspaces.append hopen).append_append
          (quiet_valueSource (hcode code rfl) escaped) (by decide) (by decide) (by decide)).1
  | openCall code escaped =>
    refine ⟨ascii "(" ++ (if (spaces width).isEmpty then []
        else Byte.quote :: spaces width ++ ascii "\" + ")
      ++ (if escaped then ascii "$e(" else []) ++ code, rfl, ?_⟩
    intro _ hcode
    have hparen : Settled (ascii "(") := by decide
    have hindent : Settled (if (spaces width).isEmpty then []
        else Byte.quote :: spaces width ++ ascii "\" + ") := by
      split
      · exact settled_nil
      · have hquote : Settled [Byte.quote] := by decide
        have hplus : Settled (ascii "\" + ") := by decide
        exact (hquote.append hspaces).append hplus
    have hhelper : Settled (if escaped then ascii "$e(" else []) := by
      cases escaped <;> decide
    have hstart := (hparen.append hindent).append hhelper
    exact hstart.1.append (hcode code rfl) (.inl hstart.2)
  | run code => simp [isCall] at h
  | closeCall escaped => simp [isCall] at h

/-- A statement is clean if its text or its host code is quiet. -/
theorem Statement.isClean {statement : Statement}
    (htext : ∀ text, statement.action = .pushText text → Quiet text)
    (hcode : ∀ code ∈ statement.action.code?, Quiet code) :
    (Fragment.statement statement).IsClean := by
  rw [Fragment.IsClean]
  split
  · next hcall =>
    rcases statement.action.exists_source_of_isCall hcall statement.margin.markup with
      ⟨rest, hsource, hrest⟩
    exact ⟨rest, hsource, hrest htext hcode⟩
  · next hcall =>
    rw [source]
    cases haction : statement.action with
    | run code =>
      rw [haction] at hcode
      exact hcode code rfl
    | closeCall escaped =>
      have hplain : Quiet (ascii ")") := by decide
      have hescaped : Quiet (ascii "))") := by decide
      cases escaped with
      | true => exact hescaped
      | false => exact hplain
    | pushText | pushValue | openCall => simp [haction, Action.isCall] at hcall

/-! ## Clean fragments -/

private theorem Quiet.append_lineFeed {text : Bytes} (h : Quiet text) :
    Settled (text ++ [Byte.lineFeed]) :=
  h.append_settled (by decide) (by decide) (by decide)

/-- A clean fragment without a push is settled. -/
theorem Fragment.IsClean.settled_print {fragment : Fragment} (h : fragment.IsClean)
    (hcall : ¬HasCall [fragment]) : Settled fragment.print := by
  cases fragment with
  | markup text => exact h
  | statement statement =>
    have hrun : ¬statement.action.isCall = true := fun hrun => hcall ⟨statement, by simp, hrun⟩
    rw [IsClean, if_neg hrun] at h
    rw [print, Statement.print, List.append_assoc]
    exact (settled_spaces _).append (Quiet.append_lineFeed h)

/-- A push does not start in settled text. -/
theorem Settled.exists_of_append_eq {text rest front back : Bytes} (h : Settled text)
    (hsplit : text ++ rest = front ++ pushCall ++ back) :
    ∃ more, front = text ++ more ∧ rest = more ++ pushCall ++ back := by
  rw [List.append_assoc] at hsplit
  rcases List.append_eq_append_iff.1 hsplit with ⟨more, hfront, hrest⟩ | ⟨part, htext, hcall⟩
  · exact ⟨more, hfront, by rw [hrest, List.append_assoc]⟩
  · cases part with
    | nil => exact ⟨[], by simpa using htext.symm, by simpa using hcall.symm⟩
    | cons c part =>
      simp only [pushCall_eq, List.cons_append, List.cons.injEq] at hcall
      rcases hcall with ⟨rfl, hcall⟩
      cases part with
      | nil =>
        refine absurd ?_ h.2
        rw [htext, List.getLast?_append]
        rfl
      | cons d part =>
        simp only [List.cons_append, List.cons.injEq] at hcall
        rcases hcall with ⟨rfl, -⟩
        exact absurd ⟨front, part, by rw [htext, List.append_assoc]; rfl⟩ h.1

/-- A push that starts in a clean statement is the statement. -/
theorem Fragment.IsClean.exists_of_append_eq {fragment : Fragment} (h : fragment.IsClean)
    {rest front back : Bytes} (hsplit : fragment.print ++ rest = front ++ pushCall ++ back) :
    (∃ more, front = fragment.print ++ more ∧ rest = more ++ pushCall ++ back)
      ∨ ∃ statement, fragment = .statement statement ∧ front = spaces statement.margin.code := by
  by_cases hcall : HasCall [fragment]
  · obtain ⟨statement, hmem, hcall⟩ := hcall
    obtain rfl : .statement statement = fragment := by simpa using hmem
    rw [IsClean, if_pos hcall] at h
    rcases h with ⟨source, hsource, hquiet⟩
    have hprint : (Fragment.statement statement).print
        = spaces statement.margin.code ++ (pushCall ++ source ++ [Byte.lineFeed]) := by
      rw [print, Statement.print, hsource, List.append_assoc]
    rw [hprint, List.append_assoc] at hsplit
    rcases (settled_spaces _).exists_of_append_eq hsplit with ⟨more, rfl, hmore⟩
    cases more with
    | nil => exact .inr ⟨statement, rfl, by simp⟩
    | cons c more =>
      left
      obtain ⟨rfl, hbehind⟩ : Byte.dollar = c ∧ Byte.letterO :: ascii ".push"
          ++ (source ++ [Byte.lineFeed]) ++ rest = more ++ pushCall ++ back := by
        simpa [pushCall_eq] using hmore
      have hname : Settled (Byte.letterO :: ascii ".push") := by decide
      have hsettled := hname.append hquiet.append_lineFeed
      rcases hsettled.exists_of_append_eq hbehind with ⟨more, rfl, hrest⟩
      refine ⟨more, ?_, hrest⟩
      rw [hprint, pushCall_eq]
      simp
  · exact .inl ((h.settled_print hcall).exists_of_append_eq hsplit)

/-- Clean fragments have pushes at the start of statements only. -/
theorem callsStartStatements_of_isClean {fragments : List Fragment}
    (h : ∀ fragment ∈ fragments, fragment.IsClean) : CallsStartStatements fragments := by
  induction fragments with
  | nil =>
    intro front back hsplit
    simp [pushCall_eq] at hsplit
  | cons fragment rest ih =>
    rw [List.forall_mem_cons] at h
    intro front back hsplit
    rw [printFragments_cons] at hsplit
    rcases h.1.exists_of_append_eq hsplit with ⟨more, rfl, hmore⟩ | ⟨statement, rfl, rfl⟩
    · rcases ih h.2 more back hmore with ⟨before, statement, after, rfl, rfl⟩
      refine ⟨fragment :: before, statement, after, rfl, ?_⟩
      rw [printFragments_cons, List.append_assoc]
    · exact ⟨[], statement, rest, rfl, rfl⟩

/-- A push is written in a literal as it is. -/
theorem pushCall_infix_escape {text : Bytes} (h : pushCall <:+: text) (width : Nat) :
    pushCall <:+: Literal.escape (spaces width ++ text) := by
  rcases h with ⟨front, back, rfl⟩
  have hhead : (pushCall ++ back).head? ≠ some Byte.openBrace := by
    rw [pushCall_eq, List.cons_append, List.head?_cons]
    decide
  have hplain : ∀ c ∈ pushCall, c ∉ Literal.escapes.map Prod.snd := by
    have hall : (pushCall.all fun c => !(Literal.escapes.map Prod.snd).contains c) = true := by
      decide
    simpa using hall
  rw [List.append_assoc, ← List.append_assoc, Literal.escape_append_of_head hhead,
    Literal.escape_append_of_not_mem hplain, ← List.append_assoc]
  exact ⟨_, _, rfl⟩

/-- A place in the code belongs to one fragment. -/
theorem fragment_eq_of_offset {before after before' after' : List Fragment}
    {fragment fragment' : Fragment} {offset offset' : Nat}
    (h : before ++ fragment :: after = before' ++ fragment' :: after')
    (hinside : offset < fragment.print.length) (hinside' : offset' < fragment'.print.length)
    (hplace : (printFragments before).length + offset = (printFragments before').length + offset') :
    fragment = fragment' ∧ offset = offset' := by
  induction before generalizing before' with
  | nil =>
    cases before' with
    | nil =>
      simp only [List.nil_append, List.cons.injEq] at h
      exact ⟨h.1, by simpa using hplace⟩
    | cons first rest =>
      simp only [List.nil_append, List.cons_append, List.cons.injEq] at h
      rw [printFragments_cons, ← h.1, List.length_append, printFragments_nil] at hplace
      simp only [List.length_nil] at hplace
      omega
  | cons first rest ih =>
    cases before' with
    | nil =>
      simp only [List.nil_append, List.cons_append, List.cons.injEq] at h
      rw [printFragments_cons, h.1, List.length_append, printFragments_nil] at hplace
      simp only [List.length_nil] at hplace
      omega
    | cons first' rest' =>
      simp only [List.cons_append, List.cons.injEq] at h
      simp only [printFragments_cons, h.1, List.length_append] at hplace
      exact ih h.2 (by omega)

/-- A push in the text of a statement starts no statement. -/
theorem not_callsStartStatements {fragments : List Fragment} {margin : Margin} {text : Bytes}
    (hmem : .statement ⟨margin, .pushText text⟩ ∈ fragments) (htext : pushCall <:+: text) :
    ¬CallsStartStatements fragments := by
  intro h
  rcases List.append_of_mem hmem with ⟨before, after, rfl⟩
  rcases pushCall_infix_escape htext margin.markup with ⟨front, back, hwritten⟩
  obtain ⟨lead, hlead⟩ : ∃ lead, lead = spaces margin.code ++ pushOpening ++ front := ⟨_, rfl⟩
  have hprint : (Fragment.statement ⟨margin, .pushText text⟩).print
      = lead ++ pushCall ++ (back ++ [Byte.quote, Byte.lineFeed]) := by
    simp [hlead, Fragment.print, Statement.print, Statement.source, Action.source, pushLiteral,
      ← hwritten]
  have hcode : printFragments (before ++ .statement ⟨margin, .pushText text⟩ :: after)
      = printFragments before ++ lead ++ pushCall
        ++ (back ++ [Byte.quote, Byte.lineFeed] ++ printFragments after) := by
    rw [printFragments_append, printFragments_cons, hprint]
    simp only [List.append_assoc]
  rcases h _ _ hcode with ⟨before', statement, after', hsplit, hfront⟩
  have hinside : lead.length < (Fragment.statement ⟨margin, .pushText text⟩).print.length := by
    rw [hprint]
    simp [pushCall_eq]
  have hstart : statement.margin.code < (Fragment.statement statement).print.length := by
    simp [Fragment.print, Statement.print]
  have hplace := congrArg List.length hfront
  rw [List.length_append, List.length_append, length_spaces] at hplace
  rcases fragment_eq_of_offset hsplit hinside hstart hplace with ⟨hsame, hoffset⟩
  -- The same statement starts in front of its text.
  obtain rfl := Fragment.statement.inj hsame
  have hopening : pushOpening.length = 9 := rfl
  simp only [hlead, List.length_append, length_spaces, hopening] at hoffset
  omega

private theorem pushCall_infix_of_hasCall {fragments : List Fragment} (h : HasCall fragments) :
    pushCall <:+: printFragments fragments := by
  rcases h with ⟨statement, hmem, hcall⟩
  rcases List.append_of_mem hmem with ⟨before, after, rfl⟩
  rcases statement.action.exists_source_of_isCall hcall statement.margin.markup with
    ⟨rest, hsource, -⟩
  refine ⟨printFragments before ++ spaces statement.margin.code,
    rest ++ [Byte.lineFeed] ++ printFragments after, ?_⟩
  simp [Fragment.print, Statement.print, Statement.source, hsource]

/-! ## Nodes below nodes -/

namespace Tree

/-- Whether a node with a property is printed of a tree. -/
def Holds (p : Node → Bool → Bool) (tree : Tree) : Prop :=
  ∃ path label children, tree.Reaches path (.node label children)
    ∧ p label (!children.isEmpty) = true

/-- Whether a node with a property is printed of a tree, and below it a node with another
property. -/
def Nests (outer : Node → Bool) (inner : Node → Bool → Bool) (tree : Tree) : Prop :=
  ∃ path label children, tree.Reaches path (.node label children) ∧ outer label = true
    ∧ (label.frame true).visited = true ∧ ∃ child ∈ children, child.Holds inner

variable {label : Node} {children : List Tree} {p : Node → Bool → Bool} {outer : Node → Bool}

/-- A tree holds a node if its top is one or a child that is rendered holds one. -/
theorem holds_node_iff :
    (Tree.node label children).Holds p ↔ p label (!children.isEmpty) = true
      ∨ (label.frame true).visited = true ∧ ∃ child ∈ children, child.Holds p := by
  constructor
  · rintro ⟨path, part, content, hreaches, hpart⟩
    cases hreaches with
    | here => exact .inl hpart
    | @nested _ _ child _ index path hvisited hchild hreaches =>
      exact .inr ⟨hvisited, child, List.mem_of_getElem? hchild, path, part, content, hreaches,
        hpart⟩
  · rintro (hlabel | ⟨hvisited, child, hmem, path, part, content, hreaches, hpart⟩)
    · exact ⟨[], label, children, .here, hlabel⟩
    · rcases List.getElem?_of_mem hmem with ⟨index, hchild⟩
      exact ⟨index :: path, part, content, .nested hvisited hchild hreaches, hpart⟩

/-- A tree nests a node if a child that is rendered holds one below its top, or nests one. -/
theorem nests_node_iff :
    (Tree.node label children).Nests outer p ↔ (label.frame true).visited = true
      ∧ ∃ child ∈ children, outer label = true ∧ child.Holds p ∨ child.Nests outer p := by
  constructor
  · rintro ⟨path, part, content, hreaches, hpart, hvisited, child, hmem, hchild⟩
    cases hreaches with
    | here => exact ⟨hvisited, child, hmem, .inl ⟨hpart, hchild⟩⟩
    | @nested _ _ top _ index path hvisited' htop hreaches =>
      exact ⟨hvisited', top, List.mem_of_getElem? htop,
        .inr ⟨path, part, content, hreaches, hpart, hvisited, child, hmem, hchild⟩⟩
  · rintro ⟨hvisited, child, hmem, ⟨hlabel, hchild⟩ | hchild⟩
    · exact ⟨[], label, children, .here, hlabel, hvisited, child, hmem, hchild⟩
    · rcases hchild with ⟨path, part, content, hreaches, hpart⟩
      rcases List.getElem?_of_mem hmem with ⟨index, hindex⟩
      exact ⟨index :: path, part, content, .nested hvisited hindex hreaches, hpart⟩

/-- What is printed of a part of a tree is printed of the tree. -/
theorem Reaches.holds {tree part : Tree} {path : List Nat} (h : tree.Reaches path part)
    (hpart : part.Holds p) : tree.Holds p := by
  induction h with
  | here => exact hpart
  | nested hvisited hchild _ ih =>
    exact holds_node_iff.2 (.inr ⟨hvisited, _, List.mem_of_getElem? hchild, ih hpart⟩)

/-- A node that is nested in a tree is held by it. -/
theorem Nests.holds {tree : Tree} (h : tree.Nests outer p) : tree.Holds p := by
  rcases h with ⟨path, label, children, hreaches, -, hvisited, hchild⟩
  exact hreaches.holds (holds_node_iff.2 (.inr ⟨hvisited, hchild⟩))

end Tree

/-! ## Layouts of kept blanks -/

namespace Node

/-- Whether a node prints a push, where blanks are kept above it. -/
def pushes (node : Node) (hasContent : Bool) : Bool :=
  !node.isLeft hasContent
    && ((node.frame hasContent).before ++ (node.frame hasContent).after).any Action.isCall

/-- Whether a node is left for a literal and ends in a dollar sign. -/
def dangles (node : Node) (hasContent : Bool) : Bool :=
  node.isLeft hasContent && node.markup.opening.getLast? == some Byte.dollar

variable {node : Node}

private theorem script?_of_isPair (h : node.evaluated = true) (hpair : node.markup.isPair = true) :
    node.script? = none := by
  cases hscript : node.script? with
  | none => rfl
  | some script =>
    rw [(script_of_evaluated h hscript).2] at hpair
    exact absurd hpair (by decide)

/-- A node that folds its content prints its opener before it and its closer after it. -/
theorem frame_of_folds (h : node.evaluated = true) (hfolds : node.folds = true) :
    node.frame true
      = ⟨[.pushText node.markup.opening], [.pushText node.markup.closing], true⟩ := by
  simp only [folds, Bool.and_eq_true] at hfolds
  simp [frame, script?_of_isPair h hfolds.2, Markup.frame, hfolds.2]

private theorem pushes_of_folds (h : node.evaluated = true) (hfolds : node.folds = true) :
    node.pushes true = true := by
  simp [pushes, isLeft, frame_of_folds h hfolds, Action.isCall]

/-- A node without host code is laid out by its markup. -/
theorem layout_of_script?_eq_none (h : node.script? = none) (above hasContent : Bool) :
    node.layout above hasContent
      = node.markup.layout (node.margin above) above hasContent := by
  unfold script? at h
  unfold layout
  cases hdetail : node.reading.detail with
  | script script => simp [hdetail] at h
  | none | element | comment => rfl

private theorem layout_of_folds (h : node.evaluated = true) (hfolds : node.folds = true)
    (above : Bool) :
    node.layout above true
      = .folded (node.margin above) node.markup.opening node.markup.closing := by
  simp only [folds, Bool.and_eq_true] at hfolds
  rw [layout_of_script?_eq_none (script?_of_isPair h hfolds.2)]
  simp [Markup.layout, hfolds]

private theorem layout_of_isLeft {hasContent : Bool} (hleft : node.isLeft hasContent = true) :
    node.layout true hasContent = .closed [.markup node.markup.opening] := by
  simp only [isLeft, Bool.and_eq_true, Bool.not_eq_true', Option.isNone_iff_eq_none] at hleft
  rcases hleft with ⟨⟨⟨⟨hscript, hcontent⟩, hpair⟩, hopener⟩, hpreserve⟩
  rw [layout_of_script?_eq_none hscript]
  simp [Markup.layout, hcontent, hpair, hopener, hpreserve]

end Node

namespace Tree

variable {label : Node} {children : List Tree} {above : Bool}

/-- Folded content is printed as the text of one push. -/
theorem fragments_of_folds
    (h : (Tree.node label children).Every fun node _ => node.evaluated = true)
    (hne : children ≠ []) (hfolds : label.folds = true) :
    (Tree.node label children).fragments above
      = [label.fragment above (.pushText (label.markup.opening
          ++ [Byte.lineFeed].intercalate
            (children.map fun child => printFragments (child.fragments true))
          ++ label.markup.closing))] := by
  cases h with
  | node heval hchildren =>
    have hempty : (!children.isEmpty) = true := by simpa using hne
    have hbelow : label.isPreserved above = true := by
      simp only [Node.folds, Bool.and_eq_true] at hfolds
      simp [Node.isPreserved, hfolds.1]
    have hcontent : ∀ child ∈ children, (child.render (label.isPreserved above)).result
        = .ok (child.fragments true) := by
      intro child hmem
      rw [hbelow]
      exact render_of_evaluated (hchildren child hmem) true
    have hlayout := label.layout_of_folds heval hfolds above
    rw [← hempty] at hlayout
    exact fragments_eq (render_folded heval hcontent hlayout)

private theorem fragments_of_isLeft (h : label.evaluated = true)
    (hleft : label.isLeft (!children.isEmpty) = true) :
    (Tree.node label children).fragments true = [.markup label.markup.opening] := by
  rw [fragments, render_closed h (Node.layout_of_isLeft hleft)]
  rfl

private theorem mem_content_iff {fragment : Fragment} {content : Tree → List Fragment} :
    fragment ∈ (if (label.frame (!children.isEmpty)).visited
        then children.flatMap content else [])
      ↔ (label.frame true).visited = true ∧ ∃ child ∈ children, fragment ∈ content child := by
  cases children with
  | nil => simp
  | cons child rest =>
    have hempty : (!(child :: rest).isEmpty) = true := rfl
    rw [hempty]
    by_cases hvisited : (label.frame true).visited = true
    · rw [if_pos hvisited, List.mem_flatMap]
      simp [hvisited]
    · rw [if_neg hvisited]
      simp [hvisited]

/-- A tree is rendered to one push that folds its content, to an opener that is left for a
literal, or to the frame of its node round its content. -/
theorem fragments_cases
    (h : (Tree.node label children).Every fun node _ => node.evaluated = true) (above : Bool) :
    (children ≠ [] ∧ label.folds = true ∧ (Tree.node label children).fragments above
        = [label.fragment above (.pushText (label.markup.opening
            ++ [Byte.lineFeed].intercalate
              (children.map fun child => printFragments (child.fragments true))
            ++ label.markup.closing))])
      ∨ (above = true ∧ label.isLeft (!children.isEmpty) = true
        ∧ (Tree.node label children).fragments above = [.markup label.markup.opening])
      ∨ ((children ≠ [] → label.folds = false)
        ∧ (above = true → label.isLeft (!children.isEmpty) = false)
        ∧ (Tree.node label children).fragments above
          = (label.frame (!children.isEmpty)).before.map (label.fragment above)
            ++ (if (label.frame (!children.isEmpty)).visited
              then children.flatMap (fragments (label.isPreserved above)) else [])
            ++ (label.frame (!children.isEmpty)).after.map (label.fragment above)) := by
  have heval : label.evaluated = true := by
    cases h with
    | node heval => exact heval
  by_cases hfolds : children ≠ [] ∧ label.folds = true
  · exact .inl ⟨hfolds.1, hfolds.2, fragments_of_folds h hfolds.1 hfolds.2⟩
  · by_cases hleft : above = true ∧ label.isLeft (!children.isEmpty) = true
    · obtain ⟨rfl, hleft⟩ := hleft
      exact .inr (.inl ⟨rfl, hleft, fragments_of_isLeft heval hleft⟩)
    · have hunfolded : children ≠ [] → label.folds = false := by
        simpa using hfolds
      have hprinted : above = true → label.isLeft (!children.isEmpty) = false := by
        simpa using hleft
      exact .inr (.inr ⟨hunfolded, hprinted, fragments_node h hunfolded hprinted⟩)

/-! ## Pushes that are printed -/

/-- Where blanks are kept, a tree is rendered to a push exactly when one of its nodes
prints one. -/
theorem hasCall_iff {tree : Tree} (h : tree.Every fun node _ => node.evaluated = true) :
    HasCall (tree.fragments true) ↔ tree.Holds Node.pushes := by
  induction h with
  | @node label children hlabel hchildren ih =>
    rw [holds_node_iff]
    rcases fragments_cases (.node hlabel hchildren) true with
      ⟨hne, hfolds, hfragments⟩ | ⟨-, hleft, hfragments⟩ | ⟨-, hprinted, hfragments⟩
    · have hcall : HasCall ((Tree.node label children).fragments true) := by
        rw [hfragments]
        exact ⟨_, List.mem_singleton_self _, rfl⟩
      have hpushes : label.pushes (!children.isEmpty) = true := by
        have hempty : (!children.isEmpty) = true := by simpa using hne
        rw [hempty]
        exact Node.pushes_of_folds hlabel hfolds
      exact ⟨fun _ => .inl hpushes, fun _ => hcall⟩
    · obtain rfl : children = [] := by
        simp only [Node.isLeft, Bool.and_eq_true, Bool.not_not] at hleft
        simpa using hleft.1.1.1.2
      have hpushes : label.pushes false = false := by
        have hleft' : label.isLeft false = true := hleft
        simp [Node.pushes, hleft']
      rw [hfragments]
      simp [HasCall, hpushes]
    · have hcontent : HasCall (if (label.frame (!children.isEmpty)).visited
            then children.flatMap (fragments true) else [])
          ↔ (label.frame true).visited = true ∧ ∃ child ∈ children,
            child.Holds Node.pushes := by
        simp only [HasCall, mem_content_iff]
        constructor
        · rintro ⟨statement, ⟨hvisited, child, hmem, hstatement⟩, hcall⟩
          exact ⟨hvisited, child, hmem, (ih child hmem).1 ⟨statement, hstatement, hcall⟩⟩
        · rintro ⟨hvisited, child, hmem, hchild⟩
          rcases (ih child hmem).2 hchild with ⟨statement, hstatement, hcall⟩
          exact ⟨statement, ⟨hvisited, child, hmem, hstatement⟩, hcall⟩
      have hbelow : label.isPreserved true = true := rfl
      rw [hfragments, hbelow, hasCall_append, hasCall_append, hcontent, Node.pushes, hprinted rfl]
      simp [or_right_comm]

/-- Whether a node of a tree folds a push of a node below it. -/
def Swallows : Tree → Prop :=
  Nests Node.folds Node.pushes

/-- Whether a node of a tree keeps the blanks of text below it that ends in a dollar
sign. -/
def Dangles : Tree → Prop :=
  Nests (fun node => node.markup.preserve) Node.dangles

/-- A push that is swallowed stands in the text of a statement. -/
theorem Swallows.exists_mem_fragments {tree : Tree}
    (h : tree.Every fun node _ => node.evaluated = true) (hswallows : tree.Swallows)
    (above : Bool) : ∃ margin text, .statement ⟨margin, .pushText text⟩ ∈ tree.fragments above
      ∧ pushCall <:+: text := by
  induction h generalizing above with
  | @node label children hlabel hchildren ih =>
    rcases nests_node_iff.1 hswallows with ⟨hvisited, child, hmem, hchild⟩
    rcases fragments_cases (.node hlabel hchildren) above with
      ⟨-, -, hfragments⟩ | ⟨-, hleft, -⟩ | ⟨hunfolded, -, hfragments⟩
    · have hpushes : child.Holds Node.pushes := by
        rcases hchild with ⟨-, hchild⟩ | hchild
        · exact hchild
        · exact hchild.holds
      have hcall := pushCall_infix_of_hasCall ((hasCall_iff (hchildren child hmem)).2 hpushes)
      have hpart : printFragments (child.fragments true)
          ∈ children.map fun child => printFragments (child.fragments true) :=
        List.mem_map.2 ⟨child, hmem, rfl⟩
      have htext := hcall.trans (infix_intercalate hpart [Byte.lineFeed])
      rw [hfragments]
      refine ⟨_, _, List.mem_singleton_self _, ?_⟩
      exact htext.trans ⟨_, _, rfl⟩
    · simp [Node.isLeft, List.ne_nil_of_mem hmem] at hleft
    · rcases hchild with ⟨hfolds, -⟩ | hchild
      · rw [hunfolded (List.ne_nil_of_mem hmem)] at hfolds
        contradiction
      · rcases ih child hmem hchild (label.isPreserved above) with ⟨margin, text, htext, hcall⟩
        have hcontent := mem_content_iff.2 ⟨hvisited, child, hmem, htext⟩
        refine ⟨margin, text, ?_, hcall⟩
        rw [hfragments]
        exact List.mem_append_left _ (List.mem_append_right _ hcontent)

end Tree

/-! ## Clean code -/

namespace Node.IsQuiet

variable {node : Node}

private theorem settled_markIf (wanted : Bool) {mark : UInt8} (h : Settled [mark]) :
    Settled (Markup.markIf wanted mark) := by
  cases wanted with
  | true => exact h
  | false => exact settled_nil

/-- The opener of a quiet node is quiet, and settled if it has a closer. -/
theorem opening (h : node.IsQuiet) :
    Quiet node.markup.opening ∧ (node.markup.isPair = true → Settled node.markup.opening) := by
  rcases h.markup with ⟨hopener, -, hpair⟩
  have hleft := settled_markIf node.markup.around (by decide : Settled [leftMark])
  have hright := settled_markIf node.markup.inside (by decide : Settled [rightMark])
  have hhead : (Markup.markIf node.markup.inside rightMark).head? ≠ some Byte.letterO := by
    cases node.markup.inside <;> decide
  refine ⟨?_, fun h => (hleft.append (hpair h)).append hright⟩
  have hstart := hleft.1.append hopener (.inl hleft.2)
  exact hstart.append hright.1 (.inr hhead)

/-- The closer of a quiet node is settled. -/
theorem closing (h : node.IsQuiet) : Settled node.markup.closing := by
  have hleft := settled_markIf node.markup.inside (by decide : Settled [leftMark])
  have hright := settled_markIf node.markup.around (by decide : Settled [rightMark])
  exact (hleft.append h.markup.2.1).append hright

/-- The text of a node is quiet. -/
theorem quiet_text (h : node.IsQuiet) {hasContent : Bool} {action : Action}
    (hmem : action ∈ (node.frame hasContent).before ++ (node.frame hasContent).after) {text : Bytes}
    (htext : action = .pushText text) : Quiet text := by
  subst htext
  unfold frame at hmem
  split at hmem
  · next script hscript =>
    unfold Script.frame at hmem
    split at hmem
    · simp at hmem
    · split at hmem <;> simp at hmem
  · rcases Markup.exists_text_of_mem_frame hmem with ⟨text', heq, htext⟩
    obtain rfl := Action.pushText.inj heq
    rcases htext with rfl | ⟨hpair, rfl | rfl⟩
    · exact h.opening.1
    · exact h.closing.1
    · exact ((h.opening.2 hpair).append h.closing).1

/-- The host code of a node is quiet. -/
theorem quiet_code (h : node.IsQuiet) {hasContent : Bool} {action : Action}
    (hmem : action ∈ (node.frame hasContent).before ++ (node.frame hasContent).after) :
    ∀ code ∈ action.code?, Quiet code := by
  intro code hcode
  rcases exists_script_of_mem_frame hmem hcode with ⟨script, hscript, rfl⟩
  rw [(script_of_evaluated h.evaluated hscript).1]
  rcases Script.exists_code_read node.directive.options.escapeHtml node.directive.expression with
    ⟨part, hpart, hcode⟩
  rw [hcode]
  exact h.expression.of_isInfix ((isInfix_trim part).trans hpart)

private theorem isClean_fragment (h : node.IsQuiet) {hasContent : Bool} {action : Action}
    (hmem : action ∈ (node.frame hasContent).before ++ (node.frame hasContent).after)
    (above : Bool) : (node.fragment above action).IsClean :=
  Statement.isClean (fun _ htext => h.quiet_text hmem htext) (h.quiet_code hmem)

end Node.IsQuiet

namespace Tree

variable {label : Node} {children : List Tree}

/-- Clean content without pushes is folded to a clean push. -/
theorem isClean_of_folds (h : label.IsQuiet) (hfolds : label.folds = true)
    (hcontent : ∀ child ∈ children, (∀ fragment ∈ child.fragments true, fragment.IsClean)
      ∧ ¬HasCall (child.fragments true)) (above : Bool) :
    (label.fragment above (.pushText (label.markup.opening
      ++ [Byte.lineFeed].intercalate
        (children.map fun child => printFragments (child.fragments true))
      ++ label.markup.closing))).IsClean := by
  have htexts : ∀ text ∈ children.map fun child => printFragments (child.fragments true),
      Settled text := by
    intro text htext
    rcases List.mem_map.1 htext with ⟨child, hmem, rfl⟩
    rcases hcontent child hmem with ⟨hclean, hcall⟩
    refine settled_flatMap fun fragment hfragment => ?_
    refine (hclean fragment hfragment).settled_print ?_
    rintro ⟨statement, hstatement, hrun⟩
    obtain rfl := List.mem_singleton.1 hstatement
    exact hcall ⟨statement, hfragment, hrun⟩
  have hpair : label.markup.isPair = true := by
    simp only [Node.folds, Bool.and_eq_true] at hfolds
    exact hfolds.2
  have hfeed : Settled [Byte.lineFeed] := by decide
  have htext := ((h.opening.2 hpair).append (settled_intercalate hfeed htexts)).append h.closing
  refine Statement.isClean ?_ (by simp [Action.code?])
  intro text heq
  obtain rfl := Action.pushText.inj heq
  exact htext.1

/-- The code of a quiet tree is clean, unless a push is swallowed or text dangles. -/
theorem isClean_of_mem_fragments {tree : Tree} (h : tree.Every fun node _ => node.IsQuiet)
    (hswallows : ¬tree.Swallows) (hdangles : ¬tree.Dangles) {above : Bool}
    (habove : above = true → ¬tree.Holds Node.dangles) :
    ∀ fragment ∈ tree.fragments above, fragment.IsClean := by
  induction h generalizing above with
  | @node label children hlabel hchildren ih =>
    have hcontent : (label.frame true).visited = true → ∀ child ∈ children,
        ∀ fragment ∈ child.fragments (label.isPreserved above), fragment.IsClean := by
      intro hvisited child hmem
      refine ih child hmem ?_ ?_ ?_
      · intro hchild
        exact hswallows (nests_node_iff.2 ⟨hvisited, child, hmem, .inr hchild⟩)
      · intro hchild
        exact hdangles (nests_node_iff.2 ⟨hvisited, child, hmem, .inr hchild⟩)
      · intro hkept hchild
        rcases Bool.or_eq_true_iff.1 hkept with habove' | hpreserve
        · exact habove habove' (holds_node_iff.2 (.inr ⟨hvisited, child, hmem, hchild⟩))
        · exact hdangles (nests_node_iff.2 ⟨hvisited, child, hmem, .inl ⟨hpreserve, hchild⟩⟩)
    rcases fragments_cases ((Every.node hlabel hchildren).imp fun _ _ hnode => hnode.evaluated)
      above with ⟨-, hfolds, hfragments⟩ | ⟨hkept, hleft, hfragments⟩ | ⟨-, -, hfragments⟩
    · have hvisited : (label.frame true).visited = true := by
        rw [Node.frame_of_folds hlabel.evaluated hfolds]
      have hbelow : label.isPreserved above = true := by
        simp only [Node.folds, Bool.and_eq_true] at hfolds
        simp [Node.isPreserved, hfolds.1]
      rw [hbelow] at hcontent
      rw [hfragments, List.forall_mem_singleton]
      refine isClean_of_folds hlabel hfolds (fun child hmem => ?_) above
      refine ⟨hcontent hvisited child hmem, fun hcall => ?_⟩
      have hpushes := (hasCall_iff
        ((hchildren child hmem).imp fun _ _ hnode => hnode.evaluated)).1 hcall
      exact hswallows (nests_node_iff.2 ⟨hvisited, child, hmem, .inl ⟨hfolds, hpushes⟩⟩)
    · rw [hfragments, List.forall_mem_singleton]
      refine ⟨hlabel.opening.1, fun hlast => ?_⟩
      refine habove hkept (holds_node_iff.2 (.inl ?_))
      simp [Node.dangles, hleft, hlast]
    · intro fragment hmem
      rw [hfragments, List.mem_append, List.mem_append] at hmem
      rcases hmem with (hmem | hmem) | hmem
      · rcases List.mem_map.1 hmem with ⟨action, haction, rfl⟩
        exact hlabel.isClean_fragment (List.mem_append_left _ haction) above
      · rcases mem_content_iff.1 hmem with ⟨hvisited, child, hchild, hfragment⟩
        exact hcontent hvisited child hchild fragment hfragment
      · rcases List.mem_map.1 hmem with ⟨action, haction, rfl⟩
        exact hlabel.isClean_fragment (List.mem_append_right _ haction) above

end Tree

/-- If the pushes in the code of a quiet template all start statements, no node swallows a
push.  The other way round, text that ends in a dollar sign has to be excluded: the text
behind it can make a push of it. -/
theorem render_callsStartStatements {tree : Tree} (h : tree.Every fun node _ => node.IsQuiet) :
    ∃ fragments, (tree.render false).result = .ok fragments
      ∧ (CallsStartStatements fragments → ¬tree.Swallows)
      ∧ (¬tree.Swallows → ¬tree.Dangles → CallsStartStatements fragments) := by
  have heval := h.imp fun _ _ hnode => hnode.evaluated
  refine ⟨tree.fragments false, Tree.render_of_evaluated heval false, ?_, ?_⟩
  · intro hcalls hswallows
    rcases hswallows.exists_mem_fragments heval false with ⟨margin, text, hmem, htext⟩
    exact not_callsStartStatements hmem htext hcalls
  · intro hswallows hdangles
    exact callsStartStatements_of_isClean
      (Tree.isClean_of_mem_fragments h hswallows hdangles (by simp))

/-- An element in an element that keeps blanks is folded as code. -/
theorem render_callsStartStatements_of_element_in_pre :
    ∃ fragments, ((Session.template {} [.item .element (ascii "%pre") {}
        [.item .element (ascii "%b") {} []]]).render false).result = .ok fragments
      ∧ ¬CallsStartStatements fragments := by
  have hquiet : (Session.template {} [.item .element (ascii "%pre") {}
      [.item .element (ascii "%b") {} []]]).Every fun node _ => node.IsQuiet := by
    simp only [Session.template, Session.growAll, Session.grow]
    refine .node ⟨rfl, nofun, by decide⟩ ?_
    rw [List.forall_mem_singleton]
    refine .node ⟨rfl, nofun, by decide⟩ ?_
    rw [List.forall_mem_singleton]
    exact .node ⟨rfl, nofun, by decide⟩ (by simp)
  rcases render_callsStartStatements hquiet with ⟨fragments, hrender, hswallows, -⟩
  refine ⟨fragments, hrender, fun hcalls => hswallows hcalls ?_⟩
  refine ⟨[0], _, _, .nested rfl rfl .here, ?_, ?_, _, .head _, [], _, _, .here, ?_⟩
  · decide +kernel
  · decide +kernel
  · decide +kernel

end TemplateCompiler
