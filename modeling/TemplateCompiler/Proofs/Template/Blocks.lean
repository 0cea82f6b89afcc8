import Mathlib.Data.List.Chain
import TemplateCompiler.Proofs.Template.Statements

/-!
# Blocks of host code

Blocks of the generated program are told by their indentation.  Host code stands in front
of the statements that are nested in it, and these are indented deeper; so statements that
follow one another at the same indentation are in the same block, and trimming, which only
joins such statements, moves nothing from block to block.

Main results:

- Theorem {lit}`Tree.Reaches.exists_split`: the statements of a part of a tree stand
  together.
- Theorem {lit}`Tree.IsNested.layered`: neighbouring statements at one indentation are in
  the same block.
- Theorem {lit}`compile_blocks`: host code encloses its block, and every compiled line is
  made of statements of one block.
-/

namespace TemplateCompiler

/-! ## Parts of a tree -/

namespace Tree

private theorem not_isEmpty_of_getElem? {children : List Tree} {index : Nat} {child : Tree}
    (h : children[index]? = some child) : (!children.isEmpty) = true := by
  cases children with
  | nil => simp at h
  | cons => rfl

private theorem mem_emittedAll {label : Node} {start : Nat} {children : List Tree}
    {emitted : Emitted}
    (h : emitted ∈ emittedAll label start children) :
    ∃ index child inner, children[index]? = some child ∧ inner ∈ child.emitted
      ∧ emitted = Emitted.below label (start + index) inner := by
  induction children generalizing start with
  | nil => simp [emittedAll] at h
  | cons tree rest ih =>
    rw [emittedAll, List.mem_append] at h
    rcases h with h | h
    · rcases List.mem_map.1 h with ⟨inner, hinner, rfl⟩
      exact ⟨0, tree, inner, rfl, hinner, rfl⟩
    · rcases ih h with ⟨index, child, inner, hchild, hinner, rfl⟩
      refine ⟨index + 1, child, inner, hchild, hinner, ?_⟩
      rw [Nat.add_right_comm, Nat.add_assoc]

/-- The statements of a child stand together, among those of the other children. -/
theorem exists_split_emittedAll (label : Node) {children : List Tree} {index : Nat} {child : Tree}
    (h : children[index]? = some child) (start : Nat) :
    ∃ before after : List Emitted,
      emittedAll label start children
          = before ++ child.emitted.map (Emitted.below label (start + index)) ++ after
        ∧ ∀ emitted ∈ before ++ after, emitted.origin.head? ≠ some (start + index) := by
  induction children generalizing index start with
  | nil => simp at h
  | cons tree rest ih =>
    cases index with
    | zero =>
      obtain rfl : tree = child := by simpa using h
      refine ⟨[], emittedAll label (start + 1) rest, rfl, ?_⟩
      intro emitted hmem
      rcases mem_emittedAll hmem with ⟨index, other, inner, -, -, rfl⟩
      simp only [Emitted.below, List.head?_cons, ne_eq, Option.some.injEq]
      omega
    | succ index =>
      rw [List.getElem?_cons_succ] at h
      rcases ih h (start + 1) with ⟨before, after, hsplit, hothers⟩
      rw [Nat.add_right_comm, Nat.add_assoc] at hsplit hothers
      refine ⟨tree.emitted.map (Emitted.below label start) ++ before, after, ?_, ?_⟩
      · rw [emittedAll, hsplit]
        simp only [List.append_assoc]
      · intro emitted hmem
        rw [List.append_assoc, List.mem_append] at hmem
        rcases hmem with hmem | hmem
        · rcases List.mem_map.1 hmem with ⟨inner, -, rfl⟩
          simp only [Emitted.below, List.head?_cons, ne_eq, Option.some.injEq]
          omega
        · exact hothers emitted hmem

/-- The statements of a part of a tree stand together. -/
theorem Reaches.exists_split {tree target : Tree} {path : List Nat}
    (h : tree.Reaches path target) :
    ∃ (before after : List Emitted) (lift : Emitted → Emitted),
      tree.emitted = before ++ target.emitted.map lift ++ after
        ∧ (∀ emitted, (lift emitted).origin = path ++ emitted.origin
          ∧ (lift emitted).statement = emitted.statement)
        ∧ ∀ emitted ∈ before ++ after, ¬path <+: emitted.origin := by
  induction h with
  | here => exact ⟨[], [], id, by simp, by simp, by simp⟩
  | @nested label children child target index path hvisited hchild _ ih =>
    rcases ih with ⟨before, after, lift, hemitted, hlift, hothers⟩
    rcases exists_split_emittedAll label hchild 0 with
      ⟨before', after', hsplit, hothers'⟩
    rw [Nat.zero_add] at hsplit hothers'
    have hcontent := not_isEmpty_of_getElem? hchild
    let own := (label.frame true).before.map (Emitted.own label)
    let close := (label.frame true).after.map (Emitted.own label)
    refine ⟨own ++ before' ++ before.map (Emitted.below label index),
      after.map (Emitted.below label index) ++ after' ++ close,
      Emitted.below label index ∘ lift, ?_, ?_, ?_⟩
    · rw [emitted, hcontent]
      simp only [hvisited, if_true, hsplit, hemitted, List.map_append, List.map_map,
        List.append_assoc, own, close]
    · intro emitted
      simp [Emitted.below, hlift]
    · intro emitted hmem hstart
      have hown : ∀ actions : List Action, emitted ∉ actions.map (Emitted.own label) := by
        intro actions hmem
        rcases List.mem_map.1 hmem with ⟨action, -, rfl⟩
        simp [Emitted.own] at hstart
      have hother : emitted ∉ before' ++ after' := by
        intro hmem
        rcases hstart with ⟨rest, horigin⟩
        exact hothers' emitted hmem (by simp [← horigin])
      have hinner : emitted ∉ (before ++ after).map (Emitted.below label index) := by
        intro hmem
        rcases List.mem_map.1 hmem with ⟨inner, hinner, rfl⟩
        exact hothers inner hinner (List.cons_prefix_cons.1 hstart).2
      simp only [List.mem_append, List.map_append, not_or, own, close] at hmem hother hinner
      rcases hmem with ((hmem | hmem) | hmem) | (hmem | hmem) | hmem
      · exact hown _ hmem
      · exact hother.1 hmem
      · exact hinner.1 hmem
      · exact hinner.2 hmem
      · exact hother.2 hmem
      · exact hown _ hmem

/-- Every statement belongs to a node that is reached. -/
theorem reaches_of_mem_emitted {tree : Tree} {p : Node → Bool → Prop} (h : tree.Every p) :
    ∀ emitted ∈ tree.emitted, ∃ target, tree.Reaches emitted.origin target := by
  induction h with
  | @node label children hlabel hchildren ih =>
    intro emitted hmem
    rw [Tree.emitted, List.mem_append, List.mem_append] at hmem
    rcases hmem with (hmem | hmem) | hmem
    · rcases List.mem_map.1 hmem with ⟨action, -, rfl⟩
      exact ⟨_, .here⟩
    · split at hmem
      · next hvisited =>
        rcases mem_emittedAll hmem with ⟨index, child, inner, hchild, hinner, rfl⟩
        rw [not_isEmpty_of_getElem? hchild] at hvisited
        rcases ih child (List.mem_of_getElem? hchild) inner hinner with ⟨target, htarget⟩
        refine ⟨target, ?_⟩
        simp only [Emitted.below, Nat.zero_add]
        exact .nested hvisited hchild htarget
      · simp at hmem
    · rcases List.mem_map.1 hmem with ⟨action, -, rfl⟩
      exact ⟨_, .here⟩

end Tree

/-- What is nested below host code is one level deeper than it, and what is nested below
any other node is at the same level. -/
inductive Tree.IsNested : Nat → Tree → Prop
  | node {level : Nat} {label : Node} {children : List Tree} (hloose : label.IsLoose)
      (hline : label.HasOneLine) (hlevel : label.directive.position.code.toInt = level)
      (hchildren : ∀ child ∈ children,
        IsNested (if label.script?.isSome then level + 1 else level) child) :
      IsNested level (.node label children)

namespace Tree.IsNested

/-- Every node of a nested tree asks for nothing and has one line. -/
theorem every {level : Nat} {tree : Tree} (h : tree.IsNested level) :
    tree.Every fun node _ => node.IsLoose ∧ node.HasOneLine := by
  induction h with
  | node hloose hline hlevel hchildren ih => exact .node ⟨hloose, hline⟩ ih

/-- Every part of a nested tree is nested. -/
theorem of_reaches {level : Nat} {tree target : Tree} {path : List Nat} (h : tree.IsNested level)
    (hreaches : tree.Reaches path target) : ∃ level', target.IsNested level' := by
  induction hreaches generalizing level with
  | here => exact ⟨level, h⟩
  | nested hvisited hchild hreaches ih =>
    cases h with
    | node hloose hline hlevel hchildren =>
      exact ih (hchildren _ (List.mem_of_getElem? hchild))

end Tree.IsNested

/-! ## Layers -/

namespace Emitted

/-- The indentation of a statement. -/
def width (emitted : Emitted) : Nat :=
  emitted.statement.margin.code

/-- Whether statements of one indentation are in the same block. -/
def Agree (first second : Emitted) : Prop :=
  first.width = second.width → first.block = second.block

/-- Statements of which none is indented less than the given width, those of that width
are in the given block, and any other stands below one that is indented less. -/
structure Layered (width : Nat) (block : Option (List Nat)) (list : List Emitted) : Prop where
  deep : ∀ emitted ∈ list, width ≤ emitted.width
  outer : ∀ emitted ∈ list, emitted.width = width → emitted.block = block
  first : ∀ emitted ∈ list.head?, emitted.width = width
  chain : list.IsChain Agree

namespace Layered

variable {width : Nat} {block : Option (List Nat)} {first second : List Emitted}

theorem nil : Layered width block [] :=
  ⟨by simp, by simp, by simp, .nil⟩

/-- Layered lists stay so side by side. -/
theorem append (h : Layered width block first) (h' : Layered width block second) :
    Layered width block (first ++ second) where
  deep := by
    intro emitted hmem
    rcases List.mem_append.1 hmem with hmem | hmem
    · exact h.deep emitted hmem
    · exact h'.deep emitted hmem
  outer := by
    intro emitted hmem
    rcases List.mem_append.1 hmem with hmem | hmem
    · exact h.outer emitted hmem
    · exact h'.outer emitted hmem
  first := by
    cases first with
    | nil => exact h'.first
    | cons head rest => exact h.first
  chain := by
    rw [List.isChain_append]
    refine ⟨h.chain, h'.chain, ?_⟩
    -- Only at the given width can the statements that meet have one indentation.
    intro last hlast head hhead hsame
    have hwidth := h'.first head hhead
    rw [h.outer last (List.mem_of_getLast? hlast) (hsame.trans hwidth),
      h'.outer head (List.mem_of_head? hhead) hwidth]

/-- The statements of one node. -/
theorem own {label : Node} (hwidth : label.directive.position.codeWidth = width)
    (actions : List Action) : Layered width none (actions.map (Emitted.own label)) := by
  induction actions with
  | nil => exact nil
  | cons action rest ih =>
    have hone : Layered width none [Emitted.own label action] :=
      ⟨by simp [Emitted.own, Emitted.width, Node.statement, Directive.margin, hwidth],
        by simp [Emitted.own],
        by simp [Emitted.own, Emitted.width, Node.statement, Directive.margin, hwidth],
        .singleton _⟩
    exact hone.append ih

/-- Statements of a child, seen from the node above it. -/
theorem below (h : Layered width block first) (label : Node) (index : Nat) :
    Layered width (blockBelow label index block) (first.map (Emitted.below label index)) where
  deep := by
    intro emitted hmem
    rcases List.mem_map.1 hmem with ⟨inner, hinner, rfl⟩
    exact h.deep inner hinner
  outer := by
    intro emitted hmem hwidth
    rcases List.mem_map.1 hmem with ⟨inner, hinner, rfl⟩
    exact congrArg (blockBelow label index) (h.outer inner hinner hwidth)
  first := by
    intro emitted hmem
    rw [List.head?_map, Option.mem_def, Option.map_eq_some_iff] at hmem
    rcases hmem with ⟨inner, hinner, rfl⟩
    exact h.first inner hinner
  chain := by
    rw [List.isChain_map]
    exact h.chain.imp fun _ _ hagree hsame => congrArg (blockBelow label index) (hagree hsame)

/-- A block stands between statements that are indented less. -/
theorem enclosed {width' : Nat} {own : Emitted} {after : List Emitted} (hdeep : width < width')
    (howidth : own.width = width) (hoblock : own.block = none) (h : Layered width' block first)
    (hafter : Layered width none after) : Layered width none (own :: first ++ after) := by
  have hinner : ∀ emitted ∈ first, width < emitted.width := fun emitted hmem =>
    Nat.lt_of_lt_of_le hdeep (h.deep emitted hmem)
  have hupper : Layered width none (own :: first) := by
    refine ⟨?_, ?_, by simp [howidth], ?_⟩
    · rw [List.forall_mem_cons]
      exact ⟨Nat.le_of_eq howidth.symm, fun emitted hmem => Nat.le_of_lt (hinner emitted hmem)⟩
    · rw [List.forall_mem_cons]
      exact ⟨fun _ => hoblock,
        fun emitted hmem hwidth => absurd hwidth (Nat.ne_of_gt (hinner emitted hmem))⟩
    · rw [List.isChain_cons]
      refine ⟨fun head hhead hsame => ?_, h.chain⟩
      have hhead := hinner head (List.mem_of_head? hhead)
      rw [← hsame, howidth] at hhead
      exact absurd hhead (Nat.lt_irrefl width)
  exact hupper.append hafter

/-- The statements of the children of a node. -/
theorem emittedAll {children : List Tree}
    (h : ∀ child ∈ children, Layered width none child.emitted) (label : Node) (start : Nat) :
    Layered width (if label.script?.isSome then some [] else none)
      (Tree.emittedAll label start children) := by
  induction children generalizing start with
  | nil => exact nil
  | cons child rest ih =>
    rw [List.forall_mem_cons] at h
    rw [Tree.emittedAll]
    exact (h.1.below label start).append (ih h.2 (start + 1))

end Layered

end Emitted

/-- Host code prints one line before its content, and one after it if it is an inserted
function body. -/
theorem Script.exists_frame (script : Script) (hasContent : Bool) :
    ∃ (action : Action) (closing : Option Action),
      script.frame hasContent = ⟨[action], closing.toList, true⟩
        ∧ (closing.isSome = true ↔
          script.mode ≠ .running ∧ hasContent = true ∧ script.opensBlock = true)
        ∧ ∀ action' ∈ closing, ∃ escaped,
          action = .openCall script.code escaped ∧ action' = .closeCall escaped := by
  unfold frame
  split
  · next hmode => exact ⟨.run script.code, none, rfl, by simp [hmode], by simp⟩
  · next escaped hmode =>
    split
    · next hopens =>
      rw [Bool.and_eq_true] at hopens
      exact ⟨.openCall script.code escaped, some (.closeCall escaped), rfl, by simp [hmode, hopens],
        by simp⟩
    · next hopens =>
      rw [Bool.and_eq_true] at hopens
      exact ⟨.pushValue script.code escaped, none, rfl, by simp [hmode, hopens], by simp⟩

namespace Tree

/-- Host code is printed on a line of its own, with its content below it. -/
theorem emitted_script {label : Node} {script : Script} (hscript : label.script? = some script)
    (children : List Tree) :
    ∃ action closing, (Tree.node label children).emitted
          = Emitted.own label action :: emittedAll label 0 children
            ++ (Option.map (Emitted.own label) closing).toList
        ∧ (closing.isSome = true ↔ script.mode ≠ .running ∧ (!children.isEmpty) = true
          ∧ script.opensBlock = true)
        ∧ ∀ action' ∈ closing, ∃ escaped,
          action = .openCall script.code escaped ∧ action' = .closeCall escaped := by
  rcases script.exists_frame (!children.isEmpty) with ⟨action, closing, hframe, hcloses, hclosing⟩
  refine ⟨action, closing, ?_, hcloses, hclosing⟩
  rw [emitted, Node.frame, hscript]
  simp only [hframe, if_true, Option.toList_map]
  rfl

private theorem IsNested.width_eq {level : Nat} {label : Node}
    (hlevel : label.directive.position.code.toInt = level) :
    label.directive.position.codeWidth = 2 * level := by
  rw [Position.codeWidth, indentWidth, hlevel]
  omega

/-- Neighbouring statements at one indentation are in the same block. -/
theorem IsNested.layered {level : Nat} {tree : Tree} (h : tree.IsNested level) :
    Emitted.Layered (2 * level) none tree.emitted := by
  induction h with
  | @node level label children hloose hline hlevel hchildren ih =>
    have hwidth := width_eq hlevel
    cases hscript : label.script? with
    | none =>
      simp only [hscript, Option.isSome_none, Bool.false_eq_true, if_false] at ih
      have hcontent := Emitted.Layered.emittedAll ih label 0
      simp only [hscript, Option.isSome_none, Bool.false_eq_true, if_false] at hcontent
      rw [emitted]
      refine ((Emitted.Layered.own hwidth _).append ?_).append (Emitted.Layered.own hwidth _)
      split
      · exact hcontent
      · exact .nil
    | some script =>
      simp only [hscript, Option.isSome_some, if_true] at ih
      rcases emitted_script hscript children with ⟨action, closing, hemitted, -, -⟩
      rw [hemitted, Option.toList_map]
      exact .enclosed (by omega) hwidth rfl (Emitted.Layered.emittedAll ih label 0)
        (.own hwidth closing.toList)

end Tree

/-- A statement as a line of generated code. -/
def Emitted.line (emitted : Emitted) : Line :=
  Line.parse emitted.statement.text

namespace Tree.IsNested

variable {level : Nat} {tree : Tree}

private theorem lineFeed_not_mem_text (h : tree.IsNested level) :
    ∀ emitted ∈ tree.emitted, Byte.lineFeed ∉ emitted.statement.text := fun _ hmem =>
  Tree.lineFeed_not_mem_text (h.every.imp fun _ _ hnode => hnode.2) _ (List.mem_map_of_mem hmem)

private theorem indent_line (h : tree.IsNested level) :
    ∀ emitted ∈ tree.emitted, emitted.line.indent = emitted.width := by
  intro emitted hmem
  have hcode := Tree.code_of_mem_statements (h.every.imp fun _ _ hnode => hnode.1)
    emitted.statement (List.mem_map_of_mem hmem)
  rw [Emitted.line, Statement.parse_text fun code hmem => (hcode code hmem).2]
  split <;> rfl

/-- The lines of a nested tree are those of what it emits. -/
theorem lines_statements (h : tree.IsNested level) :
    tree.statements.flatMap Statement.lines = tree.emitted.map Emitted.line := by
  rw [flatMap_lines (Tree.lineFeed_not_mem_text (h.every.imp fun _ _ hnode => hnode.2)), statements,
    List.map_map]
  rfl

end Tree.IsNested

/-! ## Blocks -/

/-- The lines of host code. -/
structure HostBlock where
  /-- The line of the code itself. -/
  own : Emitted
  /-- The lines that are nested below it. -/
  inner : List Emitted
  /-- The line that closes its call. -/
  closing : Option Emitted

/-- All lines of host code, in order. -/
def HostBlock.lines (block : HostBlock) : List Emitted :=
  block.own :: block.inner ++ block.closing.toList

/-- Host code encloses what is nested below it: it stands at the indentation of its level
and the rest deeper, and a closing line, which an inserted function body and nothing else
has, closes the parentheses that were opened in front of the code. -/
structure HostBlock.Encloses (block : HostBlock) (path : List Nat) (label : Node)
    (script : Script) (hasContent : Bool) : Prop where
  origin : block.own.origin = path
  indent : (block.own.line.indent : Int) = 2 * label.directive.position.code.toInt
  inner : ∀ emitted ∈ block.inner, (∃ index rest, emitted.origin = path ++ index :: rest)
    ∧ block.own.line.indent < emitted.line.indent
  closes : block.closing.isSome = true ↔
    script.mode ≠ .running ∧ hasContent = true ∧ script.opensBlock = true
  closing : ∀ emitted ∈ block.closing, emitted.origin = path
    ∧ emitted.line.indent = block.own.line.indent
    ∧ ∃ opening, block.own.statement.source = opening ++ script.code
      ∧ emitted.statement.source
        = List.replicate (opening.count Byte.openParen) Byte.closeParen

/-- A call is closed as often as it was opened. -/
theorem Action.exists_opening (code : Bytes) (escaped : Bool) (width width' : Nat) :
    ∃ opening, (Action.openCall code escaped).source (spaces width) = opening ++ code
      ∧ (Action.closeCall escaped).source (spaces width')
        = List.replicate (opening.count Byte.openParen) Byte.closeParen := by
  refine ⟨_, rfl, ?_⟩
  have hspaces : (spaces width).count Byte.openParen = 0 := by
    rw [List.count_eq_zero]
    intro hmem
    exact absurd (List.eq_of_mem_replicate hmem) (by decide)
  have hindent : (if (spaces width).isEmpty then []
      else Byte.quote :: spaces width ++ ascii "\" + ").count Byte.openParen = 0 := by
    split
    · rfl
    · rw [List.cons_append, List.count_cons, List.count_append, hspaces]
      rfl
  rw [List.count_append, List.count_append, hindent]
  cases escaped <;> rfl

namespace Tree.IsNested

/-- The statements at the top of a tree of host code form a block. -/
theorem exists_encloses {level : Nat} {label : Node} {content : List Tree}
    (h : (Tree.node label content).IsNested level) {script : Script}
    (hscript : label.script? = some script) :
    ∃ block : HostBlock, (Tree.node label content).emitted = block.lines
      ∧ block.Encloses [] label script (!content.isEmpty) := by
  rcases emitted_script hscript content with ⟨action, closing, hemitted, hcloses, hclosing⟩
  have hindent := h.indent_line
  rw [hemitted] at hindent
  simp only [List.mem_append, List.mem_cons, Option.mem_toList] at hindent
  have hown : (Emitted.own label action).line.indent = label.directive.position.codeWidth :=
    hindent _ (.inl (.inl rfl))
  cases h with
  | node hloose hline hlevel hchildren =>
    have hwidth := width_eq hlevel
    have hlayered : Emitted.Layered (2 * (level + 1)) (some []) (emittedAll label 0 content) := by
      have hcontent := Emitted.Layered.emittedAll
        (fun child hmem => (hchildren child hmem).layered) label 0
      simpa only [hscript, Option.isSome_some, if_true] using hcontent
    refine ⟨⟨.own label action, emittedAll label 0 content, closing.map (Emitted.own label)⟩,
      hemitted, rfl, ?_, ?_, by simpa using hcloses, ?_⟩
    · rw [hown, hwidth, hlevel]
      push_cast
      rfl
    · intro emitted hmem
      rcases mem_emittedAll hmem with ⟨index, child, inner, -, -, rfl⟩
      refine ⟨⟨0 + index, inner.origin, rfl⟩, ?_⟩
      have hdeep := hlayered.deep _ hmem
      rw [hown, hwidth, hindent _ (.inl (.inr hmem))]
      omega
    · intro emitted hmem
      rcases Option.map_eq_some_iff.1 hmem with ⟨action', haction', rfl⟩
      rcases hclosing action' haction' with ⟨escaped, rfl, rfl⟩
      refine ⟨rfl, ?_, Action.exists_opening _ _ _ _⟩
      rw [hown]
      exact hindent _ (.inr hmem)

/-- The lines of host code stand together, wherever it is in a tree. -/
theorem exists_block {level : Nat} {tree : Tree} (h : tree.IsNested level) {path : List Nat}
    {label : Node} {content : List Tree} (hreaches : tree.Reaches path (.node label content))
    {script : Script} (hscript : script ∈ label.script?) :
    ∃ before block after, tree.emitted = before ++ HostBlock.lines block ++ after
      ∧ block.Encloses path label script (!content.isEmpty)
      ∧ ∀ emitted ∈ before ++ after, ¬path <+: emitted.origin := by
  rcases h.of_reaches hreaches with ⟨level', htarget⟩
  rcases htarget.exists_encloses hscript with ⟨⟨own, inner, closing⟩, hlines, hencloses⟩
  rcases hreaches.exists_split with ⟨before, after, lift, hemitted, hlift, hothers⟩
  have hline (emitted : Emitted) : (lift emitted).line = emitted.line := by
    rw [Emitted.line, (hlift emitted).2, Emitted.line]
  refine ⟨before, ⟨lift own, inner.map lift, closing.map lift⟩, after, ?_, ?_, hothers⟩
  · rw [hemitted, hlines]
    simp only [HostBlock.lines, List.map_append, List.map_cons, Option.toList_map]
  · refine ⟨?_, ?_, ?_, ?_, ?_⟩
    · rw [(hlift own).1, hencloses.origin, List.append_nil]
    · rw [hline]
      exact hencloses.indent
    · intro emitted hmem
      rcases List.mem_map.1 hmem with ⟨emitted, hinner, rfl⟩
      rcases hencloses.inner emitted hinner with ⟨⟨index, rest, horigin⟩, hdeep⟩
      simp only [hline]
      exact ⟨⟨index, rest, by rw [(hlift emitted).1, horigin]; rfl⟩, hdeep⟩
    · rw [Option.isSome_map]
      exact hencloses.closes
    · intro emitted hmem
      rcases Option.map_eq_some_iff.1 hmem with ⟨emitted, hclosing, rfl⟩
      rcases hencloses.closing emitted hclosing with ⟨horigin, hindent, hsource⟩
      simp only [hline, (hlift _).2]
      exact ⟨by rw [(hlift emitted).1, horigin, List.append_nil], hindent, hsource⟩

end Tree.IsNested

/-! ## Compiling -/

/-- Statements that follow one another at one indentation are all in one block. -/
theorem Emitted.exists_block_of_isChain {group : List Emitted} (hchain : group.IsChain Agree)
    {width : Nat} (hwidth : ∀ emitted ∈ group, emitted.width = width) :
    ∃ block, ∀ emitted ∈ group, emitted.block = block := by
  induction group with
  | nil => exact ⟨none, by simp⟩
  | cons first rest ih =>
    rw [List.forall_mem_cons] at hwidth
    rw [List.isChain_cons] at hchain
    rcases ih hchain.2 hwidth.2 with ⟨block, hblock⟩
    cases rest with
    | nil => exact ⟨first.block, by simp⟩
    | cons second rest =>
      refine ⟨block, List.forall_mem_cons.2 ⟨?_, hblock⟩⟩
      rw [← hblock second (by simp)]
      exact hchain.1 second rfl (hwidth.1.trans (hwidth.2 second (by simp)).symm)

/-- Host code encloses the lines that are nested below it, and every compiled line is made
of lines that are nested in the same host code. -/
theorem compile_blocks (session maker : Session) {children : List Tree}
    (h : ∀ child ∈ children, child.IsNested 0) :
    ((Tree.node maker.root children).code false).result
        = .ok ((Tree.node maker.root children).emitted.flatMap fun emitted =>
            emitted.statement.text ++ [Byte.lineFeed])
      ∧ (∀ emitted ∈ (Tree.node maker.root children).emitted,
        Byte.lineFeed ∉ emitted.statement.text
          ∧ ∃ target, (Tree.node maker.root children).Reaches emitted.origin target)
      ∧ (∀ path label content, ∀ script ∈ label.script?,
        (Tree.node maker.root children).Reaches path (.node label content) →
        ∃ before block after,
          (Tree.node maker.root children).emitted = before ++ HostBlock.lines block ++ after
            ∧ block.Encloses path label script (!content.isEmpty)
            ∧ ∀ emitted ∈ before ++ after, ¬path <+: emitted.origin)
      ∧ ∃ (groups : List (List Emitted)) (lines : List Line),
        groups.flatten = (Tree.node maker.root children).emitted
          ∧ (session.compile false (.node maker.root children)).result
            = .ok (lines.map fun line => line.print ++ [Byte.lineFeed])
          ∧ (∀ line ∈ lines, Byte.lineFeed ∉ line.print)
          ∧ List.Forall₂ (fun group line =>
              (∃ block, ∀ emitted ∈ group, emitted.block = block)
                ∧ Line.Gathers (group.map Emitted.line) line) groups lines := by
  have htree : (Tree.node maker.root children).IsNested 0 :=
    .node maker.root_isLoose (by rintro script ⟨⟩) rfl h
  have hloose := htree.every.imp fun _ _ hnode => hnode.1
  refine ⟨?_, ?_, ?_, ?_⟩
  · have hrender := Tree.render_eq_statements hloose
    rw [Tree.code, Logged.bind_result_ok hrender, printFragments_statements, Tree.statements,
      List.flatMap_map]
    rfl
  · intro emitted hmem
    exact ⟨htree.lineFeed_not_mem_text emitted hmem,
      Tree.reaches_of_mem_emitted hloose emitted hmem⟩
  · intro path label content script hscript hreaches
    exact htree.exists_block hreaches hscript
  · let emitted := (Tree.node maker.root children).emitted
    have hgrouped := (gathered_resolveMarks (emitted.map Emitted.line)).of_map
    have hblock : ∀ group line, group <:+: emitted → Line.Gathers (group.map Emitted.line) line →
        (∃ block, ∀ emitted ∈ group, emitted.block = block)
          ∧ Line.Gathers (group.map Emitted.line) line := by
      intro group line hpart hgathers
      have hwidth : ∀ emitted ∈ group, emitted.width = line.indent := by
        intro emitted hmem
        rw [← htree.indent_line emitted (hpart.subset hmem)]
        exact congrArg LineKind.indent (hgathers.kind _ (List.mem_map_of_mem hmem))
      have hchain := List.IsChain.infix htree.layered.chain hpart
      exact ⟨Emitted.exists_block_of_isChain hchain hwidth, hgathers⟩
    rcases (hgrouped.mono hblock).exists_groups with ⟨groups, hflatten, hgroups⟩
    refine ⟨groups, resolveMarks (emitted.map Emitted.line), hflatten, ?_, ?_, hgroups⟩
    · rw [compile_statements session hloose, htree.lines_statements]
    · intro line hline
      rw [← htree.lines_statements] at hline
      exact lineFeed_not_mem_of_mem_resolveMarks hline

/-- A list that a function body prints in a loop, with items that pull their neighbours
in. -/
theorem compile_blocks_of_function_body :
    (∃ before block after,
      (Session.template {} [.item .element (ascii "%ul") {} [
          .item .script (ascii "= @each ->") ⟨1, 0⟩ [
            .item .element (ascii "%li><") ⟨2, 1⟩ [.item .text (ascii "a") ⟨3, 1⟩ []]]]]).emitted
          = before ++ HostBlock.lines block ++ after
        ∧ block.own.origin = [0, 0] ∧ block.closing.isSome = true
        ∧ block.own.line.indent = 0 ∧ ∀ emitted ∈ block.inner, 0 < emitted.line.indent)
    ∧ ∃ (groups : List (List Emitted)) (lines : List Line),
      (Session.compile {} false (Session.template {} [.item .element (ascii "%ul") {} [
          .item .script (ascii "= @each ->") ⟨1, 0⟩ [
            .item .element (ascii "%li><") ⟨2, 1⟩ [.item .text (ascii "a") ⟨3, 1⟩ []]]]])).result
          = .ok (lines.map fun line => line.print ++ [Byte.lineFeed])
        ∧ List.Forall₂ (fun group line =>
            (∃ block, ∀ emitted ∈ group, emitted.block = block)
              ∧ Line.Gathers (group.map Emitted.line) line) groups lines := by
  have hnested : ∀ child ∈ Session.growAll {} [.item .element (ascii "%ul") {} [
      .item .script (ascii "= @each ->") ⟨1, 0⟩ [
        .item .element (ascii "%li><") ⟨2, 1⟩ [.item .text (ascii "a") ⟨3, 1⟩ []]]]],
      child.IsNested 0 := by
    simp only [Session.growAll, Session.grow, List.forall_mem_singleton]
    refine .node ⟨rfl, by decide +kernel, by decide⟩ (by rintro script ⟨⟩) rfl ?_
    rw [List.forall_mem_singleton]
    refine .node ⟨rfl, rfl, by decide⟩ ?_ rfl ?_
    · rintro script ⟨rfl⟩
      decide
    · rw [List.forall_mem_singleton]
      refine .node ⟨rfl, by decide +kernel, by decide⟩ (by rintro script ⟨⟩) rfl ?_
      rw [List.forall_mem_singleton]
      exact .node ⟨rfl, rfl, by decide⟩ (by rintro script ⟨⟩) rfl (by simp)
  rcases compile_blocks {} {} hnested with ⟨-, -, hblocks, groups, lines, -, hresult, -, hgroups⟩
  constructor
  · rcases hblocks [0, 0] _ _ _ rfl (.nested rfl rfl (.nested (by decide +kernel) rfl .here)) with
      ⟨before, block, after, hemitted, hencloses, -⟩
    have hindent : block.own.line.indent = 0 := by
      have hlevel := hencloses.indent.trans (by decide : _ = (0 : Int))
      omega
    exact ⟨before, block, after, hemitted, hencloses.origin,
      hencloses.closes.2 ⟨by decide, rfl, by decide⟩, hindent,
      fun emitted hmem => hindent ▸ (hencloses.inner emitted hmem).2⟩
  · exact ⟨groups, lines, hresult, hgroups⟩

end TemplateCompiler
