import Mathlib.Data.List.Forall2
import Mathlib.Logic.Relation
import TemplateCompiler.Proofs.Code.Locality

/-!
# Lines that are gathered

Resolving marks only takes marks and blanks out of lines, and joins neighbouring
pushes of literals in the same block of code.  So each line that is left was made of
consecutive lines, in order, and nothing else was lost, added or moved.

Main results:

- Theorem {lit}`Cursor.Move.gathered`: one move of a cursor gathers lines.
- Theorem {lit}`gathered_resolveMarks`: resolving all marks gathers lines.
- Theorem {lit}`Gathered.filter_isUntouched_sublist`: lines of host code without marks stay as
  they are.
-/

namespace TemplateCompiler

/-! ## Consecutive groups -/

section Groups

variable {α β : Type} {r r' : List α → β → Prop}

/-- Items that are cut into consecutive groups, one for each result. -/
inductive Grouped (r : List α → β → Prop) : List α → List β → Prop
  | nil : Grouped r [] []
  | cons {group items : List α} {b : β} {results : List β} (h : r group b)
      (hrest : Grouped r items results) : Grouped r (group ++ items) (b :: results)

namespace Grouped

theorem single {group : List α} {b : β} (h : r group b) : Grouped r group [b] := by
  simpa using cons h nil

/-- Groups of two lists are groups of their append. -/
theorem append {first second : List α} {results results' : List β}
    (h : Grouped r first results) (h' : Grouped r second results') :
    Grouped r (first ++ second) (results ++ results') := by
  induction h with
  | nil => exact h'
  | cons hgroup hrest ih =>
    rw [List.append_assoc]
    exact cons hgroup ih

/-- A relation of the groups may be replaced by one that follows from it on parts of the list. -/
theorem mono {items : List α} {results : List β} (h : Grouped r items results)
    (hr : ∀ group b, group <:+: items → r group b → r' group b) : Grouped r' items results := by
  induction h with
  | nil => exact nil
  | @cons group rest b results hgroup hrest ih =>
    refine cons (hr _ _ (List.prefix_append group rest).isInfix hgroup) (ih ?_)
    intro other b' hpart
    exact hr _ _ (hpart.trans (List.suffix_append group rest).isInfix)

/-- A list that is one group is related as a whole. -/
theorem of_singleton {items : List α} {b : β} (h : Grouped r items [b]) : r items b := by
  cases h with
  | cons hgroup hrest =>
    cases hrest
    simpa using hgroup

/-- The items of the first results stand before those of the others. -/
theorem exists_append {items : List α} {results results' : List β}
    (h : Grouped r items (results ++ results')) :
    ∃ first second, items = first ++ second ∧ Grouped r first results
      ∧ Grouped r second results' := by
  induction results generalizing items with
  | nil => exact ⟨[], items, rfl, nil, h⟩
  | cons b results ih =>
    cases h with
    | @cons group rest _ _ hgroup hrest =>
      rcases ih hrest with ⟨first, second, rfl, hfirst, hsecond⟩
      exact ⟨group ++ first, second, by simp, cons hgroup hfirst, hsecond⟩

/-- The groups, written out. -/
theorem exists_groups {items : List α} {results : List β} (h : Grouped r items results) :
    ∃ groups : List (List α), groups.flatten = items ∧ List.Forall₂ r groups results := by
  induction h with
  | nil => exact ⟨[], rfl, .nil⟩
  | @cons group items b results hgroup hrest ih =>
    rcases ih with ⟨groups, hflatten, hgroups⟩
    exact ⟨group :: groups, by simp [hflatten], .cons hgroup hgroups⟩

/-- Items with a view are grouped as their views are. -/
theorem of_map {γ : Type} {view : γ → α} {items : List γ} {results : List β}
    (h : Grouped r (items.map view) results) :
    Grouped (fun group b => r (group.map view) b) items results := by
  generalize hviews : items.map view = views at h
  induction h generalizing items with
  | nil =>
    rw [List.map_eq_nil_iff.1 hviews]
    exact nil
  | cons hgroup hrest ih =>
    rcases List.map_eq_append_iff.1 hviews with ⟨first, second, rfl, rfl, hsecond⟩
    exact cons hgroup (ih hsecond)

end Grouped

end Groups

/-! ## Deletions -/

/-- One deletion from the body of a line: a mark, or in a literal also a blank. -/
inductive Deletes (literal : Bool) : Bytes → Bytes → Prop
  | mark {c : UInt8} (before after : Bytes) (hc : c = leftMark ∨ c = rightMark) :
      Deletes literal (before ++ c :: after) (before ++ after)
  | blank {c : UInt8} (before after : Bytes) (hliteral : literal = true)
      (hc : isPlainBlank c = true) : Deletes literal (before ++ c :: after) (before ++ after)
  | escape {c : UInt8} (before after : Bytes) (hliteral : literal = true)
      (hc : isBlankLetter c = true) :
      Deletes literal (before ++ Byte.backslash :: c :: after) (before ++ after)

/-- What is left of a body after some deletions. -/
abbrev Condenses (literal : Bool) : Bytes → Bytes → Prop :=
  Relation.ReflTransGen (Deletes literal)

private theorem Deletes.append_left {literal : Bool} {s t : Bytes} (h : Deletes literal s t)
    (front : Bytes) : Deletes literal (front ++ s) (front ++ t) := by
  cases h with
  | mark before after hc =>
    have hmark : Deletes literal _ _ := .mark (front ++ before) after hc
    simpa using hmark
  | blank before after hliteral hc =>
    simpa using Deletes.blank (front ++ before) after hliteral hc
  | escape before after hliteral hc =>
    simpa using Deletes.escape (front ++ before) after hliteral hc

private theorem Deletes.append_right {literal : Bool} {s t : Bytes} (h : Deletes literal s t)
    (back : Bytes) : Deletes literal (s ++ back) (t ++ back) := by
  cases h with
  | mark before after hc =>
    have hmark : Deletes literal _ _ := .mark before (after ++ back) hc
    simpa using hmark
  | blank before after hliteral hc =>
    simpa using Deletes.blank before (after ++ back) hliteral hc
  | escape before after hliteral hc =>
    simpa using Deletes.escape before (after ++ back) hliteral hc

namespace Condenses

variable {literal : Bool}

/-- Two texts can be condensed side by side. -/
theorem append {s s' t t' : Bytes} (h : Condenses literal s s') (h' : Condenses literal t t') :
    Condenses literal (s ++ t) (s' ++ t') := by
  have hfirst : Condenses literal (s ++ t) (s' ++ t) :=
    h.lift (· ++ t) fun _ _ hdelete => hdelete.append_right t
  have hsecond : Condenses literal (s' ++ t) (s' ++ t') :=
    h'.lift (s' ++ ·) fun _ _ hdelete => hdelete.append_left s'
  exact hfirst.trans hsecond

private theorem cons_mark {c : UInt8} (hc : c = leftMark ∨ c = rightMark) (rest : Bytes) :
    Condenses literal (c :: rest) rest :=
  .single (.mark [] rest hc)

/-- Deletions leave the other bytes in order. -/
theorem sublist {s t : Bytes} (h : Condenses literal s t) : t.Sublist s := by
  induction h with
  | refl => exact List.Sublist.refl _
  | tail hcondense hdelete ih =>
    refine List.Sublist.trans ?_ ih
    cases hdelete with
    | mark before after hc | blank before after hliteral hc =>
      exact (List.Sublist.refl before).append (List.sublist_cons_self _ after)
    | @escape c before after hliteral hc =>
      have htail := ((List.Sublist.refl after).cons c).cons Byte.backslash
      exact (List.Sublist.refl before).append htail

/-- Host code without marks is not changed. -/
theorem eq_of_unmarked {s t : Bytes} (h : Condenses false s t) (hunmarked : Unmarked s) :
    t = s := by
  induction h using Relation.ReflTransGen.head_induction_on with
  | refl => rfl
  | head hdelete hrest ih =>
    cases hdelete with
    | @mark c before after hc =>
      have hmem : c ∈ before ++ c :: after := by simp
      rcases hunmarked.ne_of_mem hmem with ⟨hleft, hright⟩
      exact absurd hc (not_or.2 ⟨hleft, hright⟩)
    | blank before after hliteral hc => exact absurd hliteral (by simp)
    | escape before after hliteral hc => exact absurd hliteral (by simp)

/-- Dropping blanks at the start of a literal condenses it. -/
theorem dropBlanksAfter (after : Bytes) :
    Condenses true after (TemplateCompiler.dropBlanksAfter after) := by
  fun_induction TemplateCompiler.dropBlanksAfter after with
  | case2 c rest hblank ih => exact .head (.blank [] rest rfl hblank) ih
  | case4 c hblank d rest hescape ih =>
    simp only [Bool.and_eq_true, beq_iff_eq] at hescape
    rw [hescape.1]
    exact .head (.escape [] rest rfl hescape.2) ih
  | case1 | case3 | case5 => exact .refl

/-- Of an odd run of backslashes, the first one belongs to the letter in front of
it. -/
theorem dropBlanksBefore (before : Bytes) :
    Condenses true before.reverse (TemplateCompiler.dropBlanksBefore before).reverse := by
  fun_induction TemplateCompiler.dropBlanksBefore before with
  | case2 c rest hblank ih =>
    have hdelete := Deletes.blank rest.reverse [] rfl hblank
    simp only [List.append_nil] at hdelete
    rw [List.reverse_cons]
    exact .head hdelete ih
  | case4 c hblank d rest hescape ih =>
    simp only [Bool.and_eq_true] at hescape
    have hd : d = Byte.backslash := by
      by_contra hne
      simp [endsInEscape, hne] at hescape
    have hdelete := Deletes.escape rest.reverse [] rfl hescape.1
    simp only [List.append_nil] at hdelete
    rw [hd, List.reverse_cons, List.reverse_cons, List.append_assoc]
    exact .head hdelete ih
  | case1 | case3 | case5 => exact .refl

end Condenses

/-! ## Gathered lines -/

/-- A line is made of consecutive lines of its kind, of more than one only if they
push literals; of their bodies only marks and blanks are left out. -/
structure Line.Gathers (group : List Line) (line : Line) : Prop where
  ne_nil : group ≠ []
  kind : ∀ other ∈ group, other.kind = line.kind
  literal : 1 < group.length → line.literal = true
  body : Condenses line.literal (group.flatMap Line.body) line.body

/-- Lines that are gathered from other lines. -/
abbrev Gathered : List Line → List Line → Prop :=
  Grouped Line.Gathers

private theorem Line.Gathers.of_condenses {indent : Nat} {literal : Bool} {body body' : Bytes}
    (h : Condenses literal body body') :
    Line.Gathers [⟨indent, literal, body⟩] ⟨indent, literal, body'⟩ where
  ne_nil := by simp
  kind := by simp [Line.kind]
  literal := by simp
  body := by simpa using h

/-- A literal and the one below it are joined. -/
theorem Line.Gathers.join (indent : Nat) (first second : Bytes) :
    Line.Gathers [⟨indent, true, first⟩, ⟨indent, true, second⟩]
      ⟨indent, true, first ++ second⟩ where
  ne_nil := by simp
  kind := by simp [Line.kind]
  literal := by simp
  body := by simpa using Relation.ReflTransGen.refl

namespace Gathered

theorem refl (lines : List Line) : Gathered lines lines := by
  induction lines with
  | nil => exact .nil
  | cons line rest ih => exact .cons (Line.Gathers.of_condenses .refl) ih

/-- What is gathered from lines of one kind is made of all the lines below. -/
theorem flatMap_body {lines group : List Line} {kind : LineKind} (h : Gathered lines group)
    (hkind : ∀ line ∈ group, line.kind = kind) :
    (∀ line ∈ lines, line.kind = kind)
      ∧ Condenses kind.literal (lines.flatMap Line.body) (group.flatMap Line.body) := by
  induction h with
  | nil => exact ⟨by simp, .refl⟩
  | @cons first rest line results hfirst hrest ih =>
    rw [List.forall_mem_cons] at hkind
    rcases ih hkind.2 with ⟨hrestKind, hrestBody⟩
    have hfirstBody := hfirst.body
    have hliteral : line.literal = kind.literal := congrArg LineKind.literal hkind.1
    rw [hliteral] at hfirstBody
    constructor
    · intro other hmem
      rcases List.mem_append.1 hmem with hmem | hmem
      · exact (hfirst.kind other hmem).trans hkind.1
      · exact hrestKind other hmem
    · rw [List.flatMap_append, List.flatMap_cons]
      exact hfirstBody.append hrestBody

private theorem length_le {lines results : List Line} (h : Gathered lines results) :
    results.length ≤ lines.length := by
  induction h with
  | nil => simp
  | cons hfirst hrest ih =>
    have := List.length_pos_iff.2 hfirst.ne_nil
    simp only [List.length_cons, List.length_append]
    omega

/-- A line gathered from gathered lines is gathered. -/
theorem gathers {lines group : List Line} {line : Line} (h : Gathered lines group)
    (hline : Line.Gathers group line) : Line.Gathers lines line := by
  rcases h.flatMap_body hline.kind with ⟨hkind, hbody⟩
  refine ⟨?_, hkind, ?_, hbody.trans hline.body⟩
  · rintro rfl
    have hle := h.length_le
    exact hline.ne_nil (List.length_eq_zero_iff.1 (Nat.le_zero.1 hle))
  · intro hlength
    -- Either several groups were joined, or the only group has several lines.
    by_cases hone : 1 < group.length
    · exact hline.literal hone
    · cases h with
      | nil => simp at hlength
      | @cons first rest other results hfirst hrest =>
        have hresults : results = [] := by
          have : results.length = 0 := by
            simp only [List.length_cons] at hone
            omega
          exact List.length_eq_zero_iff.1 this
        subst hresults
        cases hrest
        rw [List.append_nil] at hlength
        have hother : other.kind = line.kind := hline.kind other (by simp)
        exact (congrArg LineKind.literal hother).symm.trans (hfirst.literal hlength)

theorem trans {first second third : List Line} (h : Gathered first second)
    (h' : Gathered second third) : Gathered first third := by
  induction h' generalizing first with
  | nil => exact h
  | cons hgroup hrest ih =>
    rcases h.exists_append with ⟨upper, lower, rfl, hupper, hlower⟩
    exact .cons (gathers hupper hgroup) (ih hlower)

/-- Gathered lines hold no other bytes. -/
theorem not_mem_body {c : UInt8} {lines results : List Line}
    (h : Gathered lines results) (hlines : ∀ line ∈ lines, c ∉ line.body) :
    ∀ line ∈ results, c ∉ line.body := by
  induction h with
  | nil => simp
  | @cons group rest line results hgroup hrest ih =>
    rw [List.forall_mem_cons]
    constructor
    · intro hmem
      rcases List.mem_flatMap.1 (hgroup.body.sublist.subset hmem) with ⟨other, hother, hmem⟩
      exact hlines other (List.mem_append_left _ hother) hmem
    · exact ih fun other hother => hlines other (List.mem_append_right _ hother)

end Gathered

/-! ## Moves -/

namespace Cursor

/-- Joining upwards gathers lines. -/
theorem gathered_pullBack (indent : Nat) (above : List Line) (before after : Bytes) :
    Gathered (above.reverse ++ [⟨indent, true, before.reverse ++ after⟩])
      ((pullBack indent above before).1.reverse
        ++ [⟨indent, true, (pullBack indent above before).2.reverse ++ after⟩]) := by
  have hdrop : ∀ before : Bytes, Gathered [⟨indent, true, before.reverse ++ after⟩]
      [⟨indent, true, (dropBlanksBefore before).reverse ++ after⟩] := fun before =>
    .single (.of_condenses ((Condenses.dropBlanksBefore before).append .refl))
  fun_induction pullBack indent above before with
  | case1 before => exact hdrop before
  | case2 line above before hnil hjoin ih =>
    obtain ⟨width, literal, body⟩ := line
    simp only [Bool.and_eq_true, beq_iff_eq] at hjoin
    obtain ⟨rfl, rfl⟩ := hjoin
    have hbefore := hdrop before
    rw [hnil] at hbefore
    have hjoined : Gathered [⟨width, true, body⟩, ⟨width, true, before.reverse ++ after⟩]
        [⟨width, true, body ++ after⟩] :=
      Gathered.trans ((Gathered.refl [⟨width, true, body⟩]).append hbefore)
        (.single (.join width body after))
    have habove := (Gathered.refl above.reverse).append hjoined
    rw [List.reverse_reverse] at ih
    simpa using Gathered.trans habove ih
  | case3 line above before hnil hjoin =>
    have hbefore := hdrop before
    rw [hnil] at hbefore
    exact (Gathered.refl _).append hbefore
  | case4 line above before c kept hkept =>
    have hbefore := hdrop before
    rw [hkept] at hbefore
    exact (Gathered.refl _).append hbefore

/-- Joining downwards gathers lines. -/
theorem gathered_pullAhead (indent : Nat) (before after : Bytes) (below : List Line) :
    Gathered (⟨indent, true, before ++ after⟩ :: below)
      (⟨indent, true, before ++ (pullAhead indent after below).1⟩
        :: (pullAhead indent after below).2) := by
  have hdrop : ∀ after : Bytes, Gathered [⟨indent, true, before ++ after⟩]
      [⟨indent, true, before ++ dropBlanksAfter after⟩] := fun after =>
    .single (.of_condenses (.append .refl (Condenses.dropBlanksAfter after)))
  fun_induction pullAhead indent after below with
  | case1 after => exact hdrop after
  | case2 after line below hnil hjoin ih =>
    obtain ⟨width, literal, body⟩ := line
    simp only [Bool.and_eq_true, beq_iff_eq] at hjoin
    obtain ⟨rfl, rfl⟩ := hjoin
    have hafter := hdrop after
    rw [hnil, List.append_nil] at hafter
    have hjoined : Gathered [⟨width, true, before ++ after⟩, ⟨width, true, body⟩]
        [⟨width, true, before ++ body⟩] :=
      Gathered.trans (hafter.append (Gathered.refl [⟨width, true, body⟩]))
        (.single (.join width before body))
    exact Gathered.trans (hjoined.append (Gathered.refl below)) ih
  | case3 after line below hnil hjoin =>
    have hafter := hdrop after
    rw [hnil] at hafter
    exact hafter.append (Gathered.refl (line :: below))
  | case4 after line below c kept hkept =>
    have hafter := hdrop after
    rw [hkept] at hafter
    exact hafter.append (Gathered.refl (line :: below))

/-- Deletions in the line of a cursor gather its lines. -/
theorem gathered_of_condenses {cursor : Cursor} {after : Bytes}
    (h : Condenses cursor.literal cursor.after after) :
    Gathered cursor.lines { cursor with after := after }.lines := by
  have hline : Line.Gathers [cursor.line] { cursor with after := after }.line :=
    .of_condenses (.append .refl h)
  exact (Gathered.refl cursor.above.reverse).append (.cons hline (Gathered.refl cursor.below))

/-- One move of a cursor gathers lines. -/
theorem Move.gathered {cursor cursor' : Cursor} (h : Move cursor cursor') :
    Gathered cursor.lines cursor'.lines := by
  cases h with
  | @enter line below hafter hbelow =>
    have hlines : cursor.lines = (Cursor.enter (cursor.line :: cursor.above) line below).lines := by
      simp [lines, Cursor.enter, Cursor.line, hbelow]
    rw [hlines]
    exact Gathered.refl _
  | dropMark hafter hmark hliteral =>
    apply gathered_of_condenses
    rw [hafter]
    exact Condenses.cons_mark hmark _
  | @trimBefore rest hafter hliteral =>
    have hmark : Gathered cursor.lines { cursor with after := rest }.lines := by
      apply gathered_of_condenses
      rw [hafter]
      exact Condenses.cons_mark (.inl rfl) rest
    have hpull := (gathered_pullBack cursor.indent cursor.above cursor.before rest).append
      (Gathered.refl cursor.below)
    refine Gathered.trans hmark ?_
    simpa [lines, line, Cursor.trimBefore, hliteral] using hpull
  | @trimAfter rest hafter hliteral =>
    have hmark : Gathered cursor.lines { cursor with after := rest }.lines := by
      apply gathered_of_condenses
      rw [hafter]
      exact Condenses.cons_mark (.inr rfl) rest
    have hpull := (Gathered.refl cursor.above.reverse).append
      (gathered_pullAhead cursor.indent cursor.before.reverse rest cursor.below)
    refine Gathered.trans hmark ?_
    simpa [lines, line, Cursor.trimAfter, hliteral] using hpull
  | skip hafter hleft hright =>
    rw [lines_skip]
    exact Gathered.refl _

/-- A run of a cursor gathers lines. -/
theorem gathered_run (cursor : Cursor) : Gathered cursor.lines cursor.run := by
  fun_induction run cursor with
  | case1 cursor hnext => exact Gathered.refl _
  | case2 cursor cursor' hnext ih => exact Gathered.trans (move_of_next_eq hnext).gathered ih

end Cursor

/-- Resolving all marks gathers lines. -/
theorem gathered_resolveMarks (lines : List Line) : Gathered lines (resolveMarks lines) := by
  cases lines with
  | nil => exact .nil
  | cons line below => exact Cursor.gathered_run (.enter [] line below)

/-- Whether a line is host code without marks. -/
def Line.isUntouched (line : Line) : Bool :=
  !line.literal && decide (Unmarked line.body)

/-- Lines of host code without marks stay as they are. -/
theorem Gathered.filter_isUntouched_sublist {lines results : List Line}
    (h : Gathered lines results) : (lines.filter Line.isUntouched).Sublist results := by
  induction h with
  | nil => simp
  | @cons group rest line results hgroup hrest ih =>
    rw [List.filter_append]
    cases hliteral : line.literal with
    | true =>
      have hnone : group.filter Line.isUntouched = [] := by
        rw [List.filter_eq_nil_iff]
        intro other hmem
        have hother : other.literal = true :=
          (congrArg LineKind.literal (hgroup.kind other hmem)).trans hliteral
        simp [Line.isUntouched, hother]
      rw [hnone]
      exact ih.cons line
    | false =>
      obtain ⟨other, rfl⟩ : ∃ other, group = [other] := by
        apply List.length_eq_one_iff.1
        have hpos := List.length_pos_iff.2 hgroup.ne_nil
        have hone : ¬1 < group.length := fun hlength => by
          simp [hgroup.literal hlength] at hliteral
        omega
      have hkind := hgroup.kind other (by simp)
      have hbody := hgroup.body
      rw [hliteral, List.flatMap_singleton] at hbody
      by_cases huntouched : Line.isUntouched other = true
      · have hunmarked : Unmarked other.body := by
          simp only [Line.isUntouched, Bool.and_eq_true, decide_eq_true_eq] at huntouched
          exact huntouched.2
        have hline : line = other := by
          have hsame := hbody.eq_of_unmarked hunmarked
          obtain ⟨indent, literal, body⟩ := line
          obtain ⟨indent', literal', body'⟩ := other
          simp only [Line.kind, LineKind.mk.injEq] at hkind hsame
          simp [hkind, hsame]
        rw [hline]
        simpa [huntouched] using ih
      · simpa [huntouched] using ih.cons line

end TemplateCompiler
