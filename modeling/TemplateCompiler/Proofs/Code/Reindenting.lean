import TemplateCompiler.Proofs.Code.Move
import Mathlib.Logic.Function.Defs

/-!
# Lines with other indentations

The trim pass compares the indentations of neighbouring lines, and does nothing else with
them.  So when indentations are changed and lines that differ in theirs still do, the same
lines are joined and the same blanks go: the lines that are left are those that were left
before, with their indentations changed.

Main results:

- Theorem {lit}`Cursor.Move.reindent`: a cursor moves in the same way in lines with other
  indentations.
- Theorem {lit}`resolveMarks_reindent`: changing indentations and resolving marks commute.
- Theorem {lit}`Line.parse_spaces_append` and {lit}`Line.print_deepen`: more spaces before a
  line are read and printed as more indentation.
-/

namespace TemplateCompiler

namespace Line

/-- A line with its indentation changed. -/
def reindent (change : Nat → Nat) (line : Line) : Line :=
  { line with indent := change line.indent }

private theorem joinable_reindent {change : Nat → Nat} (hchange : change.Injective) (line : Line)
    (indent : Nat) :
    ((line.reindent change).literal && (line.reindent change).indent == change indent)
      = (line.literal && line.indent == indent) := by
  simp only [reindent, hchange.beq_eq]

end Line

namespace Cursor

variable {change : Nat → Nat}

/-- The place in lines with changed indentations. -/
def reindent (change : Nat → Nat) (cursor : Cursor) : Cursor :=
  { cursor with
    above := cursor.above.map (Line.reindent change)
    indent := change cursor.indent
    below := cursor.below.map (Line.reindent change) }

private theorem lines_reindent (change : Nat → Nat) (cursor : Cursor) :
    (cursor.reindent change).lines = cursor.lines.map (Line.reindent change) := by
  rw [lines, lines, List.map_append, List.map_reverse, List.map_cons]
  rfl

/-! ## Trimming and moving -/

private theorem pullBack_reindent (hchange : change.Injective) (indent : Nat) (above : List Line)
    (before : Bytes) :
    pullBack (change indent) (above.map (Line.reindent change)) before
      = ((pullBack indent above before).1.map (Line.reindent change),
          (pullBack indent above before).2) := by
  fun_induction pullBack indent above before with
  | case1 before => rfl
  | case2 line above before hnil hjoin ih =>
    rw [List.map_cons, pullBack, hnil]
    simp only [Line.joinable_reindent hchange, hjoin, if_true]
    exact ih
  | case3 line above before hnil hjoin =>
    rw [List.map_cons, pullBack, hnil]
    simp only [Line.joinable_reindent hchange, hjoin]
    rfl
  | case4 line above before c kept hkept =>
    rw [List.map_cons, pullBack, hkept]

private theorem pullAhead_reindent (hchange : change.Injective) (indent : Nat) (after : Bytes)
    (below : List Line) :
    pullAhead (change indent) after (below.map (Line.reindent change))
      = ((pullAhead indent after below).1,
          (pullAhead indent after below).2.map (Line.reindent change)) := by
  fun_induction pullAhead indent after below with
  | case1 after => rfl
  | case2 after line below hnil hjoin ih =>
    rw [List.map_cons, pullAhead, hnil]
    simp only [Line.joinable_reindent hchange, hjoin, if_true]
    exact ih
  | case3 after line below hnil hjoin =>
    rw [List.map_cons, pullAhead, hnil]
    simp only [Line.joinable_reindent hchange, hjoin]
    rfl
  | case4 after line below c kept hkept =>
    rw [List.map_cons, pullAhead, hkept]

/-- Trimming before a mark goes through a change of the indentations. -/
theorem trimBefore_reindent (hchange : change.Injective) (cursor : Cursor) :
    (cursor.reindent change).trimBefore = cursor.trimBefore.reindent change := by
  simp only [trimBefore, reindent, pullBack_reindent hchange]

/-- Trimming after a mark goes through a change of the indentations. -/
theorem trimAfter_reindent (hchange : change.Injective) (cursor : Cursor) :
    (cursor.reindent change).trimAfter = cursor.trimAfter.reindent change := by
  simp only [trimAfter, reindent, pullAhead_reindent hchange]

/-- A cursor moves in the same way in lines with other indentations. -/
theorem Move.reindent (hchange : change.Injective) {cursor cursor' : Cursor}
    (h : Move cursor cursor') : Move (cursor.reindent change) (cursor'.reindent change) := by
  cases h with
  | @enter line below hafter hbelow =>
    have hend : (cursor.reindent change).after = [] := hafter
    have hnext : (cursor.reindent change).below
        = line.reindent change :: below.map (Line.reindent change) := by
      rw [Cursor.reindent, hbelow, List.map_cons]
    exact .enter hend hnext
  | dropMark hafter hmark hliteral => exact .dropMark hafter hmark hliteral
  | trimBefore hafter hliteral =>
    rw [← trimBefore_reindent hchange]
    exact .trimBefore hafter hliteral
  | trimAfter hafter hliteral =>
    rw [← trimAfter_reindent hchange]
    exact .trimAfter hafter hliteral
  | skip hafter hleft hright => exact .skip hafter hleft hright

/-- A run goes through a change of the indentations. -/
theorem run_reindent (hchange : change.Injective) (cursor : Cursor) :
    (cursor.reindent change).run = cursor.run.map (Line.reindent change) := by
  fun_induction run cursor with
  | case1 cursor hnext =>
    rw [next_eq_none_iff] at hnext
    have hend : (cursor.reindent change).next = none :=
      (next_eq_none_iff _).2 ⟨hnext.1, List.map_eq_nil_iff.2 hnext.2⟩
    rw [run_of_next_eq_none hend, lines_reindent]
  | case2 cursor cursor' hnext ih =>
    rw [run_of_move ((move_of_next_eq hnext).reindent hchange), ih]

end Cursor

/-- Changing indentations and resolving marks commute. -/
theorem resolveMarks_reindent {change : Nat → Nat} (hchange : change.Injective)
    (lines : List Line) :
    resolveMarks (lines.map (Line.reindent change))
      = (resolveMarks lines).map (Line.reindent change) := by
  cases lines with
  | nil => rfl
  | cons line below => exact Cursor.run_reindent hchange (Cursor.enter [] line below)

/-! ## More spaces -/

/-- A line that stands further in. -/
def Line.deepen (width : Nat) : Line → Line :=
  Line.reindent (· + width)

theorem spaces_append_spaces (first second : Nat) :
    spaces first ++ spaces second = spaces (first + second) :=
  List.replicate_append_replicate

namespace Line

/-- Spaces before a line are read as indentation. -/
theorem parse_spaces_append (width : Nat) (text : Bytes) :
    parse (spaces width ++ text) = (parse text).deepen width := by
  have hspace : ∀ c ∈ spaces width, (c == Byte.space) = true := by
    intro c hc
    rw [List.eq_of_mem_replicate hc, beq_self_eq_true]
  rw [parse, parse, List.dropWhile_append_of_pos hspace, List.takeWhile_append_of_pos hspace,
    List.length_append, length_spaces, Nat.add_comm]
  simp only [apply_ite (deepen width)]
  rfl

/-- More indentation is printed as spaces before a line. -/
theorem print_deepen (width : Nat) (line : Line) :
    (line.deepen width).print = spaces width ++ line.print := by
  rw [print, print, ← List.append_assoc, spaces_append_spaces, Nat.add_comm width]
  rfl

end Line

end TemplateCompiler
