import TemplateCompiler.Proofs.Code.Locality
import TemplateCompiler.Proofs.Code.Trimming

/-!
# Trimming the literal of a text

Where a literal cannot be joined to a neighbour, trimming concerns it alone.  If the literal is
the written form of a text, trimming at its end or at its start leaves the written form of the
trimmed text: blanks go by whole escapes, and no letter behind an escaped backslash is taken for
one.

Main results:

- Theorems {lit}`Literal.exists_escape_trimEnd_append` and
  {lit}`Literal.exists_append_escape_trimStart`: the blanks at the ends of a text are written
  apart from the rest of it.
- Theorem {lit}`Cursor.trim_escape`: trimming a written text is writing the trimmed text.
-/

namespace TemplateCompiler

/-- Blanks are written apart from the text before them. -/
theorem Literal.escape_append_blanks {blanks : Bytes} (h : ∀ c ∈ blanks, isBlank c = true)
    (text : Bytes) : escape (text ++ blanks) = escape text ++ escape blanks := by
  apply escape_append_of_head
  intro hbrace
  have hblank := h _ (List.mem_of_mem_head? hbrace)
  revert hblank
  decide

/-- A text that starts with no blank is written apart from blanks before it. -/
theorem Literal.escape_blanks_append {blanks : Bytes} (h : ∀ c ∈ blanks, isBlank c = true)
    (text : Bytes) : escape (blanks ++ text) = escape blanks ++ escape text := by
  induction blanks with
  | nil => rfl
  | cons c rest ih =>
    rw [List.forall_mem_cons] at h
    have hhash : c ≠ Byte.hash := by
      rintro rfl
      exact absurd h.1 (by decide)
    have hsame : escapeByte c (rest ++ text).head? = escapeByte c rest.head? := by
      simp only [escapeByte, hhash, false_and]
    rw [List.cons_append, escape_cons, escape_cons, ih h.2, hsame, List.append_assoc]

/-- The blanks at the end of a text are written behind the trimmed text. -/
theorem Literal.exists_escape_trimEnd_append (text : Bytes) :
    ∃ blanks, (∀ c ∈ blanks, isBlank c = true)
      ∧ escape text = escape (trimEnd text) ++ escape blanks := by
  have hblanks : ∀ c ∈ text.rtakeWhile isBlank, isBlank c = true :=
    fun _ => List.mem_rtakeWhile_imp
  refine ⟨text.rtakeWhile isBlank, hblanks, ?_⟩
  rw [← escape_append_blanks hblanks]
  exact congrArg escape List.rdropWhile_append_rtakeWhile.symm

/-- The blanks at the start of a text are written before the trimmed text. -/
theorem Literal.exists_append_escape_trimStart (text : Bytes) :
    ∃ blanks, (∀ c ∈ blanks, isBlank c = true)
      ∧ escape text = escape blanks ++ escape (trimStart text) := by
  have hblanks : ∀ c ∈ text.takeWhile isBlank, isBlank c = true :=
    fun _ => List.mem_takeWhile_imp
  refine ⟨text.takeWhile isBlank, hblanks, ?_⟩
  rw [← escape_blanks_append hblanks, trimStart, List.takeWhile_append_dropWhile]

/-! ## Literals on their own -/

namespace Cursor

/-- A literal that is not joined to the line above is trimmed on its own at its end. -/
theorem trimBefore_leave {above : List Line} {indent : Nat} {body : Bytes}
    (h : ∀ line ∈ above.head?, line.joins ⟨indent, true, body⟩ = false) (below : List Line) :
    (leave above ⟨indent, true, body⟩ below).trimBefore
      = leave above ⟨indent, true, (dropBlanksBefore body.reverse).reverse⟩ below := by
  have hpull : pullBack indent above body.reverse = (above, dropBlanksBefore body.reverse) :=
    @pullBack_append indent [] above body.reverse h
  simp only [trimBefore, leave, hpull, List.reverse_reverse]

/-- A literal that is not joined to the line below is trimmed on its own at its start. -/
theorem trimAfter_enter {below : List Line} {indent : Nat} {body : Bytes}
    (h : ∀ line ∈ below.head?, Line.joins ⟨indent, true, body⟩ line = false)
    (above : List Line) :
    (enter above ⟨indent, true, body⟩ below).trimAfter
      = enter above ⟨indent, true, dropBlanksAfter body⟩ below := by
  have hpull : pullAhead indent body below = (dropBlanksAfter body, below) :=
    @pullAhead_append indent body [] below h
  simp only [trimAfter, enter, hpull]

/-- Trimming a written text is writing the trimmed text, at its end and at its start, where it
stands in a literal that is joined to no neighbour.  What goes are written blanks, as a
whole. -/
theorem trim_escape {above below : List Line} {indent : Nat} {text : Bytes}
    (habove : ∀ line ∈ above.head?,
      line.joins ⟨indent, true, Literal.escape text⟩ = false)
    (hbelow : ∀ line ∈ below.head?,
      Line.joins ⟨indent, true, Literal.escape text⟩ line = false) :
    (leave above ⟨indent, true, Literal.escape text⟩ below).trimBefore
        = leave above ⟨indent, true, Literal.escape (trimEnd text)⟩ below
      ∧ (enter above ⟨indent, true, Literal.escape text⟩ below).trimAfter
        = enter above ⟨indent, true, Literal.escape (trimStart text)⟩ below
      ∧ (∃ blanks, (∀ c ∈ blanks, isBlank c = true)
        ∧ Literal.escape text = Literal.escape (trimEnd text) ++ Literal.escape blanks)
      ∧ ∃ blanks, (∀ c ∈ blanks, isBlank c = true)
        ∧ Literal.escape text = Literal.escape blanks ++ Literal.escape (trimStart text) := by
  refine ⟨?_, ?_, Literal.exists_escape_trimEnd_append text,
    Literal.exists_append_escape_trimStart text⟩
  · rw [trimBefore_leave habove, dropBlanksBefore_escape, List.reverse_reverse]
  · rw [trimAfter_enter hbelow, dropBlanksAfter_escape]

/-- A text between blanks that starts and ends with a backslash before a letter, beside a
literal in another block and a line of host code. -/
theorem trim_escape_of_backslashes :
    (leave [⟨2, true, ascii "a "⟩] ⟨0, true, ascii " \\n\\\\n b\\\\n\\t \\r"⟩
          [⟨0, false, ascii "x"⟩]).trimBefore.line.body = ascii " \\n\\\\n b\\\\n"
      ∧ (enter [⟨2, true, ascii "a "⟩] ⟨0, true, ascii " \\n\\\\n b\\\\n\\t \\r"⟩
          [⟨0, false, ascii "x"⟩]).trimAfter.line.body = ascii "\\\\n b\\\\n\\t \\r" := by
  have habove : ∀ line ∈ [(⟨2, true, ascii "a "⟩ : Line)].head?,
      line.joins ⟨0, true, Literal.escape (ascii " \n\\n b\\n\t \r")⟩ = false := by
    decide
  have hbelow : ∀ line ∈ [(⟨0, false, ascii "x"⟩ : Line)].head?,
      Line.joins ⟨0, true, Literal.escape (ascii " \n\\n b\\n\t \r")⟩ line = false := by
    decide
  rcases trim_escape habove hbelow with ⟨hend, hstart, -⟩
  exact ⟨congrArg (fun cursor => cursor.line.body) hend,
    congrArg (fun cursor => cursor.line.body) hstart⟩

end Cursor

end TemplateCompiler
