import TemplateCompiler.Proofs.Code.Atom
import TemplateCompiler.Proofs.Code.Gathering

/-!
# Lines of statements

What is written for statements is found by reading each of them back as lines.  A statement
is one line unless its host code has several, and is read back as the indentation and the
source that it was printed from.

Main results:

- Theorem {lit}`trimmedChunks_statements`: what is written for statements are their lines
  with their marks resolved.
- Theorem {lit}`Statement.parse_text`: a statement is read back as its indentation and its
  source.
- Theorem {lit}`Statement.not_mem_text`: a statement has no bytes but those of its text or
  host code, and those that are put round them.
-/

namespace TemplateCompiler

namespace Statement

/-- A statement without its line feed. -/
def text (statement : Statement) : Bytes :=
  spaces statement.margin.code ++ statement.source

/-- The lines of a statement; host code may have several. -/
def lines (statement : Statement) : List Line :=
  (fields Byte.lineFeed statement.text).map Line.parse

private theorem print_eq (statement : Statement) :
    statement.print = statement.text ++ [Byte.lineFeed] :=
  rfl

/-- A statement without line feeds is one line. -/
theorem lines_of_not_mem {statement : Statement} (h : Byte.lineFeed ∉ statement.text) :
    statement.lines = [Line.parse statement.text] := by
  rw [lines, fields_of_not_mem h]
  rfl

end Statement

/-- Statements without line feeds are one line each. -/
theorem flatMap_lines {statements : List Statement}
    (h : ∀ statement ∈ statements, Byte.lineFeed ∉ statement.text) :
    statements.flatMap Statement.lines
      = statements.map fun statement => Line.parse statement.text := by
  induction statements with
  | nil => rfl
  | cons statement rest ih =>
    rw [List.forall_mem_cons] at h
    rw [List.flatMap_cons, ih h.2, Statement.lines_of_not_mem h.1, List.map_cons,
      List.singleton_append]

/-- The lines of joined texts are those of each text. -/
theorem fields_flatMap (separator : UInt8) (texts : List Bytes) :
    fields separator (texts.flatMap fun text => text ++ [separator])
      = texts.flatMap (fields separator) ++ [[]] := by
  induction texts with
  | nil => rfl
  | cons text rest ih =>
    rw [List.flatMap_cons, List.append_assoc, List.singleton_append, fields_append_separator, ih,
      List.flatMap_cons, List.append_assoc]

/-- Printed statements are read back as their lines. -/
theorem Listing.parse_statements (statements : List Statement) :
    Listing.parse (statements.flatMap Statement.print)
      = ⟨statements.flatMap Statement.lines, !statements.isEmpty⟩ := by
  cases statements with
  | nil => rfl
  | cons statement rest =>
    have hcode : (statement :: rest).flatMap Statement.print
        = ((statement :: rest).map Statement.text).flatMap fun text => text ++ [Byte.lineFeed] := by
      rw [List.flatMap_map]
      rfl
    have hne : (statement :: rest).flatMap Statement.print ≠ [] := by
      simp [Statement.print_eq]
    have hfields := fields_flatMap Byte.lineFeed ((statement :: rest).map Statement.text)
    rw [← hcode] at hfields
    rw [parse_of_fields hne hfields, List.flatMap_map, List.map_flatMap]
    rfl

/-- What is written for statements: the lines that are left when the marks in them are
resolved. -/
theorem trimmedChunks_statements (statements : List Statement) :
    trimmedChunks (statements.flatMap Statement.print)
      = (resolveMarks (statements.flatMap Statement.lines)).map fun line =>
          line.print ++ [Byte.lineFeed] := by
  rw [trimmedChunks, Listing.parse_statements]
  cases statements with
  | nil => rfl
  | cons statement rest => exact Listing.chunksOf_true _

private theorem Statement.lineFeed_not_mem_lines (statement : Statement) :
    ∀ line ∈ statement.lines, Byte.lineFeed ∉ line.body := by
  intro line hline hmem
  rcases List.mem_map.1 hline with ⟨field, hfield, rfl⟩
  exact not_mem_of_mem_fields hfield (Line.body_parse_subset field hmem)

private theorem Line.lineFeed_not_mem_print {line : Line} (h : Byte.lineFeed ∉ line.body) :
    Byte.lineFeed ∉ line.print := by
  simp only [print, List.mem_append, not_or]
  refine ⟨lineFeed_not_mem_spaces line.indent, ?_⟩
  split
  · exact lineFeed_not_mem_pushLiteral h
  · exact h

/-- A line that is left when marks are resolved is one line of code. -/
theorem lineFeed_not_mem_of_mem_resolveMarks {statements : List Statement} {line : Line}
    (h : line ∈ resolveMarks (statements.flatMap Statement.lines)) :
    Byte.lineFeed ∉ line.print := by
  refine Line.lineFeed_not_mem_print ((gathered_resolveMarks _).not_mem_body ?_ line h)
  intro other hother
  rcases List.mem_flatMap.1 hother with ⟨statement, -, hother⟩
  exact statement.lineFeed_not_mem_lines other hother

/-! ## Sources -/

namespace Action

/-- The host code of an action. -/
def code? : Action → Option Bytes
  | .pushValue code _ | .run code | .openCall code _ => some code
  | .pushText _ | .closeCall _ => none

end Action

/-- The source of a statement starts behind its indentation. -/
theorem Statement.head?_source {statement : Statement}
    (h : ∀ code ∈ statement.action.code?, ∀ c ∈ code.head?, isBlank c = false) :
    statement.source.head? ≠ some Byte.space := by
  have hdollar : some (0x24 : UInt8) ≠ some Byte.space := by decide
  obtain ⟨margin, action⟩ := statement
  simp only [source]
  cases action with
  | pushText text => exact hdollar
  | pushValue code escaped =>
    simp only [Action.source]
    split <;> exact hdollar
  | run code =>
    intro hspace
    have hblank := h code rfl Byte.space hspace
    exact absurd hblank (by decide)
  | openCall code escaped => exact hdollar
  | closeCall escaped =>
    simp only [Action.source]
    cases escaped <;> decide

/-- A statement is read back as its indentation and its source. -/
theorem Statement.parse_text {statement : Statement}
    (h : ∀ code ∈ statement.action.code?, ∀ c ∈ code.head?, isBlank c = false) :
    Line.parse statement.text
      = if Line.isLiteral statement.source then
          ⟨statement.margin.code, true, (statement.source.drop pushOpening.length).dropLast⟩
        else ⟨statement.margin.code, false, statement.source⟩ :=
  Line.parse_spaces _ (head?_source h)

/-- The bytes that statements put round the texts and the host code in them. -/
def statementBytes : Bytes :=
  ascii "$o.push(\"$e(\" + #\x7b\x7d))"

/-- A byte of a statement is one of these, or stands in the text or in the host code. -/
theorem Statement.not_mem_text {c : UInt8} {statement : Statement} (hc : c ∉ statementBytes)
    (htext : ∀ text, statement.action = .pushText text →
      c ∉ Literal.escape (spaces statement.margin.markup ++ text))
    (hcode : ∀ code ∈ statement.action.code?, c ∉ code) : c ∉ statement.text := by
  have hfixed {part : Bytes} (h : part ⊆ statementBytes) : c ∉ part := fun hmem => hc (h hmem)
  have hspaces (width : Nat) : c ∉ spaces width := by
    intro hmem
    rw [List.eq_of_mem_replicate hmem] at hc
    exact hc (by decide)
  have hpush : c ∉ ascii "$o.push " := hfixed (by decide)
  have hopen : c ∉ ascii "$o.push(" := hfixed (by decide)
  have hescape : c ∉ ascii "$e(" := hfixed (by decide)
  have hliteral {body : Bytes} (hbody : c ∉ body) : c ∉ pushLiteral body := by
    have hopening : c ∉ pushOpening := hfixed (by decide)
    have hquote : c ∉ [Byte.quote] := hfixed (by decide)
    simp only [pushLiteral, List.mem_append, not_or]
    exact ⟨⟨hopening, hbody⟩, hquote⟩
  rw [Statement.text, List.mem_append, not_or]
  refine ⟨hspaces _, ?_⟩
  obtain ⟨⟨width, markup⟩, action⟩ := statement
  cases action with
  | pushText text => exact hliteral (htext text rfl)
  | pushValue code escaped =>
    have hvalue := not_mem_valueSource (hcode code rfl) hescape (hfixed (by decide)) escaped
    simp only [Statement.source, Action.source]
    split
    · rw [List.mem_append, not_or]
      exact ⟨hpush, hvalue⟩
    · have hbrace : c ∉ ascii "#\x7b" := hfixed (by decide)
      have hclose : c ∉ ascii "\x7d" := hfixed (by decide)
      apply hliteral
      simp only [List.mem_append, not_or]
      exact ⟨⟨⟨hspaces _, hbrace⟩, hvalue⟩, hclose⟩
  | run code => exact hcode code rfl
  | openCall code escaped =>
    have hindent : c ∉ (if (spaces markup).isEmpty then []
        else Byte.quote :: spaces markup ++ ascii "\" + ") := by
      split
      · exact List.not_mem_nil
      · have hquote : c ∉ [Byte.quote] := hfixed (by decide)
        have hplus : c ∉ ascii "\" + " := hfixed (by decide)
        rw [← List.singleton_append, List.mem_append, List.mem_append, not_or, not_or]
        exact ⟨⟨hquote, hspaces _⟩, hplus⟩
    have hhelper : c ∉ (if escaped then ascii "$e(" else []) := by
      split
      · exact hescape
      · exact List.not_mem_nil
    simp only [Statement.source, Action.source, List.mem_append, not_or]
    exact ⟨⟨⟨hopen, hindent⟩, hhelper⟩, hcode code rfl⟩
  | closeCall escaped =>
    simp only [Statement.source, Action.source]
    split
    · exact hfixed (by decide)
    · exact hfixed (by decide)

/-- Host code without marks is pushed without marks. -/
theorem unmarked_valueSource {code : Bytes} (h : Unmarked code) (escaped : Bool) :
    Unmarked (valueSource code escaped) :=
  ⟨not_mem_valueSource h.1 (by decide) (by decide) escaped,
    not_mem_valueSource h.2 (by decide) (by decide) escaped⟩

/-- A statement of host code without marks has no marks. -/
theorem Statement.unmarked_text {statement : Statement}
    (h : ∀ text, statement.action ≠ .pushText text)
    (hcode : ∀ code ∈ statement.action.code?, Unmarked code) : Unmarked statement.text :=
  ⟨not_mem_text (by decide) (fun text haction => absurd haction (h text))
      fun code hmem => (hcode code hmem).1,
    not_mem_text (by decide) (fun text haction => absurd haction (h text))
      fun code hmem => (hcode code hmem).2⟩

end TemplateCompiler
