import TemplateCompiler.Code.Statement

/-!
# Lines of finished code

The trim pass works on finished code, statement by statement: it reads the code
as lines, and tells the pushes of a literal, whose inside is template text, from
every other line.

Main results:

- Theorem {lit}`Line.print_parse`: a line is printed as it was read.
- Theorem {lit}`Listing.flatten_chunks_parse`: lines that were read are written as
  the code they were read from.
-/

namespace TemplateCompiler

/-- A line of finished code. -/
structure Line where
  /-- The spaces before the statement. -/
  indent : Nat
  /-- Whether the statement pushes a literal. -/
  literal : Bool
  /-- The inside of the pushed literal, or the whole statement. -/
  body : Bytes
deriving DecidableEq, Repr

namespace Line

/-- Whether a statement pushes a literal: it opens as one, and a closing quote
follows somewhere after the opening one, at the end of the line. -/
def isLiteral (statement : Bytes) : Bool :=
  decide (pushOpening.length < statement.length)
    && pushOpening.isPrefixOf statement
    && statement.getLast? == some Byte.quote

/-- Read a line, given without its line feed. -/
def parse (text : Bytes) : Line :=
  let statement := text.dropWhile (· == Byte.space)
  let indent := (text.takeWhile (· == Byte.space)).length
  if isLiteral statement then
    ⟨indent, true, (statement.drop pushOpening.length).dropLast⟩
  else
    ⟨indent, false, statement⟩

/-- The text of a line, without its line feed. -/
def print (line : Line) : Bytes :=
  spaces line.indent ++ if line.literal then pushLiteral line.body else line.body

/-- Two lines can be joined into one push when both push literals in the same
block of code. -/
def joins (first second : Line) : Bool :=
  first.literal && second.literal && first.indent == second.indent

/-- The spaces at the start of a text are as many as were counted. -/
theorem spaces_takeWhile (text : Bytes) :
    spaces (text.takeWhile (· == Byte.space)).length = text.takeWhile (· == Byte.space) := by
  induction text with
  | nil => rfl
  | cons c rest ih =>
    by_cases h : c = Byte.space
    · simp [h, spaces, List.replicate_succ] at ih ⊢
      exact ih
    · simp [h, spaces]

/-- A pushed literal is its opening, its inside and a quote. -/
theorem pushLiteral_of_isLiteral {statement : Bytes} (h : isLiteral statement = true) :
    pushLiteral (statement.drop pushOpening.length).dropLast = statement := by
  simp only [isLiteral, Bool.and_eq_true, decide_eq_true_eq, beq_iff_eq,
    List.isPrefixOf_iff_prefix] at h
  obtain ⟨⟨hlength, rest, rfl⟩, hlast⟩ := h
  have hrest : rest ≠ [] := by
    rintro rfl
    simp at hlength
  have hquote : rest.getLast hrest = Byte.quote := by
    simpa [List.getLast?_append, List.getLast?_eq_some_getLast hrest] using hlast
  have hsplit := List.dropLast_concat_getLast hrest
  rw [hquote] at hsplit
  rw [List.drop_left, pushLiteral, List.append_assoc, hsplit]

/-- A line is printed as it was read. -/
theorem print_parse (text : Bytes) : (parse text).print = text := by
  by_cases h : isLiteral (text.dropWhile (· == Byte.space)) = true
  · simp only [parse, h, if_true, print]
    rw [pushLiteral_of_isLiteral h, spaces_takeWhile, List.takeWhile_append_dropWhile]
  · simp only [parse, h, if_false, print, Bool.false_eq_true]
    rw [spaces_takeWhile, List.takeWhile_append_dropWhile]

end Line

/-! ## All lines -/

/-- Finished code as lines. -/
structure Listing where
  lines : List Line
  /-- Whether the last line ends in a line feed. -/
  closed : Bool
deriving DecidableEq, Repr

namespace Listing

/-- Read finished code.  Nothing after the last line feed is no line. -/
def parse (code : Bytes) : Listing :=
  let texts := fields Byte.lineFeed code
  if texts.getLast? = some [] then
    ⟨texts.dropLast.map Line.parse, !code.isEmpty⟩
  else
    ⟨texts.map Line.parse, false⟩

/-- The texts of lines, each with its line feed; the last one only if the
listing is closed. -/
def chunksOf (closed : Bool) : List Line → List Bytes
  | [] => []
  | [line] => [if closed then line.print ++ [Byte.lineFeed] else line.print]
  | line :: next :: rest =>
    (line.print ++ [Byte.lineFeed]) :: chunksOf closed (next :: rest)

/-- What is written for a listing: one chunk for each line. -/
def chunks (listing : Listing) : List Bytes :=
  chunksOf listing.closed listing.lines

/-- The chunks of lines are their texts with line feeds between them, and one at
the end if the listing is closed. -/
theorem flatten_chunksOf (closed : Bool) (line : Line) (rest : List Line) :
    (chunksOf closed (line :: rest)).flatten
      = [Byte.lineFeed].intercalate ((line :: rest).map Line.print)
        ++ if closed then [Byte.lineFeed] else [] := by
  induction rest generalizing line with
  | nil => cases closed <;> simp [chunksOf]
  | cons next rest ih =>
    simp only [chunksOf, List.flatten_cons, ih next]
    simp [List.intercalate]

/-- Reading and printing lines changes nothing. -/
theorem map_print_parse (texts : List Bytes) :
    (texts.map Line.parse).map Line.print = texts := by
  simp [List.map_map, Function.comp_def, Line.print_parse]

/-- An empty text at the end adds a line feed. -/
theorem intercalate_append_empty (text : Bytes) (texts : List Bytes) :
    [Byte.lineFeed].intercalate (text :: texts ++ [[]])
      = [Byte.lineFeed].intercalate (text :: texts) ++ [Byte.lineFeed] := by
  induction texts generalizing text with
  | nil => simp [List.intercalate]
  | cons next rest ih =>
    have hnext := ih next
    simp [List.intercalate] at hnext ⊢
    exact hnext

/-- Lines that were read are written as the code they were read from. -/
theorem flatten_chunks_parse (code : Bytes) : (parse code).chunks.flatten = code := by
  have hcode := intercalate_fields Byte.lineFeed code
  by_cases hlast : (fields Byte.lineFeed code).getLast? = some []
  · simp only [parse, chunks, hlast, if_true]
    obtain ⟨init, hinit⟩ := List.getLast?_eq_some_iff.1 hlast
    rw [hinit] at hcode ⊢
    rw [List.dropLast_concat]
    cases init with
    | nil =>
      simp at hcode
      simp [chunksOf, ← hcode]
    | cons text texts =>
      have hopen : code.isEmpty = false := by
        cases code with
        | nil => simp [fields] at hinit
        | cons c rest => rfl
      rw [List.map_cons, flatten_chunksOf, ← List.map_cons, map_print_parse, hopen]
      rw [intercalate_append_empty] at hcode
      simpa using hcode
  · simp only [parse, chunks, hlast, if_false]
    obtain ⟨text, texts, htexts⟩ :=
      List.exists_cons_of_ne_nil (fields_ne_nil Byte.lineFeed code)
    rw [htexts] at hcode ⊢
    rw [List.map_cons, flatten_chunksOf, ← List.map_cons, map_print_parse, hcode]
    simp

end Listing

end TemplateCompiler
