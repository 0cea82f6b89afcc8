import TemplateCompiler.Proofs.Code.Reference

/-!
# The trim pass on a run of text

Where only text is pushed, the atoms of the code are the bytes of a document.  The
literals that the trim pass leaves are read back as that document with its marks
resolved.

Main results:

- Theorem {lit}`Atom.exists_texts`: atoms without values are cut into texts.
- Theorem {lit}`exists_chunks_texts`: trimming a run of text resolves the marks in the
  document.
-/

namespace TemplateCompiler

namespace Atom

/-- The byte that an atom stands for in a document.  A value has none; any byte that
is kept serves in its place. -/
def toByte : Atom → UInt8
  | .text c => c
  | .value _ => Byte.hash
  | .boundary => Byte.lineFeed

private theorem byteRole_toByte (a : Atom) : byteRole a.toByte = a.role := by
  cases a with
  | text c => rfl
  | value source => exact (by decide : byteRole Byte.hash = .solid)
  | boundary => exact (by decide : byteRole Byte.lineFeed = .blank)

private theorem map_toByte_text (text : Bytes) : (text.map Atom.text).map toByte = text := by
  rw [List.map_map]
  exact List.map_id text

/-- Atoms without values are cut into texts. -/
theorem exists_texts {atoms : List Atom} (h : ∀ source, .value source ∉ atoms) :
    ∃ texts : List Bytes, atoms.splitOn .boundary = texts.map (List.map .text) := by
  induction atoms with
  | nil => exact ⟨[[]], rfl⟩
  | cons a rest ih =>
    rcases ih fun source hmem => h source (List.mem_cons_of_mem a hmem) with ⟨texts, htexts⟩
    rw [List.splitOn_cons_eq_if_modifyHead, htexts]
    cases a with
    | text c =>
      obtain ⟨piece, pieces, hpieces⟩ :=
        List.exists_cons_of_ne_nil (List.splitOn_ne_nil .boundary rest)
      cases texts with
      | nil => simp [hpieces] at htexts
      | cons text others => exact ⟨(c :: text) :: others, rfl⟩
    | value source => exact absurd List.mem_cons_self (h source)
    | boundary => exact ⟨[] :: texts, rfl⟩

end Atom

private theorem map_intercalate {α β : Type} (f : α → β) (separator : List α)
    (parts : List (List α)) :
    (separator.intercalate parts).map f
      = (separator.map f).intercalate (parts.map (List.map f)) := by
  induction parts with
  | nil => rfl
  | cons part rest ih =>
    cases rest with
    | nil => simp
    | cons next others =>
      rw [List.intercalate_cons_cons, List.map_append, List.map_append, ih]
      simp only [List.map_cons, List.intercalate_cons_cons]

/-! ## Documents -/

/-- A line of a document before its marks are resolved. -/
structure DocumentLine where
  /-- The width of its indentation. -/
  indent : Nat
  text : Bytes
deriving DecidableEq, Repr

namespace DocumentLine

/-- The bytes of a line. -/
def bytes (line : DocumentLine) : Bytes :=
  spaces line.indent ++ line.text

/-- The push of a line at a code indentation. -/
def push (width : Nat) (line : DocumentLine) : Statement :=
  ⟨⟨width, line.indent⟩, .pushText line.text⟩

private theorem atoms_push (width : Nat) (line : DocumentLine) :
    (line.push width).atoms = line.bytes.map .text := by
  simp only [push, Statement.atoms, bytes, List.map_append]

/-- Every line of a document is pushed as a literal. -/
theorem pushesLiteral_push (width : Nat) (line : DocumentLine) :
    (line.push width).PushesLiteral width :=
  .text line.indent line.text

end DocumentLine

/-- The document of some lines. -/
def documentOf (lines : List DocumentLine) : Bytes :=
  [Byte.lineFeed].intercalate (lines.map DocumentLine.bytes)

/-- The atoms of pushed lines spell the document. -/
theorem map_toByte_atomsOf (width : Nat) (lines : List DocumentLine) :
    (atomsOf (lines.map (DocumentLine.push width))).map Atom.toByte = documentOf lines := by
  have hbytes : ∀ line : DocumentLine, (line.push width).atoms.map Atom.toByte = line.bytes := by
    intro line
    rw [line.atoms_push, Atom.map_toByte_text]
  rw [atomsOf, map_intercalate, List.map_map, List.map_map, documentOf]
  simp only [Function.comp_def, hbytes]
  rfl

private theorem value_not_mem_atomsOf (width : Nat) (lines : List DocumentLine) (source : Bytes) :
    .value source ∉ atomsOf (lines.map (DocumentLine.push width)) := by
  induction lines with
  | nil => simp [atomsOf]
  | cons line rest ih =>
    have hline : Atom.value source ∉ (line.push width).atoms := by
      rw [line.atoms_push]
      simp
    cases rest with
    | nil => simpa [atomsOf] using hline
    | cons next others =>
      simp only [atomsOf, List.map_cons, List.intercalate_cons_cons] at ih ⊢
      simp only [List.mem_append, not_or]
      exact ⟨⟨hline, by simp⟩, ih⟩

/-- The pieces of a run of text are the lines of the resolved document. -/
theorem exists_texts_resolvedPieces (width : Nat) (lines : List DocumentLine) :
    ∃ texts : List Bytes,
      resolvedPieces (lines.map (DocumentLine.push width)) = texts.map (List.map .text)
        ∧ [Byte.lineFeed].intercalate texts = resolved byteRole (documentOf lines) := by
  by_cases hne : lines = []
  · subst hne
    exact ⟨[], rfl, by simp [documentOf, resolved, resolveFrom]⟩
  · let atoms := atomsOf (lines.map (DocumentLine.push width))
    have hvalues : ∀ source, .value source ∉ resolved Atom.role atoms := by
      intro source hmem
      have hmem' := (resolveFrom_sublist [] atoms).subset hmem
      exact value_not_mem_atomsOf width lines source hmem'
    rcases Atom.exists_texts hvalues with ⟨texts, htexts⟩
    refine ⟨texts, ?_, ?_⟩
    · rw [resolvedPieces, if_neg (by simpa using hne)]
      exact htexts
    · have hjoined : [Atom.boundary].intercalate ((resolved Atom.role atoms).splitOn .boundary)
          = resolved Atom.role atoms := List.intercalate_splitOn Atom.boundary
      calc [Byte.lineFeed].intercalate texts
          = ([Atom.boundary].intercalate (texts.map (List.map .text))).map Atom.toByte := by
            rw [map_intercalate, List.map_map]
            simp only [Function.comp_def, Atom.map_toByte_text, List.map_id']
            rfl
        _ = (resolved Atom.role atoms).map Atom.toByte := by rw [← htexts, hjoined]
        _ = resolved byteRole (atoms.map Atom.toByte) :=
            resolveFrom_map Atom.byteRole_toByte [] atoms
        _ = resolved byteRole (documentOf lines) := by rw [map_toByte_atomsOf]

/-- Trimming a run of text resolves the marks in the document. -/
theorem exists_chunks_texts (width : Nat) {lines : List DocumentLine}
    (h : ∀ line ∈ lines, marksTouch none line.text = true) :
    ∃ texts : List Bytes,
      trimmedChunks ((lines.map (DocumentLine.push width)).flatMap Statement.print)
          = texts.map (fun text =>
            spaces width ++ pushLiteral (Literal.escape text) ++ [Byte.lineFeed])
        ∧ [Byte.lineFeed].intercalate texts = resolved byteRole (documentOf lines) := by
  have hpushes : ∀ statement ∈ lines.map (DocumentLine.push width),
      statement.PushesLiteral width := by
    intro statement hmem
    rcases List.mem_map.1 hmem with ⟨line, -, rfl⟩
    exact line.pushesLiteral_push width
  have hmarks : ∀ statement ∈ lines.map (DocumentLine.push width), statement.MarksTouch := by
    intro statement hmem
    rcases List.mem_map.1 hmem with ⟨line, hline, rfl⟩
    exact h line hline
  rcases exists_texts_resolvedPieces width lines with ⟨texts, hpieces, hdocument⟩
  refine ⟨texts, ?_, hdocument⟩
  rw [trimmedChunks, Listing.parse_pushes hpushes]
  refine (chunksOf_pushes hpushes hmarks).trans ?_
  rw [hpieces, List.map_map]
  simp only [Function.comp_def, Atom.writtenAll_map_text]

end TemplateCompiler
