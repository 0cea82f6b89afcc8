import TemplateCompiler.Proofs.Code.Decoding
import TemplateCompiler.Proofs.Code.Listing
import TemplateCompiler.Proofs.Code.Resolution

/-!
# Atoms of a run of pushes

Pushes of literals that stand one below the other print a piece of the document.
Read without its escapes, such a piece is a sequence of atoms: the bytes of the
template, the values that are interpolated, and the boundaries between pushes.

Main results:

- Theorem {lit}`Atom.writtenAll_map_text`: text is written as its escaped form.
- Theorem {lit}`Listing.parse_pushes`: printed pushes are read back as lines that hold
  the written forms of their atoms.
-/

namespace TemplateCompiler

/-- A symbol of what a run of pushes prints. -/
inductive Atom where
  /-- A byte of the template, marks included. -/
  | text (c : UInt8)
  /-- A value of host code. -/
  | value (source : Bytes)
  /-- The end of a push and the start of the next one. -/
  | boundary
deriving DecidableEq, Repr

namespace Atom

/-- The role of an atom: values are never trimmed, and a boundary is a blank, since
the runtime joins pushes with line feeds. -/
def role : Atom → TrimRole
  | .text c => byteRole c
  | .value _ => .solid
  | .boundary => .blank

/-- The byte of an atom that is text. -/
def byte? : Atom → Option UInt8
  | .text c => some c
  | _ => none

/-- The written form of an atom in front of {lit}`next` in a literal. -/
def written (next : Option Atom) : Atom → Bytes
  | .text c => Literal.escapeByte c (next.bind byte?)
  | .value source => ascii "#\x7b" ++ source ++ ascii "\x7d"
  | .boundary => []

/-- The inside of the literal that holds some atoms. -/
def writtenAll : List Atom → Bytes
  | [] => []
  | a :: rest => a.written rest.head? ++ writtenAll rest

/-- Text is written as its escaped form. -/
theorem writtenAll_map_text (text : Bytes) :
    writtenAll (text.map .text) = Literal.escape text := by
  induction text with
  | nil => rfl
  | cons c rest ih =>
    rw [List.map_cons, writtenAll, ih, Literal.escape_cons]
    cases rest <;> rfl

/-- A byte without an escape is written in the same way in front of any atom. -/
theorem written_of_not_mem {c : UInt8} (h : c ∉ Literal.escapes.map Prod.snd)
    (next : Option Atom) : (Atom.text c).written next = [c] :=
  Literal.escapeByte_of_not_mem h _

/-- Text in front of a value is escaped on its own. -/
theorem writtenAll_append_value (text source : Bytes) (rest : List Atom) :
    writtenAll (text.map .text ++ .value source :: rest)
      = Literal.escape text ++ (ascii "#\x7b" ++ source ++ ascii "\x7d") ++ writtenAll rest := by
  induction text with
  | nil => rfl
  | cons c more ih =>
    rw [List.map_cons, List.cons_append, writtenAll, ih, Literal.escape_cons]
    cases more <;> simp [written, byte?]

end Atom

/-! ## Lines and statements -/

/-- The line that pushes some atoms. -/
def Line.ofAtoms (width : Nat) (atoms : List Atom) : Line :=
  ⟨width, true, Atom.writtenAll atoms⟩

/-- The atoms that a push of a literal prints. -/
def Statement.atoms (statement : Statement) : List Atom :=
  let indentation := (spaces statement.margin.markup).map Atom.text
  match statement.action with
  | .pushText text => indentation ++ text.map .text
  | .pushValue code escaped => indentation ++ [.value (valueSource code escaped)]
  | _ => []

/-- The statements that push a literal at the given code indentation: text, or a
value of one line of host code behind some indentation. -/
inductive Statement.PushesLiteral (width : Nat) : Statement → Prop
  | text (markup : Nat) (text : Bytes) :
      PushesLiteral width ⟨⟨width, markup⟩, .pushText text⟩
  | value (markup : Nat) (code : Bytes) (escaped : Bool) (hmarkup : 0 < markup)
      (hcode : Byte.lineFeed ∉ code) :
      PushesLiteral width ⟨⟨width, markup⟩, .pushValue code escaped⟩

theorem isEmpty_spaces_of_pos {width : Nat} (h : 0 < width) : (spaces width).isEmpty = false := by
  cases width with
  | zero => omega
  | succ width => rfl

/-- A push of a literal is printed as the written form of its atoms. -/
theorem Statement.PushesLiteral.source_eq {width : Nat} {statement : Statement}
    (h : statement.PushesLiteral width) :
    statement.source = pushLiteral (Atom.writtenAll statement.atoms) := by
  cases h with
  | text markup text =>
    simp only [Statement.source, Action.source, atoms]
    rw [← List.map_append, Atom.writtenAll_map_text]
  | value markup code escaped hmarkup hcode =>
    simp only [Statement.source, Action.source, atoms, isEmpty_spaces_of_pos hmarkup]
    rw [Atom.writtenAll_append_value, Literal.escape_spaces]
    simp [Atom.writtenAll, List.append_assoc]

theorem lineFeed_not_mem_spaces (width : Nat) : Byte.lineFeed ∉ spaces width := by
  intro h
  have hspace : Byte.lineFeed = Byte.space := List.eq_of_mem_replicate h
  exact absurd hspace (by decide)

/-- A push of an inside without line feeds stands on one line. -/
theorem lineFeed_not_mem_pushLiteral {body : Bytes} (h : Byte.lineFeed ∉ body) :
    Byte.lineFeed ∉ pushLiteral body := by
  have hopening : Byte.lineFeed ∉ pushOpening := by decide
  have hquote : Byte.lineFeed ≠ Byte.quote := by decide
  simp only [pushLiteral, List.mem_append, List.mem_singleton, not_or]
  exact ⟨⟨hopening, h⟩, hquote⟩

/-- A byte that is not in host code is not in its pushed form, unless the escaping helper brings
it. -/
theorem not_mem_valueSource {c : UInt8} {code : Bytes} (h : c ∉ code)
    (hopen : c ∉ ascii "$e(") (hclose : c ∉ ascii ")") (escaped : Bool) :
    c ∉ valueSource code escaped := by
  unfold valueSource
  split
  · simp only [List.mem_append, not_or]
    exact ⟨⟨hopen, h⟩, hclose⟩
  · exact h

private theorem Statement.PushesLiteral.lineFeed_not_mem {width : Nat} {statement : Statement}
    (h : statement.PushesLiteral width) :
    Byte.lineFeed ∉ Atom.writtenAll statement.atoms := by
  cases h with
  | text markup text =>
    simp only [atoms]
    rw [← List.map_append, Atom.writtenAll_map_text]
    exact Literal.lineFeed_not_mem_escape _
  | value markup code escaped hmarkup hcode =>
    have hopen : Byte.lineFeed ∉ ascii "#\x7b" := by decide
    have hclose : Byte.lineFeed ∉ ascii "\x7d" := by decide
    simp only [atoms]
    rw [Atom.writtenAll_append_value]
    simp only [Atom.writtenAll, List.append_nil, List.mem_append, not_or]
    exact ⟨Literal.lineFeed_not_mem_escape _,
      ⟨hopen, not_mem_valueSource hcode (by decide) (by decide) escaped⟩, hclose⟩

/-- A push of a literal is read back as its indentation and the inside of the
literal. -/
theorem Line.parse_push (width : Nat) (body : Bytes) :
    Line.parse (spaces width ++ pushLiteral body) = ⟨width, true, body⟩ := by
  have hstart : (pushLiteral body).head? ≠ some Byte.space := by
    have hopening : (pushLiteral body).head? = some 0x24 := rfl
    rw [hopening]
    decide
  have hliteral : Line.isLiteral (pushLiteral body) = true := by
    simp [Line.isLiteral, pushLiteral, List.append_assoc]
  have hbody : ((pushLiteral body).drop pushOpening.length).dropLast = body := by
    simp [pushLiteral, List.append_assoc]
  rw [Line.parse_spaces width hstart, if_pos hliteral, hbody]

/-- Printed pushes are read back as lines that hold the written forms of their
atoms. -/
theorem Listing.parse_pushes {width : Nat} {statements : List Statement}
    (h : ∀ statement ∈ statements, statement.PushesLiteral width) :
    Listing.parse (statements.flatMap Statement.print)
      = ⟨statements.map fun statement => Line.ofAtoms width statement.atoms,
          !statements.isEmpty⟩ := by
  let text (statement : Statement) : Bytes :=
    spaces width ++ pushLiteral (Atom.writtenAll statement.atoms)
  have hprint : ∀ statement ∈ statements,
      statement.print = text statement ++ [Byte.lineFeed] := by
    intro statement hmem
    have hwidth : statement.margin.code = width := by
      cases h statement hmem <;> rfl
    rw [Statement.print, (h statement hmem).source_eq, hwidth]
  have hclosed : ∀ line ∈ statements.map text, Byte.lineFeed ∉ line := by
    intro line hline
    rcases List.mem_map.1 hline with ⟨statement, hmem, rfl⟩
    simp only [text, List.mem_append, not_or]
    exact ⟨lineFeed_not_mem_spaces width,
      lineFeed_not_mem_pushLiteral (h statement hmem).lineFeed_not_mem⟩
  have hcode : statements.flatMap Statement.print
      = (statements.map text).flatMap fun line => line ++ [Byte.lineFeed] := by
    rw [List.flatMap_map, List.flatMap_def, List.flatMap_def, List.map_congr_left hprint]
  rw [hcode, Listing.parse_flatMap_closed hclosed, List.map_map]
  simp [Function.comp_def, text, Line.parse_push, Line.ofAtoms]

end TemplateCompiler
