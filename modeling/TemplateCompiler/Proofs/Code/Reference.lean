import TemplateCompiler.Code.Cursor
import TemplateCompiler.Proofs.Code.Marks
import TemplateCompiler.Proofs.Code.PushRun

/-!
# The trim pass on a run of pushes

Code that only pushes literals at one indentation is trimmed to what its atoms mean:
the marks among them are resolved, and each piece between the boundaries that are
left is pushed on its own.

Main results:

- Theorem {lit}`resolveMarks_pushes`: the lines of a run of pushes are trimmed to the
  resolved pieces.
- Theorem {lit}`trimmedChunks_pushes`: each resolved piece is written as one push.
-/

namespace TemplateCompiler

/-- Text with well-placed marks is well placed in front of atoms that are well placed
alone. -/
theorem Atom.WellPlaced.text_append {previous : Option UInt8} {text : Bytes}
    (h : marksTouch previous text = true) {rest : List Atom} (hrest : WellPlaced none rest) :
    WellPlaced (previous.map .text) (text.map .text ++ rest) := by
  induction text generalizing previous with
  | nil => exact hrest.of_none _
  | cons c more ih =>
    simp only [marksTouch, Bool.and_eq_true, Bool.or_eq_true, bne_iff_ne, ne_eq,
      beq_iff_eq] at h
    rcases h with ⟨⟨hleft, hright⟩, hmore⟩
    refine ⟨?_, ?_, by simp, ih hmore⟩
    · intro hc
      have hless : more.head? = some Byte.less := hleft.resolve_left (by simpa using hc)
      simp [hless]
    · intro hc
      have hgreater : previous = some Byte.greater := hright.resolve_left (by simpa using hc)
      simp [hgreater]

/-- Whether the marks in a statement touch markup.  Host code has no marks. -/
def Statement.MarksTouch (statement : Statement) : Prop :=
  match statement.action with
  | .pushText text => marksTouch none text = true
  | .pushValue code _ => Unmarked code
  | _ => True

/-! ## Runs of pushes -/

/-- The atoms of a run of pushes, with a boundary between neighbours. -/
def atomsOf (statements : List Statement) : List Atom :=
  [Atom.boundary].intercalate (statements.map Statement.atoms)

/-- The pieces that a run of pushes prints: its atoms with all marks resolved, cut at
the boundaries that are left. -/
def resolvedPieces (statements : List Statement) : List (List Atom) :=
  if statements.isEmpty then []
  else (resolved Atom.role (atomsOf statements)).splitOn .boundary

private theorem Statement.boundary_not_mem_atoms (statement : Statement) :
    Atom.boundary ∉ statement.atoms := by
  unfold atoms
  split <;> simp

private theorem Statement.PushesLiteral.wellPlaced_append {width : Nat} {statement : Statement}
    (h : statement.PushesLiteral width) (hmarks : statement.MarksTouch) {rest : List Atom}
    (hend : rest = [] ∨ rest.head? = some .boundary) (hrest : Atom.WellPlaced none rest) :
    Atom.WellPlaced none (statement.atoms ++ rest) := by
  cases h with
  | text markup text =>
    simp only [atoms, ← List.map_append]
    exact Atom.WellPlaced.text_append (marksTouch_append (unmarked_spaces markup) hmarks none) hrest
  | value markup code escaped hmarkup hcode =>
    have hspaces : marksTouch none (spaces markup) = true := by
      have hnil : marksTouch none [] = true := rfl
      simpa using marksTouch_append (unmarked_spaces markup) hnil none
    have hvalue : Atom.WellPlaced none (.value (valueSource code escaped) :: rest) := by
      refine ⟨by simp, by simp, ?_, hrest.of_none _⟩
      intro source hsource
      obtain rfl : source = valueSource code escaped := by simpa using hsource.symm
      exact ⟨hend, not_mem_valueSource hmarks.1 (by decide) (by decide) escaped,
        not_mem_valueSource hmarks.2 (by decide) (by decide) escaped⟩
    simp only [atoms, List.append_assoc, List.singleton_append]
    exact Atom.WellPlaced.text_append hspaces hvalue

/-- The marks in a run of pushes are well placed. -/
theorem wellPlaced_atomsOf {width : Nat} {statements : List Statement}
    (h : ∀ statement ∈ statements, statement.PushesLiteral width)
    (hmarks : ∀ statement ∈ statements, statement.MarksTouch) :
    Atom.WellPlaced none (atomsOf statements) := by
  induction statements with
  | nil => trivial
  | cons statement others ih =>
    rw [List.forall_mem_cons] at h hmarks
    have hothers := ih h.2 hmarks.2
    cases others with
    | nil =>
      have hfirst := h.1.wellPlaced_append hmarks.1 (.inl rfl) trivial
      simpa [atomsOf] using hfirst
    | cons next rest =>
      have hboundary : Atom.WellPlaced none (.boundary :: atomsOf (next :: rest)) :=
        ⟨by simp, by simp, by simp, hothers.of_none _⟩
      have hfirst := h.1.wellPlaced_append hmarks.1 (.inr rfl) hboundary
      simpa [atomsOf] using hfirst

/-- The lines of a run of pushes are those of its atoms. -/
theorem lines_pushes (width : Nat) {statements : List Statement} (h : statements ≠ []) :
    statements.map (fun statement => Line.ofAtoms width statement.atoms)
      = Atom.linesOf width (atomsOf statements) := by
  have hclosed : ∀ atoms ∈ statements.map Statement.atoms, Atom.boundary ∉ atoms := by
    intro atoms hatoms
    rcases List.mem_map.1 hatoms with ⟨statement, -, rfl⟩
    exact statement.boundary_not_mem_atoms
  rw [Atom.linesOf_eq_map_splitOn, atomsOf, List.splitOn_intercalate _ hclosed (by simpa using h),
    List.map_map]
  rfl

/-- The lines of a run of pushes are trimmed to the resolved pieces. -/
theorem resolveMarks_pushes {width : Nat} {statements : List Statement}
    (h : ∀ statement ∈ statements, statement.PushesLiteral width)
    (hmarks : ∀ statement ∈ statements, statement.MarksTouch) (hne : statements ≠ []) :
    resolveMarks (statements.map fun statement => Line.ofAtoms width statement.atoms)
      = (resolvedPieces statements).map (Line.ofAtoms width) := by
  rw [lines_pushes width hne, resolveMarks_linesOf width (wellPlaced_atomsOf h hmarks),
    Atom.linesOf_eq_map_splitOn, resolvedPieces, if_neg (by simpa using hne)]

/-- The lines of a run of pushes are written piece by piece. -/
theorem chunksOf_pushes {width : Nat} {statements : List Statement}
    (h : ∀ statement ∈ statements, statement.PushesLiteral width)
    (hmarks : ∀ statement ∈ statements, statement.MarksTouch) :
    Listing.chunksOf (!statements.isEmpty)
        (resolveMarks (statements.map fun statement => Line.ofAtoms width statement.atoms))
      = (resolvedPieces statements).map fun piece =>
          spaces width ++ pushLiteral (Atom.writtenAll piece) ++ [Byte.lineFeed] := by
  by_cases hne : statements = []
  · subst hne
    rfl
  · have hclosed : (!statements.isEmpty) = true := by simpa using hne
    rw [resolveMarks_pushes h hmarks hne, hclosed, Listing.chunksOf_true, List.map_map]
    rfl

/-- The trim pass writes each resolved piece of a run of pushes as one push. -/
theorem trimmedChunks_pushes {width : Nat} {statements : List Statement}
    (h : ∀ statement ∈ statements, statement.PushesLiteral width)
    (hmarks : ∀ statement ∈ statements, statement.MarksTouch) :
    trimmedChunks (statements.flatMap Statement.print)
      = (resolvedPieces statements).map fun piece =>
          spaces width ++ pushLiteral (Atom.writtenAll piece) ++ [Byte.lineFeed] := by
  rw [trimmedChunks, Listing.parse_pushes h]
  exact chunksOf_pushes h hmarks

/-- Trimming merges four pushes round a value whose brace is never closed. -/
theorem trimmedChunks_pushes_of_open_brace :
    trimmedChunks ([⟨⟨2, 0⟩, .pushText (ascii "<p>" ++ [rightMark])⟩,
        ⟨⟨2, 1⟩, .pushValue (ascii "a \x7b") false⟩, ⟨⟨2, 1⟩, .pushText (ascii "\t")⟩,
        ⟨⟨2, 0⟩, .pushText (leftMark :: ascii "</p>")⟩].flatMap Statement.print)
      = [ascii "  $o.push \"<p>#\x7ba \x7b\x7d</p>\"\n"] :=
  (trimmedChunks_pushes
    (by
      simp only [List.forall_mem_cons]
      exact ⟨.text 0 _, .value 1 _ _ (by decide) (by decide), .text 1 _, .text 0 _, by simp⟩)
    (by
      simp only [List.forall_mem_cons, Statement.MarksTouch]
      exact ⟨by decide, by decide, by decide, by decide, by simp⟩)).trans
    (by decide +kernel)

end TemplateCompiler
