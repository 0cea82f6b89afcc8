import TemplateCompiler.Proofs.Code.Atom
import TemplateCompiler.Proofs.Code.Trimming

/-!
# Trimming a run of pushes

A cursor in a run of pushes stands between the atoms that it passed and those that
are ahead.  Its moves are those of the resolution of marks on atoms: the lines that
it leaves are the written forms of the resolved atoms, cut at the boundaries that are
left.

Main results:

- Theorem {lit}`Atom.run_cursorAt`: running a cursor resolves the atoms ahead of it.
- Theorem {lit}`resolveMarks_linesOf`: a run of pushes is trimmed as its atoms are
  resolved.
-/

namespace TemplateCompiler

namespace Atom

/-! ## Places between atoms -/

/-- The atoms ahead of a cursor: what is written of them in its line, and the lines
below. -/
def ahead (width : Nat) : List Atom → Bytes × List Line
  | [] => ([], [])
  | a :: rest =>
    if a = .boundary then ([], ⟨width, true, (ahead width rest).1⟩ :: (ahead width rest).2)
    else (a.written rest.head? ++ (ahead width rest).1, (ahead width rest).2)

/-- The atoms that a cursor passed, last one first and in front of {lit}`next`: the
lines above, and what is written of them in its line. -/
def passed (width : Nat) (next : Option Atom) : List Atom → List Line × Bytes
  | [] => ([], [])
  | a :: kept =>
    if a = .boundary then
      (⟨width, true, (passed width (some a) kept).2.reverse⟩ :: (passed width (some a) kept).1, [])
    else
      ((passed width (some a) kept).1,
        (a.written next).reverse ++ (passed width (some a) kept).2)

/-- The cursor between the atoms that were kept so far, last one first, and those
that are ahead. -/
def cursorAt (width : Nat) (kept rest : List Atom) : Cursor where
  above := (passed width rest.head? kept).1
  indent := width
  literal := true
  before := (passed width rest.head? kept).2
  after := (ahead width rest).1
  below := (ahead width rest).2

/-- The lines that push some atoms. -/
def linesOf (width : Nat) (atoms : List Atom) : List Line :=
  ⟨width, true, (ahead width atoms).1⟩ :: (ahead width atoms).2

@[simp] theorem ahead_boundary (width : Nat) (rest : List Atom) :
    ahead width (.boundary :: rest)
      = ([], ⟨width, true, (ahead width rest).1⟩ :: (ahead width rest).2) := by
  simp [ahead]

private theorem ahead_cons {a : Atom} (h : a ≠ .boundary) (width : Nat) (rest : List Atom) :
    ahead width (a :: rest)
      = (a.written rest.head? ++ (ahead width rest).1, (ahead width rest).2) := by
  simp [ahead, h]

@[simp] theorem passed_boundary (width : Nat) (next : Option Atom) (kept : List Atom) :
    passed width next (.boundary :: kept)
      = (⟨width, true, (passed width (some .boundary) kept).2.reverse⟩
          :: (passed width (some .boundary) kept).1, []) := by
  simp [passed]

private theorem passed_cons {a : Atom} (h : a ≠ .boundary) (width : Nat) (next : Option Atom)
    (kept : List Atom) :
    passed width next (a :: kept)
      = ((passed width (some a) kept).1,
          (a.written next).reverse ++ (passed width (some a) kept).2) := by
  simp [passed, h]

/-- Whether an atom is an opening brace, all that the written form of the atom before
it depends on. -/
def opensBrace (next : Option Atom) : Prop :=
  next.bind byte? = some Byte.openBrace

private theorem not_opensBrace_text {c : UInt8} (h : c ≠ Byte.openBrace) :
    ¬opensBrace (some (.text c)) := by
  simpa [opensBrace, byte?] using h

private theorem written_congr {next next' : Option Atom} (h : opensBrace next ↔ opensBrace next')
    (a : Atom) : a.written next = a.written next' := by
  cases a with
  | text c => exact Literal.escapeByte_congr h
  | value source => rfl
  | boundary => rfl

private theorem passed_congr {next next' : Option Atom} (h : opensBrace next ↔ opensBrace next')
    (width : Nat) (kept : List Atom) : passed width next kept = passed width next' kept := by
  cases kept with
  | nil => rfl
  | cons a kept => simp only [passed, written_congr h]

/-- The lines of a cursor do not depend on its place. -/
theorem lines_cursorAt (width : Nat) (kept rest : List Atom) :
    (cursorAt width kept rest).lines = linesOf width (kept.reverse ++ rest) := by
  induction kept generalizing rest with
  | nil => rfl
  | cons a kept ih =>
    rw [List.reverse_cons, List.append_assoc, List.singleton_append, ← ih (a :: rest)]
    by_cases ha : a = .boundary
    · subst ha
      simp [cursorAt, Cursor.lines, Cursor.line]
    · simp [cursorAt, Cursor.lines, Cursor.line, ahead_cons ha, passed_cons ha]

/-- A piece between boundaries starts as what is ahead, or is empty. -/
theorem opensBrace_of_splitOn {atoms piece : List Atom} {pieces : List (List Atom)}
    (h : atoms.splitOn .boundary = piece :: pieces) :
    opensBrace atoms.head? ↔ opensBrace piece.head? := by
  cases atoms with
  | nil =>
    have hpiece : piece = [] := by
      simp at h
      exact h.1
    rw [hpiece]
  | cons a rest =>
    rw [List.splitOn_cons_eq_if_modifyHead] at h
    by_cases ha : a = .boundary
    · have hpiece : piece = [] := by
        simp [ha] at h
        exact h.1
      rw [hpiece, ha]
      simp [opensBrace, byte?]
    · obtain ⟨first, more, hrest⟩ :=
        List.exists_cons_of_ne_nil (List.splitOn_ne_nil .boundary rest)
      have hpiece : piece = a :: first := by
        simp [ha, hrest] at h
        exact h.1.symm
      rw [hpiece]
      rfl

/-- Lines are cut at the boundaries. -/
theorem linesOf_eq_map_splitOn (width : Nat) (atoms : List Atom) :
    linesOf width atoms = (atoms.splitOn .boundary).map (Line.ofAtoms width) := by
  induction atoms with
  | nil => rfl
  | cons a rest ih =>
    rw [List.splitOn_cons_eq_if_modifyHead]
    by_cases ha : a = .boundary
    · subst ha
      simp only [beq_self_eq_true, if_true, List.map_cons, ← ih, linesOf, ahead_boundary]
      rfl
    · obtain ⟨piece, pieces, hpieces⟩ :=
        List.exists_cons_of_ne_nil (List.splitOn_ne_nil .boundary rest)
      have hwritten := written_congr (opensBrace_of_splitOn hpieces) a
      rw [hpieces, List.map_cons] at ih
      simp only [linesOf, Line.ofAtoms, List.cons.injEq, Line.mk.injEq, true_and] at ih
      simp [hpieces, ha, linesOf, ahead_cons ha, Line.ofAtoms, writtenAll, ih, hwritten]

/-! ## Blanks round a place -/

/-- Only an atom that is an opening brace is written with that brace first. -/
theorem opensBrace_of_head?_ahead {width : Nat} {rest : List Atom}
    (h : (ahead width rest).1.head? = some Byte.openBrace) : opensBrace rest.head? := by
  cases rest with
  | nil => simp [ahead] at h
  | cons a rest =>
    cases a with
    | text c =>
      rw [ahead_cons (by simp)] at h
      rcases Literal.escapeByte_cases c (rest.head?.bind byte?) with
        ⟨hwritten, -, -⟩ | ⟨d, hwritten, -⟩
      · simpa [written, hwritten, opensBrace, byte?] using h
      · have hslash : Byte.backslash ≠ Byte.openBrace := by decide
        simp [written, hwritten, hslash] at h
    | value source =>
      have hhash : some Byte.hash ≠ some Byte.openBrace := by decide
      rw [ahead_cons (by simp)] at h
      exact absurd h hhash
    | boundary => simp at h

/-- No open escape is before the cursor. -/
theorem endsInEscape_passed (width : Nat) (next : Option Atom) (kept : List Atom) :
    endsInEscape (passed width next kept).2 = false := by
  induction kept generalizing next with
  | nil => rfl
  | cons a kept ih =>
    cases a with
    | text c =>
      rw [passed_cons (by simp)]
      exact endsInEscape_escapeByte (ih _) c _
    | value source =>
      have hclose : Byte.closeBrace ≠ Byte.backslash := by decide
      rw [passed_cons (by simp)]
      simp only [written, List.reverse_append, List.append_assoc]
      exact endsInEscape_cons_of_ne hclose _
    | boundary =>
      rw [passed_boundary]
      rfl

/-- Pulling back looks only at what is kept of a literal. -/
theorem pullBack_congr {before before' : Bytes}
    (h : dropBlanksBefore before = dropBlanksBefore before') (indent : Nat)
    (above : List Line) :
    Cursor.pullBack indent above before = Cursor.pullBack indent above before' := by
  cases above <;> simp [Cursor.pullBack, h]

private theorem pullBack_of_stop {before : Bytes} (h : dropBlanksBefore before = before)
    (hne : before ≠ []) (indent : Nat) (above : List Line) :
    Cursor.pullBack indent above before = (above, before) := by
  rcases List.exists_cons_of_ne_nil hne with ⟨c, kept, rfl⟩
  cases above <;> simp [Cursor.pullBack, h]

/-- Pulling ahead looks only at what is kept of a literal. -/
theorem pullAhead_congr {after after' : Bytes}
    (h : dropBlanksAfter after = dropBlanksAfter after') (indent : Nat)
    (below : List Line) :
    Cursor.pullAhead indent after below = Cursor.pullAhead indent after' below := by
  cases below <;> simp [Cursor.pullAhead, h]

/-- Pulling ahead stops in a literal that starts with no blank. -/
theorem pullAhead_of_stop {after : Bytes} (h : dropBlanksAfter after = after)
    (hne : after ≠ []) (indent : Nat) (below : List Line) :
    Cursor.pullAhead indent after below = (after, below) := by
  rcases List.exists_cons_of_ne_nil hne with ⟨c, kept, rfl⟩
  cases below <;> simp [Cursor.pullAhead, h]

private theorem isBlankSymbol_text (c : UInt8) : isBlankSymbol role (.text c) = isBlank c := by
  rw [Bool.eq_iff_iff]
  simp [isBlankSymbol, role, byteRole_eq_blank_iff]

/-- Pulling back drops the blanks that end what was kept.  What is left stands in
front of another atom then, which is no brace either. -/
theorem pullBack_passed {next : Option Atom} (hnext : ¬opensBrace next) (width : Nat)
    (kept : List Atom) :
    Cursor.pullBack width (passed width next kept).1 (passed width next kept).2
      = passed width next (kept.dropWhile (isBlankSymbol role)) := by
  induction kept generalizing next with
  | nil => rfl
  | cons a kept ih =>
    cases a with
    | text c =>
      have hdrop := dropBlanksBefore_escapeByte (endsInEscape_passed width (some (.text c)) kept)
        c (next.bind byte?)
      by_cases hc : isBlank c = true
      · have hbrace : ¬opensBrace (some (.text c)) := by
          apply not_opensBrace_text
          rintro rfl
          exact absurd hc (by decide)
        rw [if_pos hc] at hdrop
        have hkept := passed_congr (iff_of_false hnext hbrace) width
          (kept.dropWhile (isBlankSymbol role))
        rw [List.dropWhile_cons_of_pos (by simpa [isBlankSymbol_text] using hc),
          passed_cons (by simp), hkept, ← ih hbrace]
        exact pullBack_congr hdrop _ _
      · rw [if_neg hc] at hdrop
        rw [List.dropWhile_cons_of_neg (by simpa [isBlankSymbol_text] using hc),
          passed_cons (by simp)]
        have hne := Literal.escapeByte_ne_nil c (next.bind byte?)
        exact pullBack_of_stop hdrop (by simp [hne]) _ _
    | value source =>
      rw [List.dropWhile_cons_of_neg (by simp [isBlankSymbol, role]), passed_cons (by simp)]
      simp only [written, List.reverse_append, List.append_assoc]
      apply pullBack_of_stop
      · exact dropBlanksBefore_cons_stop (by decide) (.inl (by decide))
      · change Byte.closeBrace :: _ ≠ []
        simp
    | boundary =>
      have hbrace : ¬opensBrace (some .boundary) := by simp [opensBrace, byte?]
      have hkept := passed_congr (iff_of_false hnext hbrace) width
        (kept.dropWhile (isBlankSymbol role))
      rw [List.dropWhile_cons_of_pos (by simp [isBlankSymbol, role]), passed_boundary, hkept,
        ← ih hbrace]
      simp [Cursor.pullBack, dropBlanksBefore]

/-- Pulling ahead drops the blanks that start what is ahead. -/
theorem pullAhead_ahead (width : Nat) (rest : List Atom) :
    Cursor.pullAhead width (ahead width rest).1 (ahead width rest).2
      = ahead width (rest.dropWhile (isBlankSymbol role)) := by
  induction rest with
  | nil => rfl
  | cons a rest ih =>
    cases a with
    | text c =>
      have hdrop := dropBlanksAfter_escapeByte c (rest.head?.bind byte?) (ahead width rest).1
      rw [ahead_cons (by simp)]
      by_cases hc : isBlank c = true
      · rw [if_pos hc] at hdrop
        rw [List.dropWhile_cons_of_pos (by simpa [isBlankSymbol_text] using hc), ← ih]
        exact pullAhead_congr hdrop _ _
      · rw [if_neg hc] at hdrop
        rw [List.dropWhile_cons_of_neg (by simpa [isBlankSymbol_text] using hc),
          ahead_cons (by simp)]
        have hne := Literal.escapeByte_ne_nil c (rest.head?.bind byte?)
        exact pullAhead_of_stop hdrop (by simp [hne]) _ _
    | value source =>
      rw [List.dropWhile_cons_of_neg (by simp [isBlankSymbol, role]), ahead_cons (by simp)]
      apply pullAhead_of_stop
      · exact dropBlanksAfter_cons_stop (by decide) (.inl (by decide))
      · change Byte.hash :: _ ≠ []
        simp
    | boundary =>
      rw [List.dropWhile_cons_of_pos (by simp [isBlankSymbol, role]), ahead_boundary, ← ih]
      simp [Cursor.pullAhead, dropBlanksAfter]

/-- Whether marks touch markup and values end their push, in atoms behind
{lit}`previous`: a left mark stands in front of a less-than sign, a right mark behind a
greater-than sign.  So resolving marks brings no hash sign in front of a brace, and
bytes of host code never meet a mark. -/
def WellPlaced : Option Atom → List Atom → Prop
  | _, [] => True
  | previous, a :: rest =>
    (a = .text leftMark → rest.head? = some (.text Byte.less))
      ∧ (a = .text rightMark → previous = some (.text Byte.greater))
      ∧ (∀ source, a = .value source →
        (rest = [] ∨ rest.head? = some .boundary) ∧ Unmarked source)
      ∧ WellPlaced (some a) rest

/-- Atoms that are well placed alone are well placed behind anything. -/
theorem WellPlaced.of_none {rest : List Atom} (h : WellPlaced none rest)
    (previous : Option Atom) : WellPlaced previous rest := by
  cases rest with
  | nil => trivial
  | cons a rest =>
    rcases h with ⟨hleft, hright, hvalue, hrest⟩
    exact ⟨hleft, fun ha => absurd (hright ha) (by simp), hvalue, hrest⟩

private theorem WellPlaced.of_greater {previous : Option Atom} {rest : List Atom}
    (h : WellPlaced previous rest) : WellPlaced (some (.text Byte.greater)) rest := by
  cases rest with
  | nil => trivial
  | cons a rest =>
    rcases h with ⟨hleft, -, hvalue, hrest⟩
    exact ⟨hleft, fun _ => rfl, hvalue, hrest⟩

private theorem WellPlaced.of_head?_less {previous previous' : Option Atom} {rest : List Atom}
    (h : WellPlaced previous rest) (hless : rest.head? = some (.text Byte.less)) :
    WellPlaced previous' rest := by
  cases rest with
  | nil => trivial
  | cons a rest =>
    rcases h with ⟨hleft, -, hvalue, hrest⟩
    have ha : a = .text Byte.less := by simpa using hless
    have hright : a ≠ .text rightMark := by
      rw [ha]
      decide
    exact ⟨hleft, fun h => absurd h hright, hvalue, hrest⟩

private theorem WellPlaced.dropWhile {previous : Option Atom} {rest : List Atom}
    (h : WellPlaced previous rest) (p : Atom → Bool) :
    WellPlaced (some (.text Byte.greater)) (rest.dropWhile p) := by
  induction rest generalizing previous with
  | nil => trivial
  | cons a rest ih =>
    rw [List.dropWhile_cons]
    split
    · exact ih h.2.2.2
    · exact h.of_greater

/-! ## Moves -/

private theorem role_eq_leftMark_iff (a : Atom) : a.role = .leftMark ↔ a = .text leftMark := by
  cases a <;> simp [role, byteRole_eq_leftMark_iff]

private theorem role_eq_rightMark_iff (a : Atom) : a.role = .rightMark ↔ a = .text rightMark := by
  cases a <;> simp [role, byteRole_eq_rightMark_iff]

private theorem written_mark {c : UInt8} (h : c = leftMark ∨ c = rightMark) (next : Option Atom) :
    (Atom.text c).written next = [c] := by
  rcases h with rfl | rfl <;> exact written_of_not_mem (by decide) next

/-- At a boundary the next line is entered. -/
theorem move_boundary (width : Nat) (kept rest : List Atom) :
    (cursorAt width kept (.boundary :: rest)).Move (cursorAt width (.boundary :: kept) rest) := by
  have henter : cursorAt width (.boundary :: kept) rest
      = Cursor.enter ((cursorAt width kept (.boundary :: rest)).line
          :: (cursorAt width kept (.boundary :: rest)).above)
        ⟨width, true, (ahead width rest).1⟩ (ahead width rest).2 := by
    simp [cursorAt, Cursor.enter, Cursor.line]
  rw [henter]
  exact .enter (by simp [cursorAt]) (by simp [cursorAt])

/-- A left mark drops the blanks that end what was kept. -/
theorem move_leftMark (width : Nat) (kept rest : List Atom)
    (hless : rest.head? = some (.text Byte.less)) :
    (cursorAt width kept (.text leftMark :: rest)).Move
      (cursorAt width (kept.dropWhile (isBlankSymbol role)) rest) := by
  have hmark : ¬opensBrace (some (.text leftMark)) := not_opensBrace_text (by decide)
  have hrest : ¬opensBrace rest.head? := by
    rw [hless]
    exact not_opensBrace_text (by decide)
  have hafter : (cursorAt width kept (.text leftMark :: rest)).after
      = leftMark :: (ahead width rest).1 := by
    simp [cursorAt, ahead_cons, written_mark (.inl rfl)]
  have hmove := Cursor.Move.trimBefore hafter rfl
  have hpull := pullBack_passed hmark width kept
  rw [passed_congr (iff_of_false hmark hrest) width (kept.dropWhile _)] at hpull
  simpa [cursorAt, Cursor.trimBefore, hpull, ahead_cons] using hmove

/-- A right mark drops the blanks that start what is ahead. -/
theorem move_rightMark (width : Nat) (kept rest : List Atom)
    (hgreater : kept.head? = some (.text Byte.greater)) :
    (cursorAt width kept (.text rightMark :: rest)).Move
      (cursorAt width kept (rest.dropWhile (isBlankSymbol role))) := by
  have hafter : (cursorAt width kept (.text rightMark :: rest)).after
      = rightMark :: (ahead width rest).1 := by
    simp [cursorAt, ahead_cons, written_mark (.inr rfl)]
  have hmove := Cursor.Move.trimAfter hafter rfl
  have hpassed : passed width (some (.text rightMark)) kept
      = passed width (rest.dropWhile (isBlankSymbol role)).head? kept := by
    rcases List.head?_eq_some_iff.1 hgreater with ⟨others, rfl⟩
    have hwritten := written_of_not_mem (show Byte.greater ∉ Literal.escapes.map Prod.snd by decide)
    simp only [passed, hwritten]
  simpa [cursorAt, Cursor.trimAfter, pullAhead_ahead, ahead_cons, hpassed] using hmove

/-- A byte of text is passed over together with its escape. -/
theorem move_text (width : Nat) (kept rest : List Atom) {c : UInt8} (hleft : c ≠ leftMark)
    (hright : c ≠ rightMark) :
    (cursorAt width kept (.text c :: rest)).Move (cursorAt width (.text c :: kept) rest) := by
  obtain ⟨d, more, hwritten, hd⟩ :=
    Literal.exists_cons_escapeByte hleft hright (rest.head?.bind byte?)
  have hafter : (cursorAt width kept (.text c :: rest)).after
      = d :: (more ++ (ahead width rest).1) := by
    simp [cursorAt, ahead_cons, written, hwritten]
  have hmove := Cursor.Move.skip hafter hd.1 hd.2
  have hunit : unitLength true
      (Literal.escapeByte c (rest.head?.bind byte?) ++ (ahead width rest).1)
      = (Literal.escapeByte c (rest.head?.bind byte?)).length :=
    unitLength_escapeByte opensBrace_of_head?_ahead
  simpa [cursorAt, Cursor.skip, ahead_cons, passed_cons, written, hunit] using hmove

/-- A value that ends its push is passed over up to the end of the line.  The moves
inside of it need not end where the value does, if its braces do not match. -/
theorem run_value (width : Nat) (kept : List Atom) {rest : List Atom} {source : Bytes}
    (hend : rest = [] ∨ rest.head? = some .boundary) (hsource : Unmarked source) :
    (cursorAt width kept (.value source :: rest)).run
      = (cursorAt width (.value source :: kept) rest).run := by
  have hnothing : (ahead width rest).1 = [] := by
    rcases hend with rfl | hboundary
    · rfl
    · rcases List.head?_eq_some_iff.1 hboundary with ⟨others, rfl⟩
      rw [ahead_boundary]
  have hafter : (cursorAt width kept (.value source :: rest)).after
      = (Atom.value source).written rest.head? := by
    simp [cursorAt, ahead_cons, hnothing]
  have hunmarked : Unmarked (cursorAt width kept (.value source :: rest)).after := by
    rw [hafter, written, unmarked_append_iff, unmarked_append_iff]
    exact ⟨⟨by decide, hsource⟩, by decide⟩
  rw [Cursor.run_of_unmarked hunmarked]
  congr 1
  simp [cursorAt, Cursor.skip, ahead_cons, passed_cons, hnothing]

/-- Every atom but a mark is passed over and kept. -/
theorem run_keep (width : Nat) (kept : List Atom) {a : Atom} {rest : List Atom}
    (h : WellPlaced kept.head? (a :: rest)) (hleft : a.role ≠ .leftMark)
    (hright : a.role ≠ .rightMark) :
    (cursorAt width kept (a :: rest)).run = (cursorAt width (a :: kept) rest).run := by
  cases a with
  | text c =>
    have hc : c ≠ leftMark := fun e => hleft ((byteRole_eq_leftMark_iff c).2 e)
    have hc' : c ≠ rightMark := fun e => hright ((byteRole_eq_rightMark_iff c).2 e)
    exact Cursor.run_of_move (move_text width kept rest hc hc')
  | value source =>
    rcases h.2.2.1 source rfl with ⟨hend, hsource⟩
    exact run_value width kept hend hsource
  | boundary => exact Cursor.run_of_move (move_boundary width kept rest)

/-- Running a cursor resolves the atoms ahead of it. -/
theorem run_cursorAt (width : Nat) (kept rest : List Atom)
    (h : WellPlaced kept.head? rest) :
    (cursorAt width kept rest).run = linesOf width (resolveFrom role kept rest) := by
  -- Each step of the resolution is one move, but for a value, whose units are many moves.
  fun_induction resolveFrom role kept rest with
  | case1 kept =>
    have hnext : (cursorAt width kept []).next = none := by
      rw [Cursor.next_eq_none_iff]
      exact ⟨rfl, rfl⟩
    rw [Cursor.run_of_next_eq_none hnext, lines_cursorAt, List.append_nil]
  | case2 kept a rest hrole ih =>
    rcases (role_eq_leftMark_iff a).1 hrole with rfl
    have hless := h.1 rfl
    rw [Cursor.run_of_move (move_leftMark width kept rest hless)]
    exact ih (h.2.2.2.of_head?_less hless)
  | case3 kept a rest hrole ih =>
    rcases (role_eq_rightMark_iff a).1 hrole with rfl
    have hgreater := h.2.1 rfl
    rw [Cursor.run_of_move (move_rightMark width kept rest hgreater)]
    apply ih
    rw [hgreater]
    exact h.2.2.2.dropWhile _
  | case4 kept a rest hrole ih =>
    rw [run_keep width kept h (by simp [hrole]) (by simp [hrole])]
    exact ih h.2.2.2
  | case5 kept a rest hrole ih =>
    rw [run_keep width kept h (by simp [hrole]) (by simp [hrole])]
    exact ih h.2.2.2

end Atom

/-- A run of pushes is trimmed as its atoms are resolved. -/
theorem resolveMarks_linesOf (width : Nat) {atoms : List Atom}
    (h : Atom.WellPlaced none atoms) :
    resolveMarks (Atom.linesOf width atoms) = Atom.linesOf width (resolved Atom.role atoms) :=
  Atom.run_cursorAt width [] atoms h

end TemplateCompiler
