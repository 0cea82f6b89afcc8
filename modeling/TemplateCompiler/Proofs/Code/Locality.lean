import TemplateCompiler.Code.Cursor
import TemplateCompiler.Proofs.Code.Listing
import TemplateCompiler.Proofs.Code.Move

/-!
# Trimming is local

Only neighbouring pushes of literals in the same block of code are joined, so
trimming never looks across any other pair of lines.  A cursor over some lines moves
in the same way when more lines stand beyond such a border, above it or below it,
and the lines beyond stay as they are.

Main results:

- Theorem {lit}`Cursor.run_extendBelow`: lines beyond a border below are only reached
  after the lines before it are finished.
- Theorem {lit}`Cursor.run_extendAbove`: lines beyond a border above are never changed
  again.
- Theorem {lit}`trimmed_append`: code on both sides of a border is trimmed
  independently.
-/

namespace TemplateCompiler

/-- What decides whether a line can be joined to a neighbour.  Joining lines keeps
the kind that they share. -/
structure LineKind where
  literal : Bool
  indent : Nat

/-- The kind of a line. -/
def Line.kind (line : Line) : LineKind :=
  ⟨line.literal, line.indent⟩

/-- Whether neighbouring lines of these kinds can be joined. -/
def LineKind.joins (first second : LineKind) : Bool :=
  first.literal && second.literal && first.indent == second.indent

private theorem Line.joins_eq_kind (first second : Line) :
    first.joins second = first.kind.joins second.kind :=
  rfl

private theorem LineKind.joins_comm (first second : LineKind) :
    first.joins second = second.joins first := by
  simp only [joins, Bool.and_comm first.literal, Bool.beq_comm]

/-- The kind of the line that is farthest away among some lines on one side of a
line, nearest first; without such lines, the kind of that line itself. -/
def farthestKind : LineKind → List Line → LineKind
  | kind, [] => kind
  | _, line :: rest => farthestKind line.kind rest

private theorem farthestKind_eq_of_getLast {line : Line} {lines : List Line}
    (h : lines.getLast? = some line) (kind : LineKind) : farthestKind kind lines = line.kind := by
  induction lines generalizing kind with
  | nil => simp at h
  | cons next rest ih =>
    cases rest with
    | nil =>
      have hnext : next = line := by simpa using h
      rw [hnext]
      rfl
    | cons other others =>
      rw [List.getLast?_cons_cons] at h
      exact ih h next.kind

/-! ## Joining stops at a border -/

namespace Cursor

/-- Joining upwards stops at a border. -/
theorem pullBack_append {indent : Nat} {above beyond : List Line} {before : Bytes}
    (hborder : ∀ line ∈ beyond.head?,
      line.kind.joins (farthestKind ⟨true, indent⟩ above) = false) :
    pullBack indent (above ++ beyond) before
      = ((pullBack indent above before).1 ++ beyond, (pullBack indent above before).2) := by
  fun_induction pullBack indent above before with
  | case1 before =>
    cases beyond with
    | nil => simp [pullBack]
    | cons line rest =>
      have hline : (line.literal && line.indent == indent) = false := by
        simpa [LineKind.joins, Line.kind, farthestKind] using hborder line
      rw [List.nil_append, pullBack]
      split
      · next hnil => simp [hline, hnil]
      · next c kept hkept => simp [hkept]
  | case2 line above before hnil hjoin ih =>
    have hkind : line.kind = ⟨true, indent⟩ := by
      simp only [Bool.and_eq_true, beq_iff_eq] at hjoin
      simp [Line.kind, hjoin]
    rw [List.cons_append, pullBack]
    simp only [hnil, hjoin, if_true]
    apply ih
    simpa [farthestKind, hkind] using hborder
  | case3 line above before hnil hjoin => simp [pullBack, hnil, hjoin]
  | case4 line above before c kept hkept => simp [pullBack, hkept]

/-- Joining downwards stops at a border. -/
theorem pullAhead_append {indent : Nat} {after : Bytes} {below beyond : List Line}
    (hborder : ∀ line ∈ beyond.head?,
      (farthestKind ⟨true, indent⟩ below).joins line.kind = false) :
    pullAhead indent after (below ++ beyond)
      = ((pullAhead indent after below).1, (pullAhead indent after below).2 ++ beyond) := by
  fun_induction pullAhead indent after below with
  | case1 after =>
    cases beyond with
    | nil => simp [pullAhead]
    | cons line rest =>
      have hline : (line.literal && line.indent == indent) = false := by
        have h := hborder line rfl
        rw [LineKind.joins_comm] at h
        simpa [LineKind.joins, Line.kind, farthestKind] using h
      rw [List.nil_append, pullAhead]
      split
      · next hnil => simp [hline, hnil]
      · next c kept hkept => simp [hkept]
  | case2 after line below hnil hjoin ih =>
    have hkind : line.kind = ⟨true, indent⟩ := by
      simp only [Bool.and_eq_true, beq_iff_eq] at hjoin
      simp [Line.kind, hjoin]
    rw [List.cons_append, pullAhead]
    simp only [hnil, hjoin, if_true]
    apply ih
    simpa [farthestKind, hkind] using hborder
  | case3 after line below hnil hjoin => simp [pullAhead, hnil, hjoin]
  | case4 after line below c kept hkept => simp [pullAhead, hkept]

/-- Joining upwards keeps the kind of the highest line. -/
theorem farthestKind_pullBack (indent : Nat) (above : List Line) (before : Bytes) :
    farthestKind ⟨true, indent⟩ (pullBack indent above before).1
      = farthestKind ⟨true, indent⟩ above := by
  fun_induction pullBack indent above before with
  | case2 line above before hnil hjoin ih =>
    simp only [Bool.and_eq_true, beq_iff_eq] at hjoin
    rw [ih]
    simp [farthestKind, Line.kind, hjoin]
  | _ => rfl

/-- Joining downwards keeps the kind of the lowest line. -/
theorem farthestKind_pullAhead (indent : Nat) (after : Bytes) (below : List Line) :
    farthestKind ⟨true, indent⟩ (pullAhead indent after below).2
      = farthestKind ⟨true, indent⟩ below := by
  fun_induction pullAhead indent after below with
  | case2 after line below hnil hjoin ih =>
    simp only [Bool.and_eq_true, beq_iff_eq] at hjoin
    rw [ih]
    simp [farthestKind, Line.kind, hjoin]
  | _ => rfl

/-! ## Moving beside a border -/

/-- The kind of the line that the cursor is in. -/
def kind (cursor : Cursor) : LineKind :=
  ⟨cursor.literal, cursor.indent⟩

/-- The kind of the highest line. -/
def topKind (cursor : Cursor) : LineKind :=
  farthestKind cursor.kind cursor.above

/-- The kind of the lowest line. -/
def bottomKind (cursor : Cursor) : LineKind :=
  farthestKind cursor.kind cursor.below

/-- The cursor with more lines above the highest one, nearest first. -/
def extendAbove (cursor : Cursor) (beyond : List Line) : Cursor :=
  { cursor with above := cursor.above ++ beyond }

/-- The cursor with more lines below the lowest one. -/
def extendBelow (cursor : Cursor) (beyond : List Line) : Cursor :=
  { cursor with below := cursor.below ++ beyond }

private theorem kind_of_literal {cursor : Cursor} (h : cursor.literal = true) :
    cursor.kind = ⟨true, cursor.indent⟩ := by
  simp [kind, h]

/-- No move changes the kind of the first line. -/
theorem Move.topKind_eq {cursor cursor' : Cursor} (h : Move cursor cursor') :
    cursor'.topKind = cursor.topKind := by
  cases h with
  | enter hafter hbelow => rfl
  | dropMark hafter hmark hliteral => rfl
  | trimBefore hafter hliteral =>
    have hkind := kind_of_literal hliteral
    have hpull := farthestKind_pullBack cursor.indent cursor.above cursor.before
    rw [← hkind] at hpull
    exact hpull
  | trimAfter hafter hliteral => rfl
  | skip hafter hleft hright => rfl

/-- No move changes the kind of the last line. -/
theorem Move.bottomKind_eq {cursor cursor' : Cursor} (h : Move cursor cursor') :
    cursor'.bottomKind = cursor.bottomKind := by
  cases h with
  | enter hafter hbelow =>
    simp only [bottomKind, hbelow, farthestKind]
    rfl
  | dropMark hafter hmark hliteral => rfl
  | trimBefore hafter hliteral => rfl
  | @trimAfter rest hafter hliteral =>
    have hkind := kind_of_literal hliteral
    have hpull := farthestKind_pullAhead cursor.indent rest cursor.below
    rw [← hkind] at hpull
    exact hpull
  | skip hafter hleft hright => rfl

/-- Lines beyond a border above change no move. -/
theorem Move.extendAbove {cursor cursor' : Cursor} (h : Move cursor cursor')
    {beyond : List Line}
    (hborder : ∀ line ∈ beyond.head?, line.kind.joins cursor.topKind = false) :
    Move (cursor.extendAbove beyond) (cursor'.extendAbove beyond) := by
  cases h with
  | enter hafter hbelow => exact .enter hafter hbelow
  | dropMark hafter hmark hliteral =>
    exact .dropMark hafter hmark hliteral
  | @trimBefore rest hafter hliteral =>
    have hpull : pullBack cursor.indent (cursor.above ++ beyond) cursor.before
        = ((pullBack cursor.indent cursor.above cursor.before).1 ++ beyond,
          (pullBack cursor.indent cursor.above cursor.before).2) := by
      apply pullBack_append
      rw [← kind_of_literal hliteral]
      exact hborder
    have hextended : (cursor.extendAbove beyond).after = leftMark :: rest := hafter
    have hmove := Move.trimBefore hextended hliteral
    simp only [Cursor.trimBefore, Cursor.extendAbove, hpull] at hmove ⊢
    exact hmove
  | trimAfter hafter hliteral =>
    exact .trimAfter hafter hliteral
  | skip hafter hleft hright =>
    exact .skip hafter hleft hright

/-- Lines beyond a border below change no move. -/
theorem Move.extendBelow {cursor cursor' : Cursor} (h : Move cursor cursor')
    {beyond : List Line}
    (hborder : ∀ line ∈ beyond.head?, cursor.bottomKind.joins line.kind = false) :
    Move (cursor.extendBelow beyond) (cursor'.extendBelow beyond) := by
  cases h with
  | enter hafter hbelow =>
    refine .enter hafter ?_
    simp only [Cursor.extendBelow, hbelow, List.cons_append]
    rfl
  | dropMark hafter hmark hliteral =>
    exact .dropMark hafter hmark hliteral
  | trimBefore hafter hliteral =>
    exact .trimBefore hafter hliteral
  | @trimAfter rest hafter hliteral =>
    have hpull : pullAhead cursor.indent rest (cursor.below ++ beyond)
        = ((pullAhead cursor.indent rest cursor.below).1,
          (pullAhead cursor.indent rest cursor.below).2 ++ beyond) := by
      apply pullAhead_append
      rw [← kind_of_literal hliteral]
      exact hborder
    have hextended : (cursor.extendBelow beyond).after = rightMark :: rest := hafter
    have hmove := Move.trimAfter hextended hliteral
    simp only [Cursor.trimAfter, Cursor.extendBelow, hpull] at hmove ⊢
    exact hmove
  | skip hafter hleft hright =>
    exact .skip hafter hleft hright

/-! ## Running beside a border -/

/-- Lines beyond a border above stay as they are. -/
theorem run_extendAbove {cursor : Cursor} {beyond : List Line}
    (hborder : ∀ line ∈ beyond.head?, line.kind.joins cursor.topKind = false) :
    (cursor.extendAbove beyond).run = beyond.reverse ++ cursor.run := by
  fun_induction run cursor with
  | case1 cursor hnext =>
    have hextended : (cursor.extendAbove beyond).next = none := by
      rw [next_eq_none_iff] at hnext ⊢
      exact hnext
    rw [run_of_next_eq_none hextended]
    simp [lines, line, Cursor.extendAbove]
  | case2 cursor cursor' hnext ih =>
    have hmove := move_of_next_eq hnext
    rw [run_of_move (hmove.extendAbove hborder)]
    -- The border stays one, since no move changes the kind of the highest line.
    apply ih
    rw [hmove.topKind_eq]
    exact hborder

/-- Lines beyond a border below are entered when the lines before it are finished,
and not before. -/
theorem run_extendBelow {cursor : Cursor} {line : Line} {below : List Line}
    (hborder : cursor.bottomKind.joins line.kind = false) :
    (cursor.extendBelow (line :: below)).run = (enter cursor.run.reverse line below).run := by
  fun_induction run cursor with
  | case1 cursor hnext =>
    rcases (next_eq_none_iff cursor).1 hnext with ⟨hafter, hbelow⟩
    have hmove : Move (cursor.extendBelow (line :: below))
        (enter (cursor.line :: cursor.above) line below) := by
      refine .enter hafter ?_
      simp [Cursor.extendBelow, hbelow]
    rw [run_of_move hmove]
    simp [lines, hbelow]
  | case2 cursor cursor' hnext ih =>
    have hmove := move_of_next_eq hnext
    have hbeyond : ∀ other ∈ (line :: below).head?, cursor.bottomKind.joins other.kind = false := by
      simpa using hborder
    rw [run_of_move (hmove.extendBelow hbeyond)]
    apply ih
    rw [hmove.bottomKind_eq]
    exact hborder

/-- The last line that a run leaves is of the kind of the lowest line. -/
theorem kind_of_getLast_run {cursor : Cursor} {line : Line}
    (h : line ∈ cursor.run.getLast?) : line.kind = cursor.bottomKind := by
  fun_induction run cursor with
  | case1 cursor hnext =>
    rcases (next_eq_none_iff cursor).1 hnext with ⟨hafter, hbelow⟩
    have hline : cursor.line = line := by simpa [lines, hbelow] using h
    rw [← hline, bottomKind, hbelow]
    rfl
  | case2 cursor cursor' hnext ih =>
    rw [ih h]
    exact (move_of_next_eq hnext).bottomKind_eq

end Cursor

/-- Marks are resolved independently on both sides of a border. -/
theorem resolveMarks_append {first second : List Line}
    (hborder : ∀ above ∈ first.getLast?, ∀ below ∈ second.head?, above.joins below = false) :
    resolveMarks (first ++ second) = resolveMarks first ++ resolveMarks second := by
  cases first with
  | nil => rfl
  | cons line lines =>
    cases second with
    | nil => simp [resolveMarks]
    | cons next below =>
      let upper := Cursor.enter [] line lines
      obtain ⟨last, hlast⟩ : ∃ last, (line :: lines).getLast? = some last :=
        ⟨_, List.getLast?_eq_some_getLast (List.cons_ne_nil line lines)⟩
      have hbottom : upper.bottomKind = last.kind :=
        farthestKind_eq_of_getLast hlast line.kind
      have hdown : upper.bottomKind.joins next.kind = false := by
        rw [hbottom, ← Line.joins_eq_kind]
        exact hborder last hlast next rfl
      have hup : ∀ other ∈ upper.run.reverse.head?,
          other.kind.joins (Cursor.enter [] next below).topKind = false := by
        intro other hother
        rw [List.head?_reverse] at hother
        rw [Cursor.kind_of_getLast_run hother]
        exact hdown
      have habove := Cursor.run_extendAbove hup
      rw [List.reverse_reverse] at habove
      calc
        (upper.extendBelow (next :: below)).run
            = (Cursor.enter upper.run.reverse next below).run := Cursor.run_extendBelow hdown
        _ = upper.run ++ (Cursor.enter [] next below).run := habove

/-- Code that ends in a line feed and the code that follows are trimmed
independently, unless the lines that meet are pushes of literals at one
indentation. -/
theorem trimmed_append (first second : Bytes)
    (hclosed : first = [] ∨ first.getLast? = some Byte.lineFeed)
    (hborder : ∀ above ∈ (Listing.parse first).lines.getLast?,
      ∀ below ∈ (Listing.parse second).lines.head?, above.joins below = false) :
    trimmed (first ++ second) = trimmed first ++ trimmed second := by
  rcases hclosed with rfl | hclosed
  · rfl
  · by_cases hsecond : second = []
    · subst hsecond
      simp [trimmed, trimmedChunks, Listing.parse, fields, resolveMarks, Listing.chunks,
        Listing.chunksOf]
    · rcases List.getLast?_eq_some_iff.1 hclosed with ⟨code, rfl⟩
      have hnonempty : resolveMarks (Listing.parse second).lines ≠ [] := by
        obtain ⟨line, below, hlines⟩ :=
          List.exists_cons_of_ne_nil (Listing.lines_parse_ne_nil hsecond)
        rw [hlines]
        exact Cursor.run_ne_nil _
      have hfirst : (Listing.parse (code ++ [Byte.lineFeed])).closed = true := by
        rw [Listing.parse_concat]
      simp only [trimmed, trimmedChunks, Listing.chunks]
      rw [Listing.parse_append code second hsecond]
      simp only [resolveMarks_append hborder, hfirst]
      rw [Listing.chunksOf_append _ _ hnonempty, List.flatten_append]

/-- A push in a block and one after the block, with marks that meet between them. -/
theorem trimmed_append_end_of_block :
    trimmed (ascii "  $o.push \"<li>\x12 \"\n" ++ ascii "$o.push \" \x11</ul>\"\n")
      = trimmed (ascii "  $o.push \"<li>\x12 \"\n")
        ++ trimmed (ascii "$o.push \" \x11</ul>\"\n") :=
  trimmed_append _ _ (by decide) (by decide)

end TemplateCompiler
