import TemplateCompiler.Code.Line

/-!
# Resolving trim marks

A trim mark in template text asks for the blanks on one side of it to go: a left
mark those before it, a right mark those after it.  Pushed pieces are joined with
line feeds when the generated program runs, so the end of a push is a blank too,
and trimming across it joins two pushes into one.  Only pushes of literals in the
same block of code are joined, and interpolated code is never trimmed.

A cursor stands in the lines of finished code and moves from their start to
their end, resolving marks on its way.  Marks reach back across statements, so a
trim pass holds all code that it is given until it is finished, and only then
writes lines without marks.

Main results:

- Theorem {lit}`next_remaining_lt`: every move of the cursor leaves fewer bytes
  and lines ahead of it, so a run over the lines ends.
- Theorem {lit}`lines_skip`: moving on changes nothing in the lines.
- Theorem {lit}`TrimPass.pending_write`: code that comes in pieces is held as one
  text.
-/

namespace TemplateCompiler

/-! ## Marks and blanks in literals -/

/-- The mark that removes the blanks before it. -/
def leftMark : UInt8 := 0x11

/-- The mark that removes the blanks after it. -/
def rightMark : UInt8 := 0x12

/-- The letters that stand for a blank after a backslash. -/
def isBlankLetter (c : UInt8) : Bool :=
  (ascii "ntr").contains c

/-- The blanks that a literal holds unescaped. -/
def isPlainBlank (c : UInt8) : Bool :=
  c == Byte.space || c == Byte.tab

/-- Whether a run of backslashes of odd length comes first.  Of such a run the
backslash nearest to the text it follows is itself not escaped. -/
def endsInEscape (before : Bytes) : Bool :=
  (before.takeWhile (· == Byte.backslash)).length % 2 == 1

/-- Drop the blanks that end the inside of a literal, which is given last byte
first.  A letter is the end of a blank only behind an odd run of backslashes. -/
def dropBlanksBefore : Bytes → Bytes
  | [] => []
  | c :: rest =>
    if isPlainBlank c then dropBlanksBefore rest
    else
      match rest with
      | [] => [c]
      | d :: more =>
        if isBlankLetter c && endsInEscape (d :: more) then dropBlanksBefore more
        else c :: d :: more

/-- Drop the blanks that start the inside of a literal. -/
def dropBlanksAfter : Bytes → Bytes
  | [] => []
  | c :: rest =>
    if isPlainBlank c then dropBlanksAfter rest
    else
      match rest with
      | [] => [c]
      | d :: more =>
        if c == Byte.backslash && isBlankLetter d then dropBlanksAfter more
        else c :: d :: more

private theorem length_dropBlanksAfter_le (after : Bytes) :
    (dropBlanksAfter after).length ≤ after.length := by
  fun_induction dropBlanksAfter after <;> simp_all <;> omega

/-- The length of a text up to the brace that closes its first one, or up to its
end if there is none. -/
def bracedLength (depth : Nat) : Bytes → Nat
  | [] => 0
  | c :: rest =>
    if c = Byte.openBrace then bracedLength (depth + 1) rest + 1
    else if c = Byte.closeBrace then
      if depth ≤ 1 then 1 else bracedLength (depth - 1) rest + 1
    else bracedLength depth rest + 1

/-- The number of bytes that are passed over together: a backslash with the byte
after it, an interpolation of a literal, or a single byte. -/
def unitLength (literal : Bool) : Bytes → Nat
  | [] => 0
  | c :: rest =>
    if c = Byte.backslash then 2
    else if c = Byte.hash ∧ literal = true ∧ rest.head? = some Byte.openBrace then
      bracedLength 0 rest + 1
    else 1

/-- A unit has at least one byte. -/
theorem unitLength_pos (literal : Bool) (c : UInt8) (rest : Bytes) :
    0 < unitLength literal (c :: rest) := by
  simp only [unitLength]
  split
  · omega
  · split <;> omega

/-! ## Cursors -/

/-- A place in the lines of finished code. -/
structure Cursor where
  /-- The lines that were passed, nearest first. -/
  above : List Line
  /-- The indentation of the line that the cursor is in. -/
  indent : Nat
  /-- Whether that line pushes a literal. -/
  literal : Bool
  /-- The bytes of its body that were passed, nearest first. -/
  before : Bytes
  /-- The bytes of its body that are ahead. -/
  after : Bytes
  /-- The lines that are ahead. -/
  below : List Line

namespace Cursor

/-- The line that the cursor is in. -/
def line (cursor : Cursor) : Line :=
  ⟨cursor.indent, cursor.literal, cursor.before.reverse ++ cursor.after⟩

/-- All lines, with the cursor forgotten. -/
def lines (cursor : Cursor) : List Line :=
  cursor.above.reverse ++ cursor.line :: cursor.below

/-- The cursor at the start of a line. -/
def enter (above : List Line) (line : Line) (below : List Line) : Cursor :=
  ⟨above, line.indent, line.literal, [], line.body, below⟩

/-- The bytes and the starts of some lines. -/
def extent : List Line → Nat
  | [] => 0
  | line :: rest => line.body.length + 1 + extent rest

/-- How much is ahead: bytes, and starts of lines. -/
def remaining (cursor : Cursor) : Nat :=
  cursor.after.length + extent cursor.below

/-- Drop the blanks that end the passed part of a literal.  Where nothing is left
of it, the literal is joined to the one above and trimming goes on there. -/
def pullBack (indent : Nat) : List Line → Bytes → List Line × Bytes
  | [], before => ([], dropBlanksBefore before)
  | line :: above, before =>
    match dropBlanksBefore before with
    | [] =>
      if line.literal && line.indent == indent then
        pullBack indent above line.body.reverse
      else (line :: above, [])
    | c :: kept => (line :: above, c :: kept)

/-- Drop the blanks that start the part ahead of a literal.  Where nothing is left
of it, the literal below is joined to it and trimming goes on there. -/
def pullAhead (indent : Nat) : Bytes → List Line → Bytes × List Line
  | after, [] => (dropBlanksAfter after, [])
  | after, line :: below =>
    match dropBlanksAfter after with
    | [] =>
      if line.literal && line.indent == indent then pullAhead indent line.body below
      else ([], line :: below)
    | c :: kept => (c :: kept, line :: below)

/-- Remove the blanks before the cursor. -/
def trimBefore (cursor : Cursor) : Cursor :=
  let (above, before) := pullBack cursor.indent cursor.above cursor.before
  { cursor with above, before }

/-- Remove the blanks after the cursor. -/
def trimAfter (cursor : Cursor) : Cursor :=
  let (after, below) := pullAhead cursor.indent cursor.after cursor.below
  { cursor with after, below }

/-! ## Moving -/

/-- Pass over some bytes of the line. -/
def skip (cursor : Cursor) (count : Nat) : Cursor :=
  { cursor with
    before := (cursor.after.take count).reverse ++ cursor.before
    after := cursor.after.drop count }

/-- The next place: a mark is taken out, and in a literal resolved; any other
unit is passed over; the end of a line leads to the start of the next one. -/
def next (cursor : Cursor) : Option Cursor :=
  match cursor.after with
  | [] =>
    match cursor.below with
    | [] => none
    | line :: below => some (enter (cursor.line :: cursor.above) line below)
  | c :: rest =>
    if c = leftMark then
      let unmarked := { cursor with after := rest }
      some (if cursor.literal then unmarked.trimBefore else unmarked)
    else if c = rightMark then
      let unmarked := { cursor with after := rest }
      some (if cursor.literal then unmarked.trimAfter else unmarked)
    else some (cursor.skip (unitLength cursor.literal (c :: rest)))

/-- Moving on changes nothing in the lines. -/
theorem lines_skip (cursor : Cursor) (count : Nat) : (cursor.skip count).lines = cursor.lines := by
  simp [lines, line, skip, List.append_assoc]

/-- Joining lines takes as much from the lines below as it adds ahead. -/
theorem pullAhead_le (indent : Nat) (after : Bytes) (below : List Line) :
    (pullAhead indent after below).1.length + extent (pullAhead indent after below).2
      ≤ after.length + extent below := by
  fun_induction pullAhead indent after below with
  | case1 after =>
    have := length_dropBlanksAfter_le after
    simpa [extent] using this
  | case2 after line below hnil hjoin ih =>
    simp only [extent] at ih ⊢
    omega
  | case3 after line below hnil hjoin =>
    simp
  | case4 after line below c kept hkept =>
    have := length_dropBlanksAfter_le after
    rw [hkept] at this
    exact Nat.add_le_add_right this _

/-- Every move leaves less ahead. -/
theorem next_remaining_lt {cursor cursor' : Cursor} (h : cursor.next = some cursor') :
    cursor'.remaining < cursor.remaining := by
  unfold next at h
  split at h
  · next hafter =>
    split at h
    · cases h
    · next line below hbelow =>
      cases h
      simp only [remaining, enter, hafter, hbelow, extent, List.length_nil]
      omega
  · next c rest hafter =>
    split at h
    · cases h
      split <;> simp [remaining, trimBefore, hafter]
    · split at h
      · cases h
        split
        · have := pullAhead_le cursor.indent rest cursor.below
          simp only [remaining, trimAfter, hafter, List.length_cons]
          omega
        · simp [remaining, hafter]
      · cases h
        have := unitLength_pos cursor.literal c rest
        simp only [remaining, skip, hafter, List.length_drop, List.length_cons]
        omega

/-- Move to the end, and give back the lines. -/
def run (cursor : Cursor) : List Line :=
  match _h : cursor.next with
  | none => cursor.lines
  | some cursor' => cursor'.run
termination_by cursor.remaining
decreasing_by exact next_remaining_lt _h

end Cursor

/-- Resolve all trim marks in the lines of finished code. -/
def resolveMarks : List Line → List Line
  | [] => []
  | line :: below => (Cursor.enter [] line below).run

/-- The chunks that are written for finished code: one for each line that is left
when its trim marks are resolved. -/
def trimmedChunks (code : Bytes) : List Bytes :=
  let listing := Listing.parse code
  Listing.chunks { listing with lines := resolveMarks listing.lines }

/-- Finished code without its trim marks. -/
def trimmed (code : Bytes) : Bytes :=
  (trimmedChunks code).flatten

/-- A trim pass under way. -/
structure TrimPass where
  /-- The code that was given to it since it was last finished. -/
  pending : Bytes := []
deriving DecidableEq, Repr

namespace TrimPass

/-- Hold more code. -/
def write (pass : TrimPass) (code : Bytes) : TrimPass :=
  ⟨pass.pending ++ code⟩

/-- Write what is held, as chunks, and start again. -/
def finish (pass : TrimPass) : List Bytes × TrimPass :=
  (trimmedChunks pass.pending, {})

@[simp] theorem pending_write (pass : TrimPass) (code : Bytes) :
    (pass.write code).pending = pass.pending ++ code := rfl

end TrimPass

end TemplateCompiler
