import TemplateCompiler.Code.Cursor
import TemplateCompiler.Proofs.Code.Listing
import TemplateCompiler.Proofs.InPlace.Trim

/-!
# Runs of a trim pass in place

A pass that works in place reads the lines of the code, goes through them as a cursor does, and
writes what is left of them.  Its position can be too high at the end of a line, since the end
may be passed over with an escape or with an open interpolation; the next line is then entered
at its start all the same.

Main results:

- Theorem {lit}`exists_reaches_of_move`: a pass goes on to where a cursor moves to.
- Theorem {lit}`exists_reaches_run`: a pass ends its way through the lines with those that a run
  of the cursor leaves.
- Theorem {lit}`TrimPass.finish_in_place`: a pass ends for any code, without a fault, and writes
  what is written when a trim pass is finished.
-/

namespace TemplateCompiler.InPlace

open StateTransition (Reaches)

variable {closed : Bool} {cursor : Cursor} {phase : Phase}

/-- Whether a state is where a cursor is.  At the end of a line its position may be too high. -/
inductive Follows (closed : Bool) (cursor : Cursor) : State → Prop
  | on : Follows closed cursor (standing closed cursor .byte)
  | beyond (hafter : cursor.after = []) (count : Nat) :
      Follows closed cursor ((standing closed cursor .byte).pass count)

private theorem eq_standing_of_follows {c : UInt8} {rest : Bytes} {state : State}
    (h : Follows closed cursor state) (hafter : cursor.after = c :: rest) :
    state = standing closed cursor .byte := by
  cases h with
  | on => rfl
  | beyond hnil count => simp [hafter] at hnil

private theorem standing_skip {count : Nat} (h : count ≤ cursor.after.length) :
    standing closed (cursor.skip count) phase = (standing closed cursor phase).pass count := by
  have hbefore : (cursor.skip count).before.length = cursor.before.length + count := by
    simp [Cursor.skip, Nat.min_eq_left h, Nat.add_comm]
  simp only [standing, State.pass, Cursor.lines_skip, hbefore]
  rfl

/-- Passing over some bytes, the end of a line may be passed over too. -/
theorem follows_skip (closed : Bool) (cursor : Cursor) (count : Nat) :
    Follows closed (cursor.skip count) ((standing closed cursor .byte).pass count) := by
  by_cases h : count ≤ cursor.after.length
  · rw [← standing_skip h]
    exact .on
  · have hskip : cursor.skip count = cursor.skip cursor.after.length := by
      rw [← Cursor.skip_min, Nat.min_eq_right (by omega)]
    have hpass : (standing closed cursor .byte).pass count
        = (standing closed (cursor.skip cursor.after.length) .byte).pass
          (count - cursor.after.length) := by
      rw [standing_skip Nat.le.refl, State.pass_pass, Nat.add_sub_cancel' (by omega)]
    rw [hskip, hpass]
    exact .beyond (List.drop_length ..) _

/-! ## Bytes -/

private theorem unmarked_standing {c : UInt8} {rest : Bytes} (hafter : cursor.after = c :: rest)
    (trimming : Phase) :
    (standing closed cursor .byte).unmarked cursor.line trimming
      = .ok (standing closed { cursor with after := rest }
        (if cursor.literal then trimming else .byte)) := by
  have herase : (standing closed cursor .byte).erase cursor.line cursor.before.length 1
      = .ok (standing closed { cursor with after := rest } .byte) :=
    erase_ahead (show cursor.after = [c] ++ rest from hafter)
  have hliteral : cursor.line.literal = cursor.literal := rfl
  rw [State.unmarked, position_standing, herase, ok_bind, hliteral]
  cases cursor.literal <;> rfl

private theorem step_line_of_lt {state : State} (hphase : state.phase = .line)
    (h : state.number < state.lines.length) :
    state.step = .ok (some { state with position := 0, phase := .byte }) := by
  rw [State.step, hphase]
  exact congrArg (fun next => Except.ok (some next)) (if_pos h)

private theorem step_line_of_le {state : State} (hphase : state.phase = .line)
    (h : state.lines.length ≤ state.number) :
    state.step = .ok (some { state with number := 0, phase := .writing }) := by
  rw [State.step, hphase]
  exact congrArg (fun next => Except.ok (some next)) (if_neg (Nat.not_lt.2 h))

/-- A left mark is erased, and what is before it is trimmed if it stands in a literal. -/
theorem step_byte_leftMark {rest : Bytes} (hafter : cursor.after = leftMark :: rest) :
    (standing closed cursor .byte).step
      = .ok (some (standing closed { cursor with after := rest }
        (if cursor.literal then .back else .byte))) := by
  change some <$> State.looked _ = _
  simp [State.looked, body_of_after hafter, unmarked_standing hafter]

/-- A right mark is erased, and what is after it is trimmed if it stands in a literal. -/
theorem step_byte_rightMark {rest : Bytes} (hafter : cursor.after = rightMark :: rest) :
    (standing closed cursor .byte).step
      = .ok (some (standing closed { cursor with after := rest }
        (if cursor.literal then .ahead else .byte))) := by
  change some <$> State.looked _ = _
  simp [State.looked, body_of_after hafter, rightMark_ne_leftMark, unmarked_standing hafter]

/-- The byte behind a hash sign is looked at, if there is one. -/
theorem testIf_opening {c : UInt8} {rest : Bytes} (hafter : cursor.after = c :: rest) :
    testIf (c == Byte.hash && cursor.line.literal
        && decide (cursor.before.length + 1 < cursor.line.body.length)) cursor.line.body
        (pure (cursor.before.length + 1)) (· == Byte.openBrace)
      = .ok (decide
        (c = Byte.hash ∧ cursor.literal = true ∧ rest.head? = some Byte.openBrace)) := by
  have hliteral : cursor.line.literal = cursor.literal := rfl
  rw [body_of_after hafter, hliteral]
  by_cases hhash : c = Byte.hash ∧ cursor.literal = true
  · cases rest with
    | nil => simp [testIf]
    | cons d more => simp [testIf, hhash, Bool.beq_eq_decide_eq]
  · have hno : (c == Byte.hash && cursor.literal) = false := by
      simpa using hhash
    rw [hno, Bool.false_and, decide_eq_false fun h => hhash ⟨h.1, h.2.1⟩]
    rfl

/-- Any other byte is passed over, with the byte it escapes or into the braces it opens. -/
theorem step_byte_unit {c : UInt8} {rest : Bytes} (hafter : cursor.after = c :: rest)
    (hleft : c ≠ leftMark) (hright : c ≠ rightMark) :
    (standing closed cursor .byte).step
      = .ok (some (if c = Byte.backslash then (standing closed cursor .byte).pass 2
        else if c = Byte.hash ∧ cursor.literal = true ∧ rest.head? = some Byte.openBrace then
          standing closed cursor (.braces 0)
        else (standing closed cursor .byte).pass 1)) := by
  have hplace : cursor.before.length < cursor.line.body.length := by
    simp [body_of_after hafter]
  have hitem : itemAt cursor.line.body cursor.before.length = .ok c := by
    simp [body_of_after hafter]
  change some <$> State.looked _ = _
  simp only [State.looked, lines_standing, number_standing, itemAt_reverse, ok_bind,
    position_standing, hplace, if_true, hitem, hleft, hright, if_false]
  rw [testIf_opening hafter]
  by_cases hslash : c = Byte.backslash
  · rw [if_pos hslash, if_pos hslash]
    rfl
  · rw [if_neg hslash, if_neg hslash]
    simp only [ok_bind, decide_eq_true_eq, goto_standing]
    rfl

private theorem looked_of_end {state : State} {line : Line}
    (hline : itemAt state.lines state.number = .ok line)
    (hend : line.body.length ≤ state.position) :
    state.looked = .ok { state with number := state.number + 1, phase := .line } := by
  rw [State.looked, hline, ok_bind, if_neg (Nat.not_lt.2 hend)]
  rfl

/-- The end of a line is left, also from beyond it. -/
theorem step_byte_end {state : State} (h : Follows closed cursor state)
    (hafter : cursor.after = []) :
    state.step = .ok (some { standing closed cursor .line with
      number := cursor.above.length + 1, position := state.position }) := by
  have hline : itemAt (standing closed cursor .byte).lines (standing closed cursor .byte).number
      = .ok cursor.line := by
    simp
  have hlength : cursor.line.body.length = cursor.before.length := by
    simp [body_of_after hafter]
  cases h with
  | on =>
    change some <$> State.looked _ = _
    rw [looked_of_end hline hlength.le, map_ok]
    rfl
  | beyond _ count =>
    have hend : cursor.line.body.length ≤ cursor.before.length + count := by
      omega
    change some <$> State.looked _ = _
    rw [@looked_of_end ((standing closed cursor .byte).pass count) _ hline hend, map_ok]
    rfl

/-- In braces, each byte is passed over and the depth is kept. -/
theorem step_braces {c : UInt8} {rest : Bytes} (hafter : cursor.after = c :: rest) (depth : Int) :
    (standing closed cursor (.braces depth)).step
      = .ok (some (standing closed (cursor.skip 1)
        (if c = Byte.openBrace then .braces (depth + 1)
        else if c = Byte.closeBrace then
          if depth - 1 = 0 then .byte else .braces (depth - 1)
        else .braces depth))) := by
  have hskip (next : Phase) : ((standing closed cursor (.braces depth)).pass 1).goto next
      = standing closed (cursor.skip 1) next := by
    rw [← standing_skip (by simp [hafter]), goto_standing]
  change some <$> State.matched _ _ = _
  simp [State.matched, body_of_after hafter, hskip]

private theorem step_braces_end (hafter : cursor.after = []) (depth : Int) :
    (standing closed cursor (.braces depth)).step
      = .ok (some ((standing closed cursor .byte).pass 1)) := by
  change some <$> State.matched _ _ = _
  simp [State.matched, body_of_after hafter]
  rfl

/-- An interpolation is passed over up to the brace that closes it. -/
theorem exists_reaches_braces (closed : Bool) (cursor : Cursor) (depth : Nat) :
    ∃ state, Follows closed (cursor.skip (bracedLength (depth + 1) cursor.after)) state
      ∧ Reaches State.next (standing closed cursor (.braces (depth + 1))) state := by
  -- The induction is on what is ahead; the first brace was passed, so the depth is never zero.
  induction hafter : cursor.after generalizing cursor depth with
  | nil =>
    have hskip : cursor.skip (bracedLength (depth + 1) []) = cursor := by
      simp [bracedLength, Cursor.skip]
    refine ⟨(standing closed cursor .byte).pass 1, ?_, reaches_of_step (step_braces_end hafter _)⟩
    rw [hskip]
    exact .beyond hafter 1
  | cons c rest ih =>
    have hstep := reaches_of_step (@step_braces closed cursor c rest hafter (depth + 1))
    have hrest (next : Nat) :
        ∃ state, Follows closed (cursor.skip (bracedLength (next + 1) rest + 1)) state
          ∧ Reaches State.next (standing closed (cursor.skip 1) (.braces (next + 1))) state := by
      rw [Nat.add_comm, ← Cursor.skip_skip]
      exact ih (cursor.skip 1) next (by simp [Cursor.skip, hafter])
    by_cases hopen : c = Byte.openBrace
    · rw [if_pos hopen] at hstep
      rcases hrest (depth + 1) with ⟨state, hfollows, hreaches⟩
      rw [bracedLength, if_pos hopen]
      exact ⟨state, hfollows, hstep.trans hreaches⟩
    · rw [if_neg hopen] at hstep
      by_cases hclose : c = Byte.closeBrace
      · rw [if_pos hclose] at hstep
        cases depth with
        | zero =>
          rw [if_pos (by omega)] at hstep
          rw [bracedLength, if_neg hopen, if_pos hclose, if_pos (by omega)]
          exact ⟨_, .on, hstep⟩
        | succ depth =>
          rw [if_neg (by omega), Int.add_sub_cancel] at hstep
          rcases hrest depth with ⟨state, hfollows, hreaches⟩
          rw [bracedLength, if_neg hopen, if_pos hclose, if_neg (by omega)]
          exact ⟨state, hfollows, hstep.trans hreaches⟩
      · rw [if_neg hclose] at hstep
        rcases hrest depth with ⟨state, hfollows, hreaches⟩
        rw [bracedLength, if_neg hopen, if_neg hclose]
        exact ⟨state, hfollows, hstep.trans hreaches⟩

/-- An interpolation is opened by the hash sign and the brace behind it. -/
theorem exists_reaches_interpolation {inside : Bytes}
    (hafter : cursor.after = Byte.hash :: Byte.openBrace :: inside) :
    ∃ state, Follows closed (cursor.skip (bracedLength 0 (Byte.openBrace :: inside) + 1)) state
      ∧ Reaches State.next (standing closed cursor (.braces 0)) state := by
  have hfirst : (cursor.skip 1).after = Byte.openBrace :: inside := by
    simp [Cursor.skip, hafter]
  have hinside : (cursor.skip 2).after = inside := by
    simp [Cursor.skip, hafter]
  have hhash := reaches_of_step (@step_braces closed cursor Byte.hash _ hafter 0)
  have hopen := reaches_of_step (@step_braces closed (cursor.skip 1) _ _ hfirst 0)
  rcases exists_reaches_braces closed (cursor.skip 2) 0 with ⟨state, hfollows, hreaches⟩
  rw [Cursor.skip_skip, hinside, Nat.add_comm] at hfollows
  rw [if_neg (by decide), if_neg (by decide)] at hhash
  rw [if_pos rfl, Cursor.skip_skip] at hopen
  exact ⟨state, hfollows, (hhash.trans hopen).trans hreaches⟩

/-! ## Moves -/

/-- A unit of a line is passed over. -/
theorem exists_reaches_skip {c : UInt8} {rest : Bytes} (hafter : cursor.after = c :: rest)
    (hleft : c ≠ leftMark) (hright : c ≠ rightMark) :
    ∃ state, Follows closed (cursor.skip (unitLength cursor.literal cursor.after)) state
      ∧ Reaches State.next (standing closed cursor .byte) state := by
  have hstep := reaches_of_step (@step_byte_unit closed cursor c rest hafter hleft hright)
  rw [hafter, unitLength]
  by_cases hslash : c = Byte.backslash
  · rw [if_pos hslash] at hstep ⊢
    exact ⟨_, follows_skip closed cursor 2, hstep⟩
  · rw [if_neg hslash] at hstep ⊢
    split
    · next hopening =>
      rw [if_pos hopening] at hstep
      rcases hopening with ⟨rfl, -, hbrace⟩
      rcases List.head?_eq_some_iff.1 hbrace with ⟨inside, rfl⟩
      rcases @exists_reaches_interpolation closed cursor inside hafter with
        ⟨state, hfollows, hreaches⟩
      exact ⟨state, hfollows, hstep.trans hreaches⟩
    · next hopening =>
      rw [if_neg hopening] at hstep
      exact ⟨_, follows_skip closed cursor 1, hstep⟩

/-- A pass enters the line below. -/
theorem reaches_enter {line : Line} {below : List Line} {state : State}
    (h : Follows closed cursor state) (hafter : cursor.after = [])
    (hbelow : cursor.below = line :: below) :
    Reaches State.next state
      (standing closed (Cursor.enter (cursor.line :: cursor.above) line below) .byte) := by
  have hnumber : cursor.above.length + 1 < cursor.lines.length := by
    simp [Cursor.lines, hbelow]
  have hlines : cursor.lines
      = (Cursor.enter (cursor.line :: cursor.above) line below).lines := by
    simp [Cursor.lines, Cursor.enter, Cursor.line, hbelow]
  have hstanding : standing closed (Cursor.enter (cursor.line :: cursor.above) line below) .byte
      = { standing closed cursor .line with
        number := cursor.above.length + 1, position := 0, phase := .byte } := by
    simp [standing, hlines, Cursor.enter]
  rw [hstanding]
  exact (reaches_of_step (step_byte_end h hafter)).trans
    (reaches_of_step (step_line_of_lt rfl hnumber))

/-- A pass goes on to where the cursor moves to. -/
theorem exists_reaches_of_move {cursor' : Cursor} (h : Cursor.Move cursor cursor') {state : State}
    (hstate : Follows closed cursor state) :
    ∃ state', Follows closed cursor' state' ∧ Reaches State.next state state' := by
  cases h with
  | enter hafter hbelow => exact ⟨_, .on, reaches_enter hstate hafter hbelow⟩
  | dropMark hafter hmark hliteral =>
    rw [eq_standing_of_follows hstate hafter]
    refine ⟨_, .on, reaches_of_step ?_⟩
    rcases hmark with rfl | rfl
    · rw [step_byte_leftMark hafter, hliteral]
      rfl
    · rw [step_byte_rightMark hafter, hliteral]
      rfl
  | trimBefore hafter hliteral =>
    rw [eq_standing_of_follows hstate hafter]
    have hmark := @step_byte_leftMark closed cursor _ hafter
    rw [if_pos hliteral] at hmark
    exact ⟨_, .on, (reaches_of_step hmark).trans (reaches_trimBefore closed hliteral)⟩
  | trimAfter hafter hliteral =>
    rw [eq_standing_of_follows hstate hafter]
    have hmark := @step_byte_rightMark closed cursor _ hafter
    rw [if_pos hliteral] at hmark
    exact ⟨_, .on, (reaches_of_step hmark).trans (reaches_trimAfter closed hliteral)⟩
  | skip hafter hleft hright =>
    rw [eq_standing_of_follows hstate hafter]
    exact exists_reaches_skip hafter hleft hright

/-- A pass that follows a cursor comes to write the lines that a run of the cursor leaves. -/
theorem exists_reaches_run {cursor : Cursor} {state : State} (h : Follows closed cursor state) :
    ∃ position, Reaches State.next state
      { pending := [], closed, lines := cursor.run, position, phase := .writing } := by
  fun_induction Cursor.run cursor generalizing state with
  | case1 cursor hnext =>
    rcases (Cursor.next_eq_none_iff cursor).1 hnext with ⟨hafter, hbelow⟩
    have hnumber : cursor.lines.length ≤ cursor.above.length + 1 := by
      simp [Cursor.lines, hbelow]
    exact ⟨state.position, (reaches_of_step (step_byte_end h hafter)).trans
      (reaches_of_step (step_line_of_le rfl hnumber))⟩
  | case2 cursor cursor' hnext ih =>
    rcases exists_reaches_of_move (Cursor.move_of_next_eq hnext) h with ⟨state', hstate', hreaches⟩
    rcases ih hstate' with ⟨position, hrun⟩
    exact ⟨position, hreaches.trans hrun⟩

/-! ## Reading -/

/-- Whether a statement pushes a literal is told from its start and its last byte. -/
theorem testIf_literal (statement : Bytes) :
    testIf (decide (pushOpening.length < statement.length) && pushOpening.isPrefixOf statement)
        statement (minus statement.length 1) (· == Byte.quote)
      = .ok (Line.isLiteral statement) := by
  rcases List.eq_nil_or_concat' statement with rfl | ⟨start, last, rfl⟩
  · rfl
  · have hlast : minus (start ++ [last]).length 1 = .ok start.length := by
      simp [minus]
    rw [Line.isLiteral, hlast]
    cases decide (pushOpening.length < (start ++ [last]).length)
        && pushOpening.isPrefixOf (start ++ [last]) with
    | false => rfl
    | true => simp [testIf]

private theorem readStatement_eq (indent : Nat) (statement : Bytes) :
    State.readStatement indent statement
      = .ok (if Line.isLiteral statement then
          ⟨indent, true, (statement.drop pushOpening.length).dropLast⟩
        else ⟨indent, false, statement⟩) := by
  rw [State.readStatement, testIf_literal, ok_bind]
  split
  · next hliteral =>
    have hlength : pushOpening.length < statement.length := by
      simp only [Line.isLiteral, Bool.and_eq_true, decide_eq_true_eq] at hliteral
      exact hliteral.1.1
    rw [minus_of_le (by omega), ok_bind, minus_of_le (by omega), ok_bind, spanOf,
      if_pos (by omega), List.dropLast_eq_take, List.length_drop]
    rfl
  · rfl

private theorem indented_eq (state : State) (width : Nat) (rest : Bytes) (start : Nat) :
    state.indented (spaces width ++ rest) width start
      = if rest.head? = some Byte.space then
          .ok (state.goto (.indenting (spaces width ++ rest) (width + 1) start))
        else do
          let line ← State.readStatement width rest
          return { state with lines := state.lines ++ [line], phase := .reading start } := by
  have hwidth := length_spaces width
  have hspace : testIf (decide (width < (spaces width ++ rest).length)) (spaces width ++ rest)
      (pure width) (· == Byte.space) = .ok (rest.head? == some Byte.space) := by
    cases rest with
    | nil => simp [testIf]
    | cons c more =>
      have hitem := itemAt_length (spaces width) c more
      rw [hwidth] at hitem
      simp [testIf, hitem]
  have hlength : minus (spaces width ++ rest).length width = .ok rest.length := by
    simp [minus]
  have hspan : spanOf (spaces width ++ rest) width rest.length = .ok rest := by
    simp [spanOf, List.drop_left' hwidth]
  simp only [State.indented, hspace, hlength, hspan, ok_bind, beq_iff_eq]
  rfl

private theorem step_indented_space (state : State) (width : Nat) (more : Bytes) (start : Nat) :
    (state.goto (.indenting (spaces width ++ Byte.space :: more) width start)).step
      = .ok (some (state.goto
        (.indenting (spaces width ++ Byte.space :: more) (width + 1) start))) := by
  change some <$> State.indented _ _ _ _ = _
  rw [indented_eq, List.head?_cons, if_pos rfl]
  rfl

private theorem step_indented_stop (state : State) (width : Nat) {rest : Bytes} (start : Nat)
    (hrest : rest.head? ≠ some Byte.space) :
    (state.goto (.indenting (spaces width ++ rest) width start)).step
      = .ok (some { state with
        lines := state.lines ++ [Line.parse (spaces width ++ rest)]
        phase := .reading start }) := by
  change some <$> State.indented _ _ _ _ = _
  rw [indented_eq, if_neg hrest, readStatement_eq, Line.parse_spaces width hrest]
  rfl

/-- Spaces before a statement are counted, and then the line is kept. -/
theorem reaches_indented (state : State) (width : Nat) (rest : Bytes) (start : Nat) :
    Reaches State.next (state.goto (.indenting (spaces width ++ rest) width start))
      { state with
        lines := state.lines ++ [Line.parse (spaces width ++ rest)], phase := .reading start } := by
  induction rest generalizing width with
  | nil => exact reaches_of_step (step_indented_stop state width start (by simp))
  | cons c more ih =>
    by_cases hspace : c = Byte.space
    · have hnext : spaces width ++ c :: more = spaces (width + 1) ++ more := by
        rw [hspace, spaces, spaces, List.replicate_succ', List.append_assoc, List.singleton_append]
      have hread := ih (width + 1)
      rw [← hnext] at hread
      subst hspace
      exact (reaches_of_step (step_indented_space state width more start)).trans hread
    · exact reaches_of_step (step_indented_stop state width start (by simpa using hspace))

private theorem read_of_lt {state : State} {start : Nat} (h : start < state.pending.length) :
    state.read start = .ok (state.goto (.indenting
      (state.pending.extract start (fieldEnd Byte.lineFeed state.pending start)) 0
      (fieldEnd Byte.lineFeed state.pending start + 1))) := by
  have hpassed := le_fieldEnd Byte.lineFeed state.pending start
  have hstop := @fieldEnd_le Byte.lineFeed state.pending start h.le
  have hspan : spanOf state.pending start (fieldEnd Byte.lineFeed state.pending start - start)
      = .ok (state.pending.extract start (fieldEnd Byte.lineFeed state.pending start)) := by
    rw [spanOf, if_pos (by omega), List.extract_eq_take_drop]
  simp only [State.read, h, if_true, minus_of_le hpassed, hspan, ok_bind, pure_eq_ok]

/-- The next line of the code is read to its end. -/
theorem reaches_read_line {state : State} {start : Nat} (h : start < state.pending.length) :
    Reaches State.next (state.goto (.reading start))
      { state with
        lines := state.lines
          ++ [Line.parse (state.pending.extract start (fieldEnd Byte.lineFeed state.pending start))]
        phase := .reading (fieldEnd Byte.lineFeed state.pending start + 1) } := by
  have hcut : (state.goto (.reading start)).step = .ok (some (state.goto (.indenting
      (state.pending.extract start (fieldEnd Byte.lineFeed state.pending start)) 0
      (fieldEnd Byte.lineFeed state.pending start + 1)))) := by
    change some <$> State.read _ _ = _
    rw [@read_of_lt (state.goto (.reading start)) start h]
    rfl
  exact (reaches_of_step hcut).trans (reaches_indented state 0 _ _)

private theorem step_reading_end {state : State} {start : Nat} (h : state.pending.length ≤ start) :
    (state.goto (.reading start)).step
      = .ok (some { state with pending := [], phase := .line }) := by
  have hend : (state.goto (.reading start)).read start
      = .ok { state with pending := [], phase := .line } := if_neg (Nat.not_lt.2 h)
  change some <$> State.read _ _ = _
  rw [hend, map_ok]

/-- The code is read line by line, and then dropped. -/
theorem reaches_read (code : Bytes) (closed : Bool) (lines : List Line) (start : Nat) :
    Reaches State.next { pending := code, closed, lines, phase := .reading start }
      { pending := [], closed, lines := lines ++ (Listing.parse (code.drop start)).lines,
        phase := .line } := by
  induction hahead : code.length - start using Nat.strongRecOn generalizing lines start with
  | ind ahead ih =>
    by_cases h : start < code.length
    · have hpassed := le_fieldEnd Byte.lineFeed code start
      have hline := @reaches_read_line { pending := code, closed, lines } start h
      have hrest := ih _ (by omega)
        (lines ++ [Line.parse (code.extract start (fieldEnd Byte.lineFeed code start))])
        (fieldEnd Byte.lineFeed code start + 1) rfl
      rw [List.append_assoc, List.singleton_append, ← Listing.lines_parse_drop h] at hrest
      exact hline.trans hrest
    · have hrest : (Listing.parse (code.drop start)).lines = [] := by
        rw [List.drop_of_length_le (by omega)]
        rfl
      have hend := @step_reading_end { pending := code, closed, lines } start (by simpa using h)
      rw [hrest, List.append_nil]
      exact reaches_of_step hend

/-- A line is written with its line feed. -/
theorem step_writing_cons (front : List Line) (line : Line) (rest : List Line) (position : Nat)
    (written : List Bytes) :
    State.step
      { pending := [], closed, lines := front ++ line :: rest, number := front.length, position,
        written, phase := .writing }
      = .ok (some
        { pending := [], closed, lines := front ++ line :: rest, number := front.length + 1,
          position,
          written := written
            ++ [line.print ++ (if !rest.isEmpty || closed then [Byte.lineFeed] else [])],
          phase := .writing }) := by
  have hnumber : front.length < (front ++ line :: rest).length := by
    simp
  have hlast : decide (front.length + 1 < (front ++ line :: rest).length) = !rest.isEmpty := by
    cases rest <;> simp
  change State.wrote _ = _
  simp only [State.wrote, hnumber, if_true, itemAt_length, ok_bind, hlast]
  rfl

/-- The lines that are left are written in order. -/
theorem reaches_written {front rest : List Line} (position : Nat) (written : List Bytes) :
    Reaches State.next
      { pending := [], closed, lines := front ++ rest, number := front.length, position, written,
        phase := .writing }
      { pending := [], closed, lines := front ++ rest, number := (front ++ rest).length, position,
        written := written ++ Listing.chunksOf closed rest, phase := .writing } := by
  induction rest generalizing front written with
  | nil =>
    simp only [List.append_nil, Listing.chunksOf]
    exact .refl
  | cons line rest ih =>
    have hstep := reaches_of_step (@step_writing_cons closed front line rest position written)
    have hrest := @ih (front ++ [line])
      (written ++ [line.print ++ (if !rest.isEmpty || closed then [Byte.lineFeed] else [])])
    simp only [List.append_assoc, List.singleton_append, List.length_append,
      List.length_singleton] at hrest
    rw [Listing.chunksOf_cons, List.length_append]
    exact hstep.trans hrest

private theorem step_writing_end {lines : List Line} (position : Nat) (written : List Bytes) :
    State.step
      { pending := [], closed, lines, number := lines.length, position, written,
        phase := .writing } = .ok none :=
  if_neg (Nat.lt_irrefl _)

/-! ## Whole passes -/

private theorem step_start (code : Bytes) :
    (State.start code).step = .ok (some
      { pending := code, closed := code.getLast? == some Byte.lineFeed, phase := .reading 0 }) := by
  have hclosed : testIf (decide (0 < code.length)) code (minus code.length 1) (· == Byte.lineFeed)
      = .ok (code.getLast? == some Byte.lineFeed) := by
    rcases List.eq_nil_or_concat' code with rfl | ⟨start, last, rfl⟩
    · rfl
    · simp [testIf, minus]
  have hopened : (State.start code).opened
      = testIf (decide (0 < code.length)) code (minus code.length 1) (· == Byte.lineFeed)
        >>= fun closed => .ok { pending := code, closed, phase := .reading 0 } := rfl
  rw [hclosed, ok_bind] at hopened
  change some <$> State.opened _ = _
  rw [hopened, map_ok]

/-- A pass comes to write the lines in which the marks are resolved. -/
theorem exists_reaches_writing (closed : Bool) (lines : List Line) :
    ∃ position, Reaches State.next { pending := [], closed, lines, phase := .line }
      { pending := [], closed, lines := resolveMarks lines, position, phase := .writing } := by
  cases lines with
  | nil => exact ⟨0, reaches_of_step (step_line_of_le rfl Nat.le.refl)⟩
  | cons line below =>
    have henter : State.step { pending := [], closed, lines := line :: below, phase := .line }
        = .ok (some (standing closed (Cursor.enter [] line below) .byte)) :=
      step_line_of_lt rfl (Nat.succ_pos _)
    rcases exists_reaches_run (@Follows.on closed (Cursor.enter [] line below)) with
      ⟨position, hrun⟩
    exact ⟨position, (reaches_of_step henter).trans hrun⟩

/-- A pass ends when it has written all chunks. -/
theorem exists_reaches_end (code : Bytes) :
    ∃ last : State, Reaches State.next (State.start code) last ∧ last.step = .ok none
      ∧ last.written = trimmedChunks code ∧ last.pending = [] := by
  have hread := reaches_read code (code.getLast? == some Byte.lineFeed) [] 0
  rw [← Listing.closed_parse, List.drop_zero, List.nil_append] at hread
  have hstart := step_start code
  rw [← Listing.closed_parse] at hstart
  rcases exists_reaches_writing (Listing.parse code).closed (Listing.parse code).lines with
    ⟨position, hlines⟩
  have hwrite := @reaches_written (Listing.parse code).closed []
    (resolveMarks (Listing.parse code).lines) position []
  have hend := (((reaches_of_step hstart).trans hread).trans hlines).trans hwrite
  exact ⟨_, hend, step_writing_end position _, rfl, rfl⟩

end TemplateCompiler.InPlace

namespace TemplateCompiler

open InPlace

/-- A trim pass that works in place ends for any code that it was given, and no check fails on
its way: no number and no position is out of range, no span is erased outside a body, and no
difference is less than zero.  At its end nothing is pending, and it has written what a trim pass
writes when it is finished. -/
theorem TrimPass.finish_in_place (pass : TrimPass) :
    (∃ last ∈ StateTransition.eval State.next (State.start pass.pending),
      last.step = .ok none ∧ last.written = pass.finish.1 ∧ last.pending = []
        ∧ pass.finish.2.pending = [])
      ∧ ∀ state, StateTransition.Reaches State.next (State.start pass.pending) state →
        (∃ after, state.step = .ok after) ∧ state.InRange := by
  rcases exists_reaches_end pass.pending with ⟨last, hlast, hend, hwritten, hpending⟩
  have hstop : last.next = none := by
    rw [State.next, hend]
  have heval := StateTransition.mem_eval.2 ⟨hlast, hstop⟩
  refine ⟨⟨last, heval, hend, hwritten, hpending, rfl⟩, ?_⟩
  intro state hstate
  have hahead : StateTransition.Reaches State.next state last := by
    rcases StateTransition.reaches_total hstate hlast with h | h
    · exact h
    · rw [(StateTransition.eval_maximal heval).1 h]
      exact .refl
  rcases exists_of_reaches hahead hend with ⟨after, hstep⟩
  exact ⟨⟨after, hstep⟩, State.inRange_of_step hstep⟩

end TemplateCompiler
