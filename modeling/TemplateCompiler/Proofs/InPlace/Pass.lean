import Mathlib.Computability.StateTransition
import TemplateCompiler.Proofs.Code.Move
import TemplateCompiler.Proofs.Fields

/-!
# A trim pass in place

A trim pass that works in place keeps a table of lines, and goes through it by the number of a
line and a position in its body.  Bytes and lines are erased under it: the number of the line
goes down where literals are joined to the one above, and a position can end up beyond a line.
Here every look at an item, every erased span and every difference is checked, and a pass with a
fault has no next state.

Main results:

- Definition {lit}`State.step`: one turn of one loop of the pass, with all its checks.
- Theorem {lit}`State.inRange_of_step`: where no check fails, the line number and the position
  lie in the table.
-/

namespace TemplateCompiler.InPlace

/-! ## Checked operations -/

/-- What a check finds. -/
inductive Fault where
  /-- There is no item at that index. -/
  | noItem
  /-- A span reaches beyond the end. -/
  | noSpan
  /-- A position is beyond the end of its line. -/
  | noPlace
  /-- A difference is less than zero. -/
  | negative
deriving DecidableEq, Repr

/-- A value, unless a check has failed. -/
abbrev Checked := Except Fault

variable {α β : Type}

/-- The item at an index. -/
def itemAt (items : List α) (index : Nat) : Checked α :=
  match items[index]? with
  | some item => .ok item
  | none => .error .noItem

/-- A part of a text. -/
def spanOf (text : Bytes) (start length : Nat) : Checked Bytes :=
  if start + length ≤ text.length then .ok ((text.drop start).take length) else .error .noSpan

/-- All items but those of a span. -/
def eraseSpan (items : List α) (start length : Nat) : Checked (List α) :=
  if start + length ≤ items.length then .ok (items.take start ++ items.drop (start + length))
  else .error .noSpan

/-- The difference of two counts. -/
def minus (a b : Nat) : Checked Nat :=
  if b ≤ a then .ok (a - b) else .error .negative

/-- Whether an item passes a test.  It is looked at only under a condition. -/
def testIf (condition : Bool) (items : List α) (index : Checked Nat) (test : α → Bool) :
    Checked Bool :=
  if condition then do
    let item ← itemAt items (← index)
    return test item
  else return false

@[simp] theorem pure_eq_ok (a : α) : (pure a : Checked α) = .ok a := rfl

@[simp] theorem ok_bind (a : α) (f : α → Checked β) : (.ok a : Checked α) >>= f = f a := rfl

@[simp] theorem map_ok (f : α → β) (a : α) : f <$> (.ok a : Checked α) = .ok (f a) := rfl

/-- A chain of checks holds only if its first one does. -/
theorem exists_of_bind {x : Checked α} {f : α → Checked β} {b : β} (h : x >>= f = .ok b) :
    ∃ a, x = .ok a ∧ f a = .ok b := by
  cases x with
  | error fault => cases h
  | ok a => exact ⟨a, rfl, h⟩

private theorem exists_of_map {x : Checked α} {f : α → β} {b : β} (h : f <$> x = .ok b) :
    ∃ a, x = .ok a := by
  cases x with
  | error fault => cases h
  | ok a => exact ⟨a, rfl⟩

private theorem getElem?_of_itemAt {items : List α} {index : Nat} {item : α}
    (h : itemAt items index = .ok item) : items[index]? = some item := by
  unfold itemAt at h
  split at h
  · next hitem =>
    cases h
    exact hitem
  · cases h

/-- A difference that is not below zero is taken. -/
theorem minus_of_le {a b : Nat} (h : b ≤ a) : minus a b = .ok (a - b) :=
  if_pos h

@[simp] theorem itemAt_length (passed : List α) (item : α) (rest : List α) :
    itemAt (passed ++ item :: rest) passed.length = .ok item := by
  simp [itemAt]

@[simp] theorem itemAt_reverse (passed : List α) (item : α) (rest : List α) :
    itemAt (passed.reverse ++ item :: rest) passed.length = .ok item := by
  rw [← List.length_reverse, itemAt_length]

@[simp] theorem itemAt_reverse_succ (passed : List α) (item other : α) (rest : List α) :
    itemAt (passed.reverse ++ item :: other :: rest) (passed.length + 1) = .ok other := by
  rw [← List.length_cons (a := item), List.append_cons, ← List.reverse_cons, itemAt_reverse]

/-- A span behind what was passed is erased. -/
theorem eraseSpan_reverse (passed span rest : List α) :
    eraseSpan (passed.reverse ++ (span ++ rest)) passed.length span.length
      = .ok (passed.reverse ++ rest) := by
  have hdrop : (passed.reverse ++ (span ++ rest)).drop (passed.length + span.length) = rest := by
    rw [← List.append_assoc]
    exact List.drop_left' (by simp)
  rw [eraseSpan, if_pos (by simp), hdrop, List.take_left' (by simp)]

@[simp] theorem eraseSpan_reverse_succ (passed : List α) (item other : α) (rest : List α) :
    eraseSpan (passed.reverse ++ item :: other :: rest) (passed.length + 1) 1
      = .ok (passed.reverse ++ item :: rest) := by
  simpa using eraseSpan_reverse (item :: passed) [other] rest

@[simp] theorem set_reverse (passed : List α) (item other : α) (rest : List α) :
    (passed.reverse ++ item :: rest).set passed.length other = passed.reverse ++ other :: rest := by
  rw [List.set_append_right _ _ (by simp)]
  simp

/-! ## States -/

/-- The loop that a pass is in. -/
inductive Phase where
  /-- Nothing was done yet. -/
  | opening
  /-- The next line of the code starts at that position. -/
  | reading (start : Nat)
  /-- Spaces before a statement are counted; the next line starts at {lit}`start`. -/
  | indenting (text : Bytes) (width start : Nat)
  /-- A line is to be entered. -/
  | line
  /-- A byte is to be looked at. -/
  | byte
  /-- Blanks before the position are erased. -/
  | back
  /-- Backslashes before a letter are counted. -/
  | counting (slashes : Nat)
  /-- Blanks behind the position are erased. -/
  | ahead
  /-- The end of an interpolation is looked for. -/
  | braces (depth : Int)
  /-- A line is to be written. -/
  | writing
deriving DecidableEq, Repr

/-- A pass under way. -/
structure State where
  /-- The code that it was given. -/
  pending : Bytes
  /-- Whether that code ended in a line feed. -/
  closed : Bool := false
  lines : List Line := []
  /-- The number of the line that it is in. -/
  number : Nat := 0
  /-- The position in the body of that line. -/
  position : Nat := 0
  /-- The chunks that were written. -/
  written : List Bytes := []
  phase : Phase := .opening
deriving DecidableEq, Repr

namespace State

/-- Go on with another loop. -/
def goto (state : State) (phase : Phase) : State :=
  { state with phase }

/-- Look how the code ends. -/
def opened (state : State) : Checked State := do
  let closed ← testIf (0 < state.pending.length) state.pending (minus state.pending.length 1)
    (· == Byte.lineFeed)
  return { state with closed, phase := .reading 0 }

/-- Cut out a line of the code, or drop the code behind the last line. -/
def read (state : State) (start : Nat) : Checked State :=
  if start < state.pending.length then do
    let stop := fieldEnd Byte.lineFeed state.pending start
    let length ← minus stop start
    let text ← spanOf state.pending start length
    return state.goto (.indenting text 0 (stop + 1))
  else return { state with pending := [], phase := .line }

/-- The inside of the literal that a statement pushes, or the whole statement. -/
def readStatement (indent : Nat) (statement : Bytes) : Checked Line := do
  let literal ← testIf
    (pushOpening.length < statement.length && pushOpening.isPrefixOf statement) statement
    (minus statement.length 1) (· == Byte.quote)
  if literal then do
    let rest ← minus statement.length pushOpening.length
    let body ← spanOf statement pushOpening.length (← minus rest 1)
    return ⟨indent, true, body⟩
  else return ⟨indent, false, statement⟩

/-- Count a space before a statement, or keep the line. -/
def indented (state : State) (text : Bytes) (width start : Nat) : Checked State := do
  let isSpace ← testIf (width < text.length) text (pure width) (· == Byte.space)
  if isSpace then return state.goto (.indenting text (width + 1) start)
  else do
    let statement ← spanOf text width (← minus text.length width)
    let line ← readStatement width statement
    return { state with lines := state.lines ++ [line], phase := .reading start }

/-- The line that a pass is in, with the position not beyond its end. -/
def lineUnder (state : State) : Checked Line := do
  let line ← itemAt state.lines state.number
  if state.position ≤ line.body.length then return line else .error .noPlace

/-- Erase a span of the line that a pass is in, and go to the place that it leaves. -/
def erase (state : State) (line : Line) (start length : Nat) : Checked State := do
  let body ← eraseSpan line.body start length
  return { state with lines := state.lines.set state.number { line with body }, position := start }

/-- Whether two lines can be joined.  Only the second number can be one too many. -/
def joinable (state : State) (first second : Nat) : Checked Bool :=
  if second < state.lines.length then do
    let upper ← itemAt state.lines first
    let lower ← itemAt state.lines second
    return upper.joins lower
  else return false

/-- Join the second line to the first, and go to a position in it. -/
def join (state : State) (first second position : Nat) : Checked State := do
  let upper ← itemAt state.lines first
  let lower ← itemAt state.lines second
  let lines ← eraseSpan
    (state.lines.set first { upper with body := upper.body ++ lower.body }) second 1
  return { state with lines, number := first, position }

/-- Trim at the end of the part before the position: erase a blank, look closer at a letter, or
join the line to the one above. -/
def trimmedBack (state : State) : Checked State := do
  let line ← state.lineUnder
  if 0 < state.position then do
    let last ← minus state.position 1
    let c ← itemAt line.body last
    if isPlainBlank c then state.erase line last 1
    else if isBlankLetter c && 2 ≤ state.position then return state.goto (.counting 0)
    else return state.goto .byte
  else if state.number = 0 then return state.goto .byte
  else do
    let above ← minus state.number 1
    let joins ← state.joinable above state.number
    if joins then do
      let upper ← itemAt state.lines above
      state.join above state.number upper.body.length
    else return state.goto .byte

/-- Count one more backslash before a letter, or erase the letter with its backslash if their
number is odd. -/
def counted (state : State) (slashes : Nat) : Checked State := do
  let line ← state.lineUnder
  let bound ← minus state.position 1
  -- The bound is compared first, so the differences are taken only if a byte is left to look at.
  let isSlash ← testIf (slashes < bound) line.body
    (do minus (← minus state.position 2) slashes) (· == Byte.backslash)
  if isSlash then return state.goto (.counting (slashes + 1))
  else if slashes % 2 = 1 then do
    let erased ← state.erase line (← minus state.position 2) 2
    return erased.goto .back
  else return state.goto .byte

/-- Trim at the start of the part behind the position: erase a blank, or join the line below to
the line. -/
def trimmedAhead (state : State) : Checked State := do
  let line ← state.lineUnder
  if state.position < line.body.length then do
    let c ← itemAt line.body state.position
    if isPlainBlank c then state.erase line state.position 1
    else do
      let isEscape ← testIf (c == Byte.backslash && state.position + 1 < line.body.length)
        line.body (pure (state.position + 1)) isBlankLetter
      if isEscape then state.erase line state.position 2
      else return state.goto .byte
  else do
    let joins ← state.joinable state.number (state.number + 1)
    if joins then state.join state.number (state.number + 1) state.position
    else return state.goto .byte

/-- Enter a line, or go on to write all lines. -/
def entered (state : State) : State :=
  if state.number < state.lines.length then { state with position := 0, phase := .byte }
  else { state with number := 0, phase := .writing }

/-- Pass over some bytes. -/
def pass (state : State) (count : Nat) : State :=
  { state with position := state.position + count }

/-- Positions can be passed in two parts. -/
theorem pass_pass (state : State) (first second : Nat) :
    (state.pass first).pass second = state.pass (first + second) := by
  simp only [pass, Nat.add_assoc]

/-- Erase a mark, and in a literal go on to trim there. -/
def unmarked (state : State) (line : Line) (trimming : Phase) : Checked State := do
  let erased ← state.erase line state.position 1
  return if line.literal then erased.goto trimming else erased

/-- Look at a byte of a line, or leave the line. -/
def looked (state : State) : Checked State := do
  let line ← itemAt state.lines state.number
  if state.position < line.body.length then do
    let c ← itemAt line.body state.position
    if c = leftMark then state.unmarked line .back
    else if c = rightMark then state.unmarked line .ahead
    else if c = Byte.backslash then return state.pass 2
    else do
      let isOpening ←
        testIf (c == Byte.hash && line.literal && state.position + 1 < line.body.length)
          line.body (pure (state.position + 1)) (· == Byte.openBrace)
      return if isOpening then state.goto (.braces 0) else state.pass 1
  else return { state with number := state.number + 1, phase := .line }

/-- Pass over a byte of an interpolation.  The brace that closes it is passed over too, and so
is the end of a line that has none. -/
def matched (state : State) (depth : Int) : Checked State := do
  let line ← itemAt state.lines state.number
  if state.position < line.body.length then do
    let c ← itemAt line.body state.position
    return (state.pass 1).goto <|
      if c = Byte.openBrace then .braces (depth + 1)
      else if c = Byte.closeBrace then
        if depth - 1 = 0 then .byte else .braces (depth - 1)
      else .braces depth
  else return (state.pass 1).goto .byte

/-- Write a line, if there is one left. -/
def wrote (state : State) : Checked (Option State) :=
  if state.number < state.lines.length then do
    let line ← itemAt state.lines state.number
    let ending := if state.number + 1 < state.lines.length || state.closed then [Byte.lineFeed]
      else []
    return some { state with
      number := state.number + 1
      written := state.written ++ [line.print ++ ending] }
  else return none

/-! ## Steps -/

/-- One turn of the loop that a pass is in; none is left when all lines are written. -/
def step (state : State) : Checked (Option State) :=
  match state.phase with
  | .opening => some <$> state.opened
  | .reading start => some <$> state.read start
  | .indenting text width start => some <$> state.indented text width start
  | .line => return some state.entered
  | .byte => some <$> state.looked
  | .back => some <$> state.trimmedBack
  | .counting slashes => some <$> state.counted slashes
  | .ahead => some <$> state.trimmedAhead
  | .braces depth => some <$> state.matched depth
  | .writing => state.wrote

/-- The next state of a pass that has not ended and has no fault. -/
def next (state : State) : Option State :=
  match state.step with
  | .ok after => after
  | .error _ => none

/-- A pass that was given some code. -/
def start (code : Bytes) : State :=
  { pending := code }

end State

/-- A state reaches the one after a step. -/
theorem reaches_of_step {state after : State} (h : state.step = .ok (some after)) :
    StateTransition.Reaches State.next state after :=
  .single (by simp [State.next, h])

/-- Where a pass ends without a fault, no state that it comes through has one. -/
theorem exists_of_reaches {state last : State}
    (h : StateTransition.Reaches State.next state last) (hlast : last.step = .ok none) :
    ∃ after, state.step = .ok after := by
  rcases Relation.ReflTransGen.cases_head h with rfl | ⟨next, hnext, -⟩
  · exact ⟨none, hlast⟩
  · unfold State.next at hnext
    split at hnext
    · next after hstep => exact ⟨after, hstep⟩
    · simp at hnext

/-! ## Ranges -/

namespace State

/-- Whether the line number and the position lie in the table, in every loop that uses them. -/
def InRange (state : State) : Prop :=
  match state.phase with
  | .byte | .braces _ => state.number < state.lines.length
  | .back | .counting _ | .ahead =>
    ∃ line, state.lines[state.number]? = some line ∧ state.position ≤ line.body.length
  | _ => True

private theorem lt_of_itemAt_bind {items : List α} {index : Nat} {f : α → Checked β} {b : β}
    (h : itemAt items index >>= f = .ok b) : index < items.length := by
  rcases exists_of_bind h with ⟨item, hitem, -⟩
  exact (List.getElem?_eq_some_iff.1 (getElem?_of_itemAt hitem)).1

private theorem exists_of_lineUnder {state : State} {line : Line} (h : state.lineUnder = .ok line) :
    state.lines[state.number]? = some line ∧ state.position ≤ line.body.length := by
  rcases exists_of_bind h with ⟨other, hitem, hplace⟩
  split at hplace
  · next hle =>
    cases hplace
    exact ⟨getElem?_of_itemAt hitem, hle⟩
  · cases hplace

/-- Where no check fails, the line number and the position lie in the table. -/
theorem inRange_of_step {state : State} {after : Option State} (h : state.step = .ok after) :
    state.InRange := by
  have hlocated {f : Line → Checked State} {next : State} (hf : state.lineUnder >>= f = .ok next) :
      ∃ line, state.lines[state.number]? = some line ∧ state.position ≤ line.body.length := by
    rcases exists_of_bind hf with ⟨line, hline, -⟩
    exact ⟨line, exists_of_lineUnder hline⟩
  unfold step at h
  unfold InRange
  cases hphase : state.phase with
  | opening | reading | indenting | line | writing => trivial
  | byte =>
    rw [hphase] at h
    rcases exists_of_map h with ⟨next, hnext⟩
    exact lt_of_itemAt_bind hnext
  | braces depth =>
    rw [hphase] at h
    rcases exists_of_map h with ⟨next, hnext⟩
    exact lt_of_itemAt_bind hnext
  | back =>
    rw [hphase] at h
    rcases exists_of_map h with ⟨next, hnext⟩
    exact hlocated hnext
  | counting slashes =>
    rw [hphase] at h
    rcases exists_of_map h with ⟨next, hnext⟩
    exact hlocated hnext
  | ahead =>
    rw [hphase] at h
    rcases exists_of_map h with ⟨next, hnext⟩
    exact hlocated hnext

-- A position beyond the line is a fault, and so is a number beyond the table.
example : step { pending := [], lines := [⟨0, true, []⟩], position := 1, phase := .back }
      = .error .noPlace
    ∧ step { pending := [], lines := [⟨0, true, []⟩], number := 1, phase := .ahead }
      = .error .noItem :=
  ⟨rfl, rfl⟩

end State

end TemplateCompiler.InPlace
