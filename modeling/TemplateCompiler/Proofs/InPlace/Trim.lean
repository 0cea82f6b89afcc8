import TemplateCompiler.Proofs.InPlace.Pass

/-!
# Trimming in place

A cursor and a pass that works in place can stand at the same place of the same lines, the one
between what it has passed and what is ahead, the other at a number and a position.  From there
the pass trims turn by turn what the cursor trims at once, and all its checks hold.

Main results:

- Theorem {lit}`reaches_trimAfter`: a literal is trimmed behind the position, over the ends of
  the lines that are joined to it.
- Theorem {lit}`reaches_trimBefore`: a literal is trimmed before the position, where the number
  of the line goes down.
-/

namespace TemplateCompiler.InPlace

open StateTransition (Reaches)

variable {closed : Bool} {cursor : Cursor} {phase : Phase}

/-! ## Standing where a cursor does -/

/-- The state of a pass that is where a cursor is. -/
def standing (closed : Bool) (cursor : Cursor) (phase : Phase) : State :=
  { pending := [], closed, lines := cursor.lines, number := cursor.above.length,
    position := cursor.before.length, phase }

@[simp] theorem lines_standing :
    (standing closed cursor phase).lines
      = cursor.above.reverse ++ cursor.line :: cursor.below := rfl

@[simp] theorem number_standing : (standing closed cursor phase).number = cursor.above.length := rfl

-- Not by reflexivity: a comparison carries the decision of it, which is to be rewritten too.
@[simp] theorem position_standing :
    (standing closed cursor phase).position = cursor.before.length := by
  rw [standing]

@[simp] theorem goto_standing (next : Phase) :
    (standing closed cursor phase).goto next = standing closed cursor next := rfl

@[simp] theorem lineUnder_standing :
    (standing closed cursor phase).lineUnder = .ok cursor.line := by
  have hplace : cursor.before.length ≤ cursor.line.body.length := by
    simp [Cursor.line]
  simp [State.lineUnder, hplace]

/-- The body of a line is what is before the cursor and what is after it. -/
theorem body_of_after {after : Bytes} (h : cursor.after = after) :
    cursor.line.body = cursor.before.reverse ++ after := by
  rw [Cursor.line, h]

/-- Bytes behind the position are erased. -/
theorem erase_ahead {span after : Bytes} (hafter : cursor.after = span ++ after) :
    (standing closed cursor phase).erase cursor.line cursor.before.length span.length
      = .ok (standing closed { cursor with after } phase) := by
  rw [State.erase, body_of_after hafter, eraseSpan_reverse]
  simp [standing, Cursor.lines, Cursor.line]

/-- Bytes before the position are erased. -/
theorem erase_back {span before : Bytes} (hbefore : cursor.before = span ++ before) :
    (standing closed cursor phase).erase cursor.line before.length span.length
      = .ok (standing closed { cursor with before } phase) := by
  have hbody : cursor.line.body = before.reverse ++ (span.reverse ++ cursor.after) := by
    simp [Cursor.line, hbefore]
  have hspan : eraseSpan cursor.line.body before.length span.length
      = .ok (before.reverse ++ cursor.after) := by
    rw [hbody, ← @List.length_reverse _ span, eraseSpan_reverse]
  rw [State.erase, hspan]
  simp [standing, Cursor.lines, Cursor.line]

/-- The line below is joined to a line at its end. -/
theorem join_ahead {line : Line} {below : List Line} (hafter : cursor.after = [])
    (hbelow : cursor.below = line :: below) :
    (standing closed cursor phase).join cursor.above.length (cursor.above.length + 1)
        cursor.before.length
      = .ok (standing closed { cursor with after := line.body, below } phase) := by
  have hupper := itemAt_reverse cursor.above cursor.line cursor.below
  rw [State.join, lines_standing, hupper, hbelow, ok_bind, itemAt_reverse_succ, ok_bind,
    set_reverse, eraseSpan_reverse_succ, ok_bind]
  simp [standing, Cursor.lines, Cursor.line, hafter]

/-- A line is joined at its start to the line above. -/
theorem join_back {line : Line} {above : List Line} (hbefore : cursor.before = [])
    (habove : cursor.above = line :: above) (hjoins : line.joins cursor.line = true) :
    (standing closed cursor phase).join above.length (above.length + 1) line.body.length
      = .ok (standing closed { cursor with above, before := line.body.reverse } phase) := by
  have hlines : (standing closed cursor phase).lines
      = above.reverse ++ line :: cursor.line :: cursor.below := by
    simp [habove]
  rw [State.join, hlines, itemAt_reverse, ok_bind, itemAt_reverse_succ, ok_bind, set_reverse,
    eraseSpan_reverse_succ, ok_bind]
  simp only [Line.joins, Cursor.line, Bool.and_eq_true, beq_iff_eq] at hjoins
  rcases hjoins with ⟨⟨hupper, hlower⟩, hindent⟩
  simp [standing, Cursor.lines, Cursor.line, hbefore, hupper, hlower, hindent]

/-! ## Trimming ahead -/

private theorem joins_of_literal (indent : Nat) (body : Bytes) (line : Line) :
    Line.joins ⟨indent, true, body⟩ line = (line.literal && line.indent == indent) := by
  simp only [Line.joins, Bool.true_and]
  rw [BEq.comm]

/-- Trimming ahead erases a blank that stands for itself. -/
theorem step_ahead_plain {c : UInt8} {after : Bytes} (hafter : cursor.after = c :: after)
    (hplain : isPlainBlank c = true) :
    (standing closed cursor .ahead).step
      = .ok (some (standing closed { cursor with after } .ahead)) := by
  have herase : (standing closed cursor .ahead).erase cursor.line cursor.before.length 1
      = .ok (standing closed { cursor with after } .ahead) :=
    erase_ahead (show cursor.after = [c] ++ after from hafter)
  change some <$> State.trimmedAhead _ = _
  simp [State.trimmedAhead, body_of_after hafter, hplain, herase]

/-- Trimming ahead erases a blank that is written as an escape. -/
theorem step_ahead_escape {d : UInt8} {after : Bytes}
    (hafter : cursor.after = Byte.backslash :: d :: after) (hletter : isBlankLetter d = true) :
    (standing closed cursor .ahead).step
      = .ok (some (standing closed { cursor with after } .ahead)) := by
  have herase : (standing closed cursor .ahead).erase cursor.line cursor.before.length 2
      = .ok (standing closed { cursor with after } .ahead) :=
    erase_ahead (show cursor.after = [Byte.backslash, d] ++ after from hafter)
  have hplain : isPlainBlank Byte.backslash = false := by decide
  change some <$> State.trimmedAhead _ = _
  simp [State.trimmedAhead, body_of_after hafter, hplain, hletter, testIf, herase]

/-- Trimming ahead stops at a byte that starts no blank. -/
theorem step_ahead_stop {c : UInt8} {after : Bytes} (hafter : cursor.after = c :: after)
    (hplain : isPlainBlank c = false)
    (hstop : c ≠ Byte.backslash ∨ ∀ d ∈ after.head?, isBlankLetter d = false) :
    (standing closed cursor .ahead).step
      = .ok (some (standing closed cursor .byte)) := by
  have hescape : testIf (c == Byte.backslash && decide (0 < after.length))
      (cursor.before.reverse ++ c :: after) (.ok (cursor.before.length + 1)) isBlankLetter
        = .ok false := by
    rcases hstop with hc | hd
    · simp [testIf, hc]
    · cases after with
      | nil => simp [testIf]
      | cons d more => simp [testIf, hd d rfl]
  change some <$> State.trimmedAhead _ = _
  simp [State.trimmedAhead, body_of_after hafter, hplain, hescape]

/-- Trimming ahead joins the next line when nothing is left of this one. -/
theorem step_ahead_join {line : Line} {below : List Line} (hafter : cursor.after = [])
    (hbelow : cursor.below = line :: below) (hjoins : cursor.line.joins line = true) :
    (standing closed cursor .ahead).step
      = .ok (some (standing closed { cursor with after := line.body, below } .ahead)) := by
  have hjoin := @join_ahead closed cursor .ahead line below hafter hbelow
  change some <$> State.trimmedAhead _ = _
  simp [State.trimmedAhead, body_of_after hafter, State.joinable, hbelow, hjoins, hjoin]

/-- Trimming ahead ends with a line that joins no next one. -/
theorem step_ahead_end (hafter : cursor.after = [])
    (h : ∀ line ∈ cursor.below.head?, cursor.line.joins line = false) :
    (standing closed cursor .ahead).step = .ok (some (standing closed cursor .byte)) := by
  change some <$> State.trimmedAhead _ = _
  cases hbelow : cursor.below with
  | nil => simp [State.trimmedAhead, body_of_after hafter, State.joinable, hbelow]
  | cons line below =>
    have hline : cursor.line.joins line = false := h line (by simp [hbelow])
    simp [State.trimmedAhead, body_of_after hafter, State.joinable, hbelow, hline]

/-- Blanks behind the position are erased one after another. -/
theorem reaches_dropBlanksAfter (closed : Bool) (cursor : Cursor) (after : Bytes) :
    Reaches State.next (standing closed { cursor with after } .ahead)
      (standing closed { cursor with after := dropBlanksAfter after }
        (if dropBlanksAfter after = [] then .ahead else .byte)) := by
  fun_induction dropBlanksAfter after with
  | case1 => exact .refl
  | case2 c rest hplain ih =>
    exact (reaches_of_step (step_ahead_plain rfl hplain)).trans ih
  | case3 c hplain =>
    exact reaches_of_step (step_ahead_stop rfl (by simpa using hplain) (.inr (by simp)))
  | case4 c hplain d more hescape ih =>
    rw [Bool.and_eq_true, beq_iff_eq] at hescape
    rcases hescape with ⟨rfl, hletter⟩
    exact (reaches_of_step (step_ahead_escape rfl hletter)).trans ih
  | case5 c hplain d more hescape =>
    refine reaches_of_step (step_ahead_stop rfl (by simpa using hplain) ?_)
    by_cases hc : c = Byte.backslash
    · right
      simpa [hc] using hescape
    · exact .inl hc

/-- A literal is trimmed behind the position. -/
theorem reaches_trimAfter (closed : Bool) {cursor : Cursor} (hliteral : cursor.literal = true) :
    Reaches State.next (standing closed cursor .ahead)
      (standing closed cursor.trimAfter .byte) := by
  rcases cursor with ⟨above, indent, literal, before, after, below⟩
  simp only at hliteral
  subst hliteral
  simp only [Cursor.trimAfter]
  -- In each case the blanks of one body go first; what is left tells whether a line is joined.
  have hdrop (after : Bytes) (below : List Line) :=
    reaches_dropBlanksAfter closed ⟨above, indent, true, before, after, below⟩ after
  fun_induction Cursor.pullAhead indent after below with
  | case1 after =>
    specialize hdrop after []
    by_cases hnil : dropBlanksAfter after = []
    · rw [hnil, if_pos rfl] at hdrop
      rw [hnil]
      exact hdrop.trans (reaches_of_step (step_ahead_end rfl (by simp)))
    · rw [if_neg hnil] at hdrop
      exact hdrop
  | case2 after line below hnil hjoin ih =>
    have hjoins : Line.joins ⟨indent, true, before.reverse ++ []⟩ line = true := by
      rw [joins_of_literal, hjoin]
    specialize hdrop after (line :: below)
    rw [hnil, if_pos rfl] at hdrop
    exact (hdrop.trans (reaches_of_step (step_ahead_join rfl rfl hjoins))).trans ih
  | case3 after line below hnil hjoin =>
    have hjoins : ∀ other ∈ (line :: below).head?,
        Line.joins ⟨indent, true, before.reverse ++ []⟩ other = false := by
      rintro _ ⟨⟩
      rw [joins_of_literal, Bool.eq_false_iff]
      exact hjoin
    specialize hdrop after (line :: below)
    rw [hnil, if_pos rfl] at hdrop
    exact hdrop.trans (reaches_of_step (step_ahead_end rfl hjoins))
  | case4 after line below c kept hkept =>
    specialize hdrop after (line :: below)
    rw [hkept, if_neg (List.cons_ne_nil c kept)] at hdrop
    exact hdrop

/-! ## Trimming back -/

private theorem body_of_before {before : Bytes} (h : cursor.before = before) :
    cursor.line.body = before.reverse ++ cursor.after := by
  rw [Cursor.line, h]

/-- Trimming back erases a blank that stands for itself. -/
theorem step_back_plain {c : UInt8} {before : Bytes} (hbefore : cursor.before = c :: before)
    (hplain : isPlainBlank c = true) :
    (standing closed cursor .back).step
      = .ok (some (standing closed { cursor with before } .back)) := by
  have herase : (standing closed cursor .back).erase cursor.line before.length 1
      = .ok (standing closed { cursor with before } .back) :=
    erase_back (show cursor.before = [c] ++ before from hbefore)
  change some <$> State.trimmedBack _ = _
  simp [State.trimmedBack, hbefore, body_of_before hbefore, minus, hplain, herase]

/-- Trimming back counts the backslashes in front of a letter. -/
theorem step_back_letter {c d : UInt8} {before : Bytes} (hbefore : cursor.before = c :: d :: before)
    (hplain : isPlainBlank c = false) (hletter : isBlankLetter c = true) :
    (standing closed cursor .back).step
      = .ok (some (standing closed cursor (.counting 0))) := by
  have hitem : itemAt cursor.line.body (before.length + 1) = .ok c := by
    simp [body_of_before hbefore]
  change some <$> State.trimmedBack _ = _
  simp [State.trimmedBack, hbefore, minus, hitem, hplain, hletter]

/-- Trimming back stops at a byte that ends no blank. -/
theorem step_back_stop {c : UInt8} {before : Bytes} (hbefore : cursor.before = c :: before)
    (hplain : isPlainBlank c = false) (hstop : isBlankLetter c = false ∨ before = []) :
    (standing closed cursor .back).step
      = .ok (some (standing closed cursor .byte)) := by
  have hitem : itemAt cursor.line.body before.length = .ok c := by
    simp [body_of_before hbefore]
  change some <$> State.trimmedBack _ = _
  rcases hstop with hletter | rfl
  · simp [State.trimmedBack, hbefore, minus, hitem, hplain, hletter]
  · rw [List.length_nil] at hitem
    simp [State.trimmedBack, hbefore, minus, hitem, hplain]

/-- Trimming back joins the line above when nothing is left of this one. -/
theorem step_back_join {line : Line} {above : List Line} (hbefore : cursor.before = [])
    (habove : cursor.above = line :: above) (hjoins : line.joins cursor.line = true) :
    (standing closed cursor .back).step
      = .ok (some (standing closed { cursor with above, before := line.body.reverse } .back)) := by
  have hjoin := @join_back closed cursor .back line above hbefore habove hjoins
  change some <$> State.trimmedBack _ = _
  simp [State.trimmedBack, hbefore, habove, minus, State.joinable, hjoins, hjoin]

/-- Trimming back ends with a line that joins no line above. -/
theorem step_back_end (hbefore : cursor.before = [])
    (h : ∀ line ∈ cursor.above.head?, line.joins cursor.line = false) :
    (standing closed cursor .back).step = .ok (some (standing closed cursor .byte)) := by
  change some <$> State.trimmedBack _ = _
  cases habove : cursor.above with
  | nil => simp [State.trimmedBack, hbefore, habove]
  | cons line above =>
    have hline : line.joins cursor.line = false := h line (by simp [habove])
    simp [State.trimmedBack, hbefore, habove, minus, State.joinable, hline]

/-- The byte before the counted backslashes is looked at, if there is one. -/
theorem testIf_counting {c : UInt8} {passed rest : Bytes}
    (hbefore : cursor.before = c :: (passed ++ rest)) :
    testIf (decide (passed.length < passed.length + rest.length)) cursor.line.body
        (do minus (← minus cursor.before.length 2) passed.length) (· == Byte.backslash)
      = .ok (rest.head? == some Byte.backslash) := by
  cases rest with
  | nil => simp [testIf]
  | cons d more =>
    have hlength : cursor.before.length = passed.length + more.length + 2 := by
      simp [hbefore, Nat.add_assoc]
    have htwo : minus cursor.before.length 2 = .ok (passed.length + more.length) := by
      rw [hlength, minus_of_le (Nat.le_add_left 2 _), Nat.add_sub_cancel]
    have hindex : minus (passed.length + more.length) passed.length = .ok more.length := by
      rw [minus_of_le (Nat.le_add_right _ _), Nat.add_sub_cancel_left]
    have hitem : itemAt cursor.line.body more.length = .ok d := by
      simp [body_of_before hbefore]
    simp [testIf, htwo, hindex, hitem]

private theorem counted_standing {c : UInt8} {passed rest : Bytes}
    (hbefore : cursor.before = c :: (passed ++ rest)) :
    (standing closed cursor phase).counted passed.length
      = if rest.head? = some Byte.backslash then
          .ok (standing closed cursor (.counting (passed.length + 1)))
        else if passed.length % 2 = 1 then do
          let start ← minus cursor.before.length 2
          let erased ← (standing closed cursor phase).erase cursor.line start 2
          return erased.goto .back
        else .ok (standing closed cursor .byte) := by
  have hone : minus cursor.before.length 1 = .ok (passed.length + rest.length) := by
    simp [minus, hbefore]
  simp only [State.counted, lineUnder_standing, position_standing, hone, ok_bind,
    testIf_counting hbefore, beq_iff_eq]
  rfl

/-- Another backslash is counted. -/
theorem step_counting_slash {c : UInt8} {passed rest : Bytes}
    (hbefore : cursor.before = c :: (passed ++ Byte.backslash :: rest)) :
    (standing closed cursor (.counting passed.length)).step
      = .ok (some (standing closed cursor (.counting (passed.length + 1)))) := by
  change some <$> State.counted _ _ = _
  rw [counted_standing hbefore, List.head?_cons, if_pos rfl, map_ok]

/-- Trimming back stops behind an even number of backslashes. -/
theorem step_counting_end {c : UInt8} {passed rest : Bytes}
    (hbefore : cursor.before = c :: (passed ++ rest)) (hrest : rest.head? ≠ some Byte.backslash)
    (heven : passed.length % 2 ≠ 1) :
    (standing closed cursor (.counting passed.length)).step
      = .ok (some (standing closed cursor .byte)) := by
  change some <$> State.counted _ _ = _
  rw [counted_standing hbefore, if_neg hrest, if_neg heven, map_ok]

/-- An escape is erased behind an odd number of backslashes. -/
theorem step_counting_erase {c d : UInt8} {before passed rest : Bytes}
    (hbefore : cursor.before = c :: d :: before) (hpassed : d :: before = passed ++ rest)
    (hrest : rest.head? ≠ some Byte.backslash) (hodd : passed.length % 2 = 1) :
    (standing closed cursor (.counting passed.length)).step
      = .ok (some (standing closed { cursor with before } .back)) := by
  have hcounted : cursor.before = c :: (passed ++ rest) := by
    rw [hbefore, hpassed]
  have htwo : minus cursor.before.length 2 = .ok before.length := by
    simp [minus, hbefore]
  have herase : (standing closed cursor (.counting passed.length)).erase cursor.line before.length 2
      = .ok (standing closed { cursor with before } (.counting passed.length)) :=
    erase_back (show cursor.before = [c, d] ++ before from hbefore)
  change some <$> State.counted _ _ = _
  rw [counted_standing hcounted, if_neg hrest, if_pos hodd, htwo, ok_bind, herase]
  rfl

/-- Backslashes are counted up to the first byte that is none. -/
theorem reaches_counting {c : UInt8} (passed : Bytes) {rest : Bytes}
    (hbefore : cursor.before = c :: (passed ++ rest)) :
    Reaches State.next (standing closed cursor (.counting passed.length))
      (standing closed cursor
        (.counting (passed ++ rest.takeWhile (· == Byte.backslash)).length)) := by
  induction rest generalizing passed with
  | nil =>
    rw [List.takeWhile_nil, List.append_nil]
    exact .refl
  | cons d more ih =>
    by_cases hd : d = Byte.backslash
    · subst hd
      have hmore := ih (passed ++ [Byte.backslash]) (by simpa using hbefore)
      rw [List.takeWhile_cons_of_pos rfl]
      simp only [List.append_assoc, List.singleton_append, List.length_append,
        List.length_singleton] at hmore ⊢
      exact (reaches_of_step (step_counting_slash hbefore)).trans hmore
    · rw [List.takeWhile_cons_of_neg (by simpa using hd), List.append_nil]
      exact .refl

/-- A letter is erased with the backslash before it, if that one is not escaped itself. -/
theorem reaches_letter {c d : UInt8} {more : Bytes} (hbefore : cursor.before = c :: d :: more)
    (hplain : isPlainBlank c = false) (hletter : isBlankLetter c = true) :
    Reaches State.next (standing closed cursor .back)
      (if endsInEscape (d :: more) then standing closed { cursor with before := more } .back
        else standing closed cursor .byte) := by
  let slashes := (d :: more).takeWhile (· == Byte.backslash)
  let rest := (d :: more).dropWhile (· == Byte.backslash)
  have hsplit : d :: more = slashes ++ rest := List.takeWhile_append_dropWhile.symm
  have hcounted : cursor.before = c :: (slashes ++ rest) := by
    rw [hbefore, hsplit]
  have hrest : rest.head? ≠ some Byte.backslash := by
    intro hhead
    have hnot := List.head?_dropWhile_not (· == Byte.backslash) (d :: more)
    rw [show (d :: more).dropWhile (· == Byte.backslash) = rest from rfl, hhead] at hnot
    exact absurd hnot (by decide)
  have hcount : Reaches State.next (standing closed cursor .back)
      (standing closed cursor (.counting slashes.length)) :=
    (reaches_of_step (step_back_letter hbefore hplain hletter)).trans (reaches_counting [] hbefore)
  by_cases hodd : slashes.length % 2 = 1
  · have hescape : endsInEscape (d :: more) = true := beq_iff_eq.2 hodd
    rw [if_pos hescape]
    exact hcount.trans (reaches_of_step (step_counting_erase hbefore hsplit hrest hodd))
  · have hescape : ¬endsInEscape (d :: more) = true := fun h => hodd (beq_iff_eq.1 h)
    rw [if_neg hescape]
    exact hcount.trans (reaches_of_step (step_counting_end hcounted hrest hodd))

/-- Blanks before the position are erased one after another. -/
theorem reaches_dropBlanksBefore (closed : Bool) (cursor : Cursor) (before : Bytes) :
    Reaches State.next (standing closed { cursor with before } .back)
      (standing closed { cursor with before := dropBlanksBefore before }
        (if dropBlanksBefore before = [] then .back else .byte)) := by
  fun_induction dropBlanksBefore before with
  | case1 => exact .refl
  | case2 c rest hplain ih =>
    exact (reaches_of_step (step_back_plain rfl hplain)).trans ih
  | case3 c hplain =>
    exact reaches_of_step (step_back_stop rfl (by simpa using hplain) (.inr rfl))
  | case4 c hplain d more hescape ih =>
    rw [Bool.and_eq_true] at hescape
    have hletter := @reaches_letter closed { cursor with before := c :: d :: more } c d more rfl
      (by simpa using hplain) hescape.1
    rw [if_pos hescape.2] at hletter
    exact hletter.trans ih
  | case5 c hplain d more hescape =>
    rw [if_neg (List.cons_ne_nil c _)]
    by_cases hc : isBlankLetter c = true
    · have hletter := @reaches_letter closed { cursor with before := c :: d :: more } c d more rfl
        (by simpa using hplain) hc
      rw [if_neg (by simpa [hc] using hescape)] at hletter
      exact hletter
    · exact reaches_of_step (step_back_stop rfl (by simpa using hplain) (.inl (by simpa using hc)))

/-- A literal is trimmed before the position. -/
theorem reaches_trimBefore (closed : Bool) {cursor : Cursor} (hliteral : cursor.literal = true) :
    Reaches State.next (standing closed cursor .back)
      (standing closed cursor.trimBefore .byte) := by
  rcases cursor with ⟨above, indent, literal, before, after, below⟩
  simp only at hliteral
  subst hliteral
  simp only [Cursor.trimBefore]
  have hdrop (above : List Line) (before : Bytes) :=
    reaches_dropBlanksBefore closed ⟨above, indent, true, before, after, below⟩ before
  fun_induction Cursor.pullBack indent above before with
  | case1 before =>
    specialize hdrop [] before
    by_cases hnil : dropBlanksBefore before = []
    · rw [hnil, if_pos rfl] at hdrop
      rw [hnil]
      exact hdrop.trans (reaches_of_step (step_back_end rfl (by simp)))
    · rw [if_neg hnil] at hdrop
      exact hdrop
  | case2 line above before hnil hjoin ih =>
    have hjoins : line.joins ⟨indent, true, after⟩ = true := by
      simpa [Line.joins] using hjoin
    specialize hdrop (line :: above) before
    rw [hnil, if_pos rfl] at hdrop
    exact (hdrop.trans (reaches_of_step (step_back_join rfl rfl hjoins))).trans ih
  | case3 line above before hnil hjoin =>
    have hjoins : ∀ other ∈ (line :: above).head?, other.joins ⟨indent, true, after⟩ = false := by
      rintro _ ⟨⟩
      simpa [Line.joins] using hjoin
    specialize hdrop (line :: above) before
    rw [hnil, if_pos rfl] at hdrop
    exact hdrop.trans (reaches_of_step (step_back_end rfl hjoins))
  | case4 line above before c kept hkept =>
    specialize hdrop (line :: above) before
    rw [hkept, if_neg (List.cons_ne_nil c kept)] at hdrop
    exact hdrop

end TemplateCompiler.InPlace
