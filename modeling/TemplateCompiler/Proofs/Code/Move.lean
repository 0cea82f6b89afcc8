import TemplateCompiler.Proofs.Code.Marks

/-!
# Moves of a cursor

What one move of a cursor can do, said once: it enters the next line, takes a mark
out of a line of host code, resolves a mark in a literal, or passes over a unit.

Main results:

- Theorems {lit}`Cursor.move_of_next_eq` and {lit}`Cursor.Move.next_eq`: the next place is
  the one that a move leads to.
- Theorem {lit}`Cursor.run_of_unmarked`: bytes without marks are passed over as they
  are.
-/

namespace TemplateCompiler

namespace Cursor

/-- One move of a cursor, by what is ahead of it. -/
inductive Move (cursor : Cursor) : Cursor → Prop
  | enter {line : Line} {below : List Line} (hafter : cursor.after = [])
      (hbelow : cursor.below = line :: below) :
      Move cursor (enter (cursor.line :: cursor.above) line below)
  | dropMark {c : UInt8} {rest : Bytes} (hafter : cursor.after = c :: rest)
      (hmark : c = leftMark ∨ c = rightMark) (hliteral : cursor.literal = false) :
      Move cursor { cursor with after := rest }
  | trimBefore {rest : Bytes} (hafter : cursor.after = leftMark :: rest)
      (hliteral : cursor.literal = true) :
      Move cursor { cursor with after := rest }.trimBefore
  | trimAfter {rest : Bytes} (hafter : cursor.after = rightMark :: rest)
      (hliteral : cursor.literal = true) :
      Move cursor { cursor with after := rest }.trimAfter
  | skip {c : UInt8} {rest : Bytes} (hafter : cursor.after = c :: rest)
      (hleft : c ≠ leftMark) (hright : c ≠ rightMark) :
      Move cursor (cursor.skip (unitLength cursor.literal cursor.after))

/-- A cursor stops only at the end of all lines. -/
theorem next_eq_none_iff (cursor : Cursor) :
    cursor.next = none ↔ cursor.after = [] ∧ cursor.below = [] := by
  unfold next
  split
  · next hafter =>
    split
    · next hbelow => simp [hafter, hbelow]
    · next line below hbelow => simp [hbelow]
  · next c rest hafter =>
    simp only [hafter, List.cons_ne_nil, false_and, iff_false]
    split
    · simp
    · split <;> simp

/-- A move leads to the next place. -/
theorem Move.next_eq {cursor cursor' : Cursor} (h : Move cursor cursor') :
    cursor.next = some cursor' := by
  cases h with
  | enter hafter hbelow => simp [next, hafter, hbelow]
  | dropMark hafter hmark hliteral =>
    rcases hmark with rfl | rfl
    · simp [next, hafter, hliteral]
    · simp [next, hafter, hliteral, rightMark_ne_leftMark]
  | trimBefore hafter hliteral => simp [next, hafter, hliteral]
  | trimAfter hafter hliteral =>
    simp [next, hafter, hliteral, rightMark_ne_leftMark]
  | skip hafter hleft hright => simp [next, hafter, hleft, hright]

/-- The next place is one that a move leads to. -/
theorem move_of_next_eq {cursor cursor' : Cursor} (h : cursor.next = some cursor') :
    Move cursor cursor' := by
  unfold next at h
  split at h
  · next hafter =>
    split at h
    · cases h
    · next line below hbelow =>
      cases h
      exact .enter hafter hbelow
  · next c rest hafter =>
    split at h
    · next hc =>
      subst hc
      cases h
      by_cases hliteral : cursor.literal = true
      · rw [if_pos hliteral]
        exact .trimBefore hafter hliteral
      · rw [if_neg hliteral]
        exact .dropMark hafter (.inl rfl) (by simpa using hliteral)
    · next hleft =>
      split at h
      · next hc =>
        subst hc
        cases h
        by_cases hliteral : cursor.literal = true
        · rw [if_pos hliteral]
          exact .trimAfter hafter hliteral
        · rw [if_neg hliteral]
          exact .dropMark hafter (.inr rfl) (by simpa using hliteral)
      · next hright =>
        cases h
        rw [← hafter]
        exact .skip hafter hleft hright

/-! ## Runs -/

/-- A cursor that stops gives back its lines. -/
theorem run_of_next_eq_none {cursor : Cursor} (h : cursor.next = none) :
    cursor.run = cursor.lines := by
  rw [run]
  split
  · rfl
  · next cursor' h' => simp [h] at h'

/-- A move leaves the outcome of a run as it is. -/
theorem run_of_move {cursor cursor' : Cursor} (h : Move cursor cursor') :
    cursor.run = cursor'.run := by
  have hnext := h.next_eq
  rw [run]
  split
  · next h' => simp [hnext] at h'
  · next other h' =>
    rw [hnext] at h'
    cases h'
    rfl

/-- A run leaves at least one line. -/
theorem run_ne_nil (cursor : Cursor) : cursor.run ≠ [] := by
  fun_induction run cursor with
  | case1 cursor hnext => simp [lines]
  | case2 cursor cursor' hnext ih => exact ih

/-- Bytes can be passed over in two parts. -/
theorem skip_skip (cursor : Cursor) (first second : Nat) :
    (cursor.skip first).skip second = cursor.skip (first + second) := by
  simp [skip, List.take_add, List.drop_drop]

/-- A unit may end beyond the line; passing over it then reaches the end of the
line. -/
theorem skip_min (cursor : Cursor) (count : Nat) :
    cursor.skip (min count cursor.after.length) = cursor.skip count := by
  rcases Nat.le_total count cursor.after.length with h | h
  · rw [Nat.min_eq_left h]
  · rw [Nat.min_eq_right h]
    simp [skip, List.take_of_length_le h, List.drop_of_length_le h]

/-- Bytes without marks are passed over as they are, however they fall into
units. -/
theorem run_of_unmarked {cursor : Cursor} (h : Unmarked cursor.after) :
    cursor.run = (cursor.skip cursor.after.length).run := by
  induction hlength : cursor.after.length using Nat.strongRecOn generalizing cursor with
  | ind length ih =>
    cases hafter : cursor.after with
    | nil =>
      have hzero : length = 0 := by simpa [hafter] using hlength.symm
      rw [hzero]
      rfl
    | cons c rest =>
      have hmem : c ∈ cursor.after := by simp [hafter]
      have hc := h.ne_of_mem hmem
      have hpos := unitLength_pos cursor.literal c rest
      rw [run_of_move (.skip hafter hc.1 hc.2), ← skip_min]
      generalize hcount : min (unitLength cursor.literal cursor.after) cursor.after.length = count
      have hle : count ≤ length := by omega
      have hlt : 0 < count := by
        rw [hafter, List.length_cons] at hcount
        omega
      have hrest : (cursor.skip count).after.length = length - count := by
        simp [skip, hlength]
      have hunmarked : Unmarked (cursor.skip count).after :=
        h.of_subset (List.drop_sublist count cursor.after).subset
      rw [ih (length - count) (by omega) hunmarked hrest,
        skip_skip, Nat.add_sub_cancel' hle]

/-- Plain bytes are passed over one by one. -/
theorem run_of_plain {word rest : Bytes}
    (hword : ∀ c ∈ word, c ≠ leftMark ∧ c ≠ rightMark ∧ c ≠ Byte.backslash ∧ c ≠ Byte.hash)
    {cursor : Cursor} (hafter : cursor.after = word ++ rest) :
    cursor.run = (cursor.skip word.length).run := by
  induction word generalizing cursor with
  | nil => rfl
  | cons c more ih =>
    rw [List.forall_mem_cons] at hword
    rcases hword with ⟨⟨hleft, hright, hslash, hhash⟩, hmore⟩
    have hunit : unitLength cursor.literal cursor.after = 1 := by
      simp [hafter, unitLength, hslash, hhash]
    have hnext : (cursor.skip 1).after = more ++ rest := by
      simp [skip, hafter]
    rw [run_of_move (.skip hafter hleft hright), hunit, ih hmore hnext, skip_skip, Nat.add_comm]
    rfl

/-- The cursor at the end of a line. -/
def leave (above : List Line) (line : Line) (below : List Line) : Cursor :=
  ⟨above, line.indent, line.literal, line.body.reverse, [], below⟩

/-- A cursor that passes over all that is ahead of it leaves its line. -/
theorem skip_all (cursor : Cursor) :
    cursor.skip cursor.after.length = leave cursor.above cursor.line cursor.below := by
  simp [skip, leave, line]

/-- A cursor passes over a line without marks. -/
theorem run_enter_of_unmarked {line : Line} (h : Unmarked line.body) (above below : List Line) :
    (enter above line below).run = (leave above line below).run := by
  rw [@run_of_unmarked (enter above line below) h, skip_all]
  rfl

theorem run_leave_nil (above : List Line) (line : Line) :
    (leave above line []).run = (line :: above).reverse := by
  rw [run_of_next_eq_none ((next_eq_none_iff _).2 ⟨rfl, rfl⟩)]
  simp [lines, leave, Cursor.line]

/-- A cursor that leaves a line enters the next one. -/
theorem run_leave_cons (above : List Line) (line next : Line) (below : List Line) :
    (leave above line (next :: below)).run = (enter (line :: above) next below).run := by
  rw [run_of_move (.enter rfl rfl)]
  simp [leave, Cursor.line]

end Cursor

end TemplateCompiler
