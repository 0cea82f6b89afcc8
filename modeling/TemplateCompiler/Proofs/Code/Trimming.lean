import TemplateCompiler.Proofs.Blanks
import TemplateCompiler.Proofs.Code.Decoding

/-!
# Trimming escaped text

The trim pass sees the inside of a literal only as it is written.  It tells the
escapes of blanks from other bytes in both directions: forwards by the backslash,
and backwards by the number of backslashes, which is even at the end of every written
byte.

Main results:

- Theorem {lit}`endsInEscape_escapeByte`: no written byte ends in an open escape.
- Theorems {lit}`dropBlanksBefore_escapeByte` and {lit}`dropBlanksAfter_escapeByte`: a
  written byte is dropped as a whole if it stands for a blank, and else kept as a
  whole.
- Theorems {lit}`dropBlanksBefore_escape` and {lit}`dropBlanksAfter_escape`: what is left of a
  written text is the written form of the trimmed text.
-/

namespace TemplateCompiler

/-- A text that ends in another byte than a backslash ends in no escape. -/
theorem endsInEscape_cons_of_ne {c : UInt8} (h : c ≠ Byte.backslash) (before : Bytes) :
    endsInEscape (c :: before) = false := by
  simp [endsInEscape, h]

/-- One more backslash opens an escape or closes it. -/
theorem endsInEscape_cons_backslash (before : Bytes) :
    endsInEscape (Byte.backslash :: before) = !endsInEscape before := by
  simp only [endsInEscape, List.takeWhile_cons, beq_self_eq_true, if_true, List.length_cons]
  rcases Nat.mod_two_eq_zero_or_one
    (before.takeWhile (· == Byte.backslash)).length with h | h
  · rw [Nat.add_mod, h]
    rfl
  · rw [Nat.add_mod, h]
    rfl

/-- No written byte ends in an open escape. -/
theorem endsInEscape_escapeByte {before : Bytes} (h : endsInEscape before = false)
    (c : UInt8) (next : Option UInt8) :
    endsInEscape ((Literal.escapeByte c next).reverse ++ before) = false := by
  rcases Literal.escapeByte_cases c next with ⟨hwritten, hplain, -⟩ | ⟨d, hwritten, -⟩
  · rw [hwritten]
    exact endsInEscape_cons_of_ne (Literal.blank_of_not_needsEscape hplain).2 before
  · rw [hwritten]
    change endsInEscape (d :: Byte.backslash :: before) = false
    by_cases hd : d = Byte.backslash
    · rw [hd, endsInEscape_cons_backslash, endsInEscape_cons_backslash, h]
      rfl
    · exact endsInEscape_cons_of_ne hd _

/-- No written text ends in an open escape. -/
theorem endsInEscape_escape {before : Bytes} (h : endsInEscape before = false) (text : Bytes) :
    endsInEscape ((Literal.escape text).reverse ++ before) = false := by
  induction text generalizing before with
  | nil => exact h
  | cons c rest ih =>
    rw [Literal.escape_cons, List.reverse_append, List.append_assoc]
    exact ih (endsInEscape_escapeByte h c rest.head?)

/-! ## Blanks before a place -/

/-- A blank that stands for itself is dropped at the end of a literal. -/
theorem dropBlanksBefore_cons_plain {c : UInt8} (h : isPlainBlank c = true) (before : Bytes) :
    dropBlanksBefore (c :: before) = dropBlanksBefore before := by
  cases before <;> simp [dropBlanksBefore, h]

private theorem dropBlanksBefore_cons_escape {d : UInt8} {before : Bytes}
    (hplain : isPlainBlank d = false) (hletter : isBlankLetter d = true)
    (hescape : endsInEscape before = false) :
    dropBlanksBefore (d :: Byte.backslash :: before) = dropBlanksBefore before := by
  rw [dropBlanksBefore, if_neg (by simp [hplain])]
  simp [hletter, endsInEscape_cons_backslash, hescape]

/-- Dropping blanks at the end of a literal stops at a byte that ends no blank. -/
theorem dropBlanksBefore_cons_stop {c : UInt8} {before : Bytes}
    (hplain : isPlainBlank c = false)
    (hletter : isBlankLetter c = false ∨ endsInEscape before = false) :
    dropBlanksBefore (c :: before) = c :: before := by
  cases before with
  | nil => simp [dropBlanksBefore, hplain]
  | cons d more =>
    have hstop : (isBlankLetter c && endsInEscape (d :: more)) = false := by
      rcases hletter with hc | hescape
      · simp [hc]
      · simp [hescape]
    rw [dropBlanksBefore, if_neg (by simp [hplain])]
    simp [hstop]

/-- A written byte at the end is dropped as a whole if it stands for a blank, and else
kept as a whole. -/
theorem dropBlanksBefore_escapeByte {before : Bytes} (h : endsInEscape before = false)
    (c : UInt8) (next : Option UInt8) :
    dropBlanksBefore ((Literal.escapeByte c next).reverse ++ before)
      = if isBlank c then dropBlanksBefore before
        else (Literal.escapeByte c next).reverse ++ before := by
  rcases Literal.escapeByte_cases c next with ⟨hwritten, hplain, -⟩ | ⟨d, hwritten, hd⟩
  · have hblank := (Literal.blank_of_not_needsEscape hplain).1
    rw [hwritten]
    change dropBlanksBefore (c :: before)
      = if isBlank c then dropBlanksBefore before else c :: before
    split
    · next hc => exact dropBlanksBefore_cons_plain (hblank.trans hc) before
    · next hc =>
      exact dropBlanksBefore_cons_stop (by simpa [hblank] using hc) (.inr h)
  · rcases Literal.blank_of_escape hd with ⟨hletter, hnotPlain, -⟩
    rw [hwritten]
    change dropBlanksBefore (d :: Byte.backslash :: before)
      = if isBlank c then dropBlanksBefore before else d :: Byte.backslash :: before
    split
    · next hc => exact dropBlanksBefore_cons_escape hnotPlain (hletter.trans hc) h
    · next hc =>
      have hstop : isBlankLetter d = false := by simpa [hletter] using hc
      exact dropBlanksBefore_cons_stop hnotPlain (.inl hstop)

/-- Dropping the blanks that end a written text leaves a written text. -/
theorem dropBlanksBefore_escape (text : Bytes) :
    dropBlanksBefore (Literal.escape text).reverse = (Literal.escape (trimEnd text)).reverse := by
  induction text using List.reverseRecOn with
  | nil => rfl
  | append_singleton rest c ih =>
    by_cases hbrace : c = Byte.openBrace
    · -- A hash sign before the brace is written otherwise than at the end of a text.
      subst hbrace
      rcases Literal.escape_suffix_escape rest [Byte.openBrace] with ⟨start, hstart⟩
      have hlast : Literal.escape [Byte.openBrace] = [Byte.openBrace] := rfl
      have hkept : trimEnd (rest ++ [Byte.openBrace]) = rest ++ [Byte.openBrace] :=
        trimEnd_append_cons (by decide) rest []
      rw [hkept, ← hstart, hlast, List.reverse_append]
      exact dropBlanksBefore_cons_stop (by decide) (.inl (by decide))
    · have hwritten : Literal.escape (rest ++ [c])
          = Literal.escape rest ++ Literal.escapeByte c none := by
        rw [Literal.escape_append_of_head (by simpa using hbrace), Literal.escape_cons]
        simp
      have hescape : endsInEscape (Literal.escape rest).reverse = false := by
        simpa using endsInEscape_escape (show endsInEscape [] = false from rfl) rest
      rw [hwritten, List.reverse_append, dropBlanksBefore_escapeByte hescape]
      split
      · next hblank =>
        have hdropped : trimEnd (rest ++ [c]) = trimEnd rest :=
          List.rdropWhile_concat_pos isBlank rest c hblank
        rw [ih, hdropped]
      · next hplain =>
        have hkept : trimEnd (rest ++ [c]) = rest ++ [c] :=
          trimEnd_append_cons (Bool.eq_false_iff.2 hplain) rest []
        rw [hkept, hwritten, List.reverse_append]

/-! ## Blanks after a place -/

/-- A blank that stands for itself is dropped at the start of a literal. -/
theorem dropBlanksAfter_cons_plain {c : UInt8} (h : isPlainBlank c = true) (after : Bytes) :
    dropBlanksAfter (c :: after) = dropBlanksAfter after := by
  cases after <;> simp [dropBlanksAfter, h]

private theorem dropBlanksAfter_cons_escape {d : UInt8} (h : isBlankLetter d = true)
    (after : Bytes) :
    dropBlanksAfter (Byte.backslash :: d :: after) = dropBlanksAfter after := by
  have hplain : isPlainBlank Byte.backslash = false := by decide
  simp [dropBlanksAfter, hplain, h]

/-- Dropping blanks at the start of a literal stops at a byte that starts no blank. -/
theorem dropBlanksAfter_cons_stop {c : UInt8} {after : Bytes}
    (hplain : isPlainBlank c = false)
    (hstop : c ≠ Byte.backslash ∨ ∀ d ∈ after.head?, isBlankLetter d = false) :
    dropBlanksAfter (c :: after) = c :: after := by
  cases after with
  | nil => simp [dropBlanksAfter, hplain]
  | cons d more =>
    have hletter : (c == Byte.backslash && isBlankLetter d) = false := by
      rcases hstop with hc | hd
      · simp [hc]
      · simp [hd d rfl]
    rw [dropBlanksAfter, if_neg (by simp [hplain])]
    simp [hletter]

/-- A written byte at the start is dropped as a whole if it stands for a blank, and
else kept as a whole. -/
theorem dropBlanksAfter_escapeByte (c : UInt8) (next : Option UInt8) (after : Bytes) :
    dropBlanksAfter (Literal.escapeByte c next ++ after)
      = if isBlank c then dropBlanksAfter after
        else Literal.escapeByte c next ++ after := by
  rcases Literal.escapeByte_cases c next with ⟨hwritten, hplain, -⟩ | ⟨d, hwritten, hd⟩
  · rcases Literal.blank_of_not_needsEscape hplain with ⟨hblank, hslash⟩
    rw [hwritten]
    change dropBlanksAfter (c :: after) = if isBlank c then dropBlanksAfter after else c :: after
    split
    · next hc => exact dropBlanksAfter_cons_plain (hblank.trans hc) after
    · next hc =>
      exact dropBlanksAfter_cons_stop (by simpa [hblank] using hc) (.inl hslash)
  · have hletter := (Literal.blank_of_escape hd).1
    rw [hwritten]
    change dropBlanksAfter (Byte.backslash :: d :: after)
      = if isBlank c then dropBlanksAfter after else Byte.backslash :: d :: after
    split
    · next hc => exact dropBlanksAfter_cons_escape (hletter.trans hc) after
    · next hc =>
      apply dropBlanksAfter_cons_stop (by decide)
      right
      simpa [hletter] using hc

/-- Dropping the blanks that start a written text leaves a written text. -/
theorem dropBlanksAfter_escape (text : Bytes) :
    dropBlanksAfter (Literal.escape text) = Literal.escape (trimStart text) := by
  induction text with
  | nil => rfl
  | cons c rest ih =>
    rw [Literal.escape_cons, dropBlanksAfter_escapeByte, ih, trimStart, trimStart,
      List.dropWhile_cons]
    split
    · rfl
    · exact (Literal.escape_cons c rest).symm

/-- A written byte is passed over as one unit, unless it is a hash sign in front of a
brace that was no part of its text. -/
theorem unitLength_escapeByte {literal : Bool} {c : UInt8} {next : Option UInt8} {after : Bytes}
    (h : after.head? = some Byte.openBrace → next = some Byte.openBrace) :
    unitLength literal (Literal.escapeByte c next ++ after)
      = (Literal.escapeByte c next).length := by
  rcases Literal.escapeByte_cases c next with ⟨hwritten, hplain, hhash⟩ | ⟨d, hwritten, -⟩
  · have hslash := (Literal.blank_of_not_needsEscape hplain).2
    have hopen : ¬(c = Byte.hash ∧ literal = true ∧ after.head? = some Byte.openBrace) :=
      fun hc => hhash hc.1 (h hc.2.2)
    rw [hwritten, List.singleton_append, unitLength, if_neg hslash, if_neg hopen]
    rfl
  · rw [hwritten]
    change unitLength literal (Byte.backslash :: d :: after) = 2
    rw [unitLength, if_pos rfl]

end TemplateCompiler
