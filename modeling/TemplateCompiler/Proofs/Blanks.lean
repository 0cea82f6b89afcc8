import Mathlib.Data.List.DropRight
import Mathlib.Data.List.TakeWhile
import TemplateCompiler.Bytes

/-!
# Blanks round a text

A text is its core with blanks before it and behind it.  The core neither starts nor ends in a
blank, so a text has only one, and trimming leaves it.

Main results:

- Theorem {lit}`trimEnd_append_cons`: blanks are trimmed behind the last other byte only.
- Theorem {lit}`isCore_iff`: the core of a text is what trimming leaves of it.
-/

namespace TemplateCompiler

/-- Blanks are trimmed behind the last other byte only. -/
theorem trimEnd_append_cons {c : UInt8} (hc : isBlank c = false) (s t : Bytes) :
    trimEnd (s ++ c :: t) = s ++ c :: trimEnd t := by
  have hstop : (c :: s.reverse).dropWhile isBlank = c :: s.reverse :=
    List.dropWhile_cons_of_neg (by simp [hc])
  have hreverse : (s ++ c :: t).reverse = t.reverse ++ c :: s.reverse := by simp
  rw [trimEnd, hreverse, List.dropWhile_append, hstop]
  split
  · next h =>
    rw [List.isEmpty_iff] at h
    simp [trimEnd, h]
  · simp [trimEnd]

/-- A text that starts with no blank is not trimmed at its start. -/
theorem trimStart_of_head {text : Bytes} (h : ∀ c, text.head? = some c → isBlank c = false) :
    trimStart text = text := by
  cases text with
  | nil => rfl
  | cons c rest => exact List.dropWhile_cons_of_neg (by simp [h c rfl])

private theorem trimEnd_of_forall {text : Bytes} (h : ∀ c ∈ text, isBlank c = true) :
    trimEnd text = [] :=
  List.rdropWhile_eq_nil_iff.2 h

/-- Trimming at the end leaves a first part of the text. -/
theorem isPrefix_trimEnd (text : Bytes) : trimEnd text <+: text := by
  rw [trimEnd, ← List.reverse_suffix, List.reverse_reverse]
  exact List.dropWhile_suffix _

/-- Trimming leaves one part of the text. -/
theorem isInfix_trim (text : Bytes) : trim text <:+: text :=
  (isPrefix_trimEnd _).isInfix.trans (List.dropWhile_suffix _).isInfix

/-- Trimming adds no byte. -/
theorem trim_subset (text : Bytes) : trim text ⊆ text :=
  (isInfix_trim text).subset

/-- A trimmed text starts with no blank. -/
theorem head?_trim (text : Bytes) : ∀ c ∈ (trim text).head?, isBlank c = false := by
  intro c hc
  have hstart : c ∈ (trimStart text).head? := by
    rcases isPrefix_trimEnd (trimStart text) with ⟨rest, hrest⟩
    rw [← hrest]
    exact List.mem_head?_append_of_mem_head? hc
  have hdrop := List.head?_dropWhile_not isBlank text
  rw [trimStart] at hstart
  rw [Option.mem_def.1 hstart] at hdrop
  simpa using hdrop

private theorem getLast?_trimEnd (text : Bytes) :
    ∀ c ∈ (trimEnd text).getLast?, isBlank c = false := by
  intro c hc
  have hne : trimEnd text ≠ [] := by
    rintro hnil
    simp [hnil] at hc
  have hlast := List.rdropWhile_last_not isBlank text hne
  rw [Option.mem_def, List.getLast?_eq_some_getLast hne, Option.some.injEq] at hc
  rw [← hc]
  exact Bool.eq_false_iff.2 hlast

/-- A byte in front of a text that starts with no blank stays there. -/
theorem trim_cons_of_head {c : UInt8} {text : Bytes} (hc : isBlank c = false)
    (h : ∀ d, text.head? = some d → isBlank d = false) : trim (c :: text) = c :: trim text := by
  have hstart : trimStart (c :: text) = c :: text := List.dropWhile_cons_of_neg (by simp [hc])
  rw [trim, trim, hstart, trimStart_of_head h]
  exact trimEnd_append_cons hc [] text

/-! ## Cores -/

/-- Whether a text is that core with blanks round it, and the core neither starts nor ends in a
blank. -/
structure IsCore (text core : Bytes) : Prop where
  surrounded : ∃ before after, text = before ++ core ++ after
    ∧ ∀ c ∈ before ++ after, isBlank c = true
  head : ∀ c ∈ core.head?, isBlank c = false
  last : ∀ c ∈ core.getLast?, isBlank c = false

private theorem isCore_trim (text : Bytes) : IsCore text (trim text) where
  surrounded := by
    refine ⟨text.takeWhile isBlank, (trimStart text).rtakeWhile isBlank, ?_, ?_⟩
    · have hback : trim text ++ (trimStart text).rtakeWhile isBlank = trimStart text :=
        List.rdropWhile_append_rtakeWhile
      rw [List.append_assoc, hback, trimStart, List.takeWhile_append_dropWhile]
    · intro c hc
      rcases List.mem_append.1 hc with hc | hc
      · exact List.mem_takeWhile_imp hc
      · exact List.mem_rtakeWhile_imp hc
  head := head?_trim text
  last := getLast?_trimEnd (trimStart text)

/-- The trimmed text is the one core of a text. -/
theorem IsCore.trim_eq {text core : Bytes} (h : IsCore text core) : trim text = core := by
  rcases h.surrounded with ⟨before, after, rfl, hblank⟩
  rw [List.forall_mem_append] at hblank
  rcases hblank with ⟨hbefore, hafter⟩
  rw [trim, trimStart, List.append_assoc, List.dropWhile_append_of_pos hbefore]
  change trimEnd (trimStart (core ++ after)) = core
  rcases List.eq_nil_or_concat core with rfl | ⟨front, c, rfl⟩
  · have hnone : trimStart after = [] := List.dropWhile_eq_nil_iff.2 hafter
    rw [List.nil_append, hnone]
    rfl
  · rw [List.concat_eq_append] at h ⊢
    have hc : isBlank c = false := h.last c (by simp)
    have hhead : ∀ d, (front ++ [c] ++ after).head? = some d → isBlank d = false := by
      intro d hd
      apply h.head d
      cases front with
      | nil => simpa using hd
      | cons e front => simpa using hd
    rw [trimStart_of_head hhead, List.append_assoc, List.singleton_append,
      trimEnd_append_cons hc, trimEnd_of_forall hafter]

/-- The core of a text is what trimming leaves of it. -/
theorem isCore_iff (text core : Bytes) : IsCore text core ↔ trim text = core := by
  constructor
  · exact IsCore.trim_eq
  · rintro rfl
    exact isCore_trim text

end TemplateCompiler
