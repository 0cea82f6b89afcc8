import Mathlib.Data.List.Basic
import TemplateCompiler.Bytes

/-!
# Fields of a separated text

The fields of a text are what stands between its separators.  They can be told from the text
without a word on how it is split, and a walk by positions from separator to separator comes
upon them one after another.

Main results:

- Theorem {lit}`isSplit_iff`: a text is split into its fields in one way only.
- Theorem {lit}`fields_drop`: what a walk by positions comes upon.
-/

namespace TemplateCompiler

/-- A word is a part of the joined words. -/
theorem infix_intercalate {text : Bytes} {texts : List Bytes} (h : text ∈ texts)
    (separator : Bytes) : text <:+: separator.intercalate texts := by
  induction texts with
  | nil => simp at h
  | cons first rest ih =>
    cases rest with
    | nil =>
      obtain rfl : text = first := by simpa using h
      exact ⟨[], [], by simp⟩
    | cons next others =>
      rw [List.intercalate_cons_cons]
      rcases List.mem_cons.1 h with rfl | h
      · exact ((List.prefix_append _ _).trans (List.prefix_append _ _)).isInfix
      · exact (ih h).trans (List.suffix_append _ _).isInfix

/-- A text without separators is one field. -/
theorem fields_of_not_mem {separator : UInt8} {s : Bytes} (h : separator ∉ s) :
    fields separator s = [s] := by
  induction s with
  | nil => rfl
  | cons c rest ih =>
    simp only [List.mem_cons, not_or] at h
    have hc : c ≠ separator := fun e => h.1 e.symm
    simp [fields, hc, ih h.2]

/-- Only the empty text has a single empty field. -/
theorem eq_nil_of_fields_eq {separator : UInt8} {s : Bytes} (h : fields separator s = [[]]) :
    s = [] := by
  have hjoin := intercalate_fields separator s
  rw [h] at hjoin
  simpa using hjoin.symm

/-- A field is a part of the text. -/
theorem isInfix_of_mem_fields {separator : UInt8} {s field : Bytes}
    (h : field ∈ fields separator s) : field <:+: s := by
  have hjoin := infix_intercalate h [separator]
  rwa [intercalate_fields] at hjoin

/-- Texts that each end in a separator have themselves and an empty text as fields. -/
theorem fields_flatMap_closed {separator : UInt8} {texts : List Bytes}
    (h : ∀ text ∈ texts, separator ∉ text) :
    fields separator (texts.flatMap fun text => text ++ [separator]) = texts ++ [[]] := by
  induction texts with
  | nil => rfl
  | cons text rest ih =>
    have htext := h text (by simp)
    have hrest := ih fun other hother => h other (by simp [hother])
    rw [List.flatMap_cons, List.append_assoc, List.singleton_append,
      fields_append_separator, fields_of_not_mem htext, hrest]
    rfl

/-- No field holds a separator. -/
theorem not_mem_of_mem_fields {separator : UInt8} {s field : Bytes}
    (h : field ∈ fields separator s) : separator ∉ field := by
  induction s generalizing field with
  | nil =>
    have hfield : field = [] := by simpa [fields] using h
    simp [hfield]
  | cons c rest ih =>
    rcases List.exists_cons_of_ne_nil (fields_ne_nil separator rest) with ⟨first, others, hrest⟩
    rw [hrest] at ih
    by_cases hc : c = separator
    · rw [fields, if_pos hc, hrest] at h
      rcases List.mem_cons.1 h with rfl | h
      · simp
      · exact ih h
    · rw [fields, if_neg hc, hrest] at h
      rcases List.mem_cons.1 h with rfl | h
      · have hfirst := ih List.mem_cons_self
        simp only [List.mem_cons, not_or]
        exact ⟨fun hseparator => hc hseparator.symm, hfirst⟩
      · exact ih (List.mem_cons_of_mem _ h)

/-! ## Splitting -/

/-- Whether a text is split into these entries: no entry holds a separator, and with one
separator between each two they are the text. -/
structure IsSplit (separator : UInt8) (s : Bytes) (entries : List Bytes) : Prop where
  joined : [separator].intercalate entries = s
  whole : ∀ entry ∈ entries, separator ∉ entry
  length_eq : entries.length = s.count separator + 1

private theorem length_fields (separator : UInt8) (s : Bytes) :
    (fields separator s).length = s.count separator + 1 := by
  induction s with
  | nil => rfl
  | cons c rest ih =>
    by_cases hc : c = separator
    · rw [fields, if_pos hc, List.length_cons, ih, hc, List.count_cons_self]
    · rcases List.exists_cons_of_ne_nil (fields_ne_nil separator rest) with ⟨first, others, hrest⟩
      rw [hrest] at ih
      rw [fields, if_neg hc, hrest, List.count_cons_of_ne hc]
      exact ih

/-- Entries without separators are found again when they are joined. -/
theorem fields_intercalate {separator : UInt8} {entries : List Bytes} (hne : entries ≠ [])
    (h : ∀ entry ∈ entries, separator ∉ entry) :
    fields separator ([separator].intercalate entries) = entries := by
  induction entries with
  | nil => exact absurd rfl hne
  | cons entry rest ih =>
    rw [List.forall_mem_cons] at h
    cases rest with
    | nil =>
      rw [List.intercalate_singleton]
      exact fields_of_not_mem h.1
    | cons next others =>
      rw [List.intercalate_cons_cons, List.append_assoc, List.singleton_append,
        fields_append_separator, fields_of_not_mem h.1, ih (List.cons_ne_nil _ _) h.2]
      rfl

/-- A text is split into its fields, and in no other way. -/
theorem isSplit_iff (separator : UInt8) (s : Bytes) (entries : List Bytes) :
    IsSplit separator s entries ↔ entries = fields separator s := by
  constructor
  · rintro ⟨rfl, hwhole, hlength⟩
    have hne : entries ≠ [] := by
      rintro rfl
      simp at hlength
    exact (fields_intercalate hne hwhole).symm
  · rintro rfl
    exact ⟨intercalate_fields separator s, fun _ => not_mem_of_mem_fields,
      length_fields separator s⟩

/-! ## Walking by positions -/

/-- Where the field ends that starts at a position: at the first separator from there on, or at
the end of the text if there is none. -/
def fieldEnd (separator : UInt8) (s : Bytes) (start : Nat) : Nat :=
  start + (s.drop start).idxOf separator

/-- The end of a field is not before its start. -/
theorem le_fieldEnd (separator : UInt8) (s : Bytes) (start : Nat) :
    start ≤ fieldEnd separator s start :=
  Nat.le_add_right start _

/-- The end of a field is not beyond the text. -/
theorem fieldEnd_le {separator : UInt8} {s : Bytes} {start : Nat} (h : start ≤ s.length) :
    fieldEnd separator s start ≤ s.length := by
  have hle : (s.drop start).idxOf separator ≤ (s.drop start).length := List.idxOf_le_length
  rw [List.length_drop] at hle
  unfold fieldEnd
  omega

/-- From a position on, the fields are the one that starts there and, if that one ends in a
separator, those behind it. -/
theorem fields_drop {separator : UInt8} {s : Bytes} {start : Nat} (h : start ≤ s.length) :
    fields separator (s.drop start)
      = s.extract start (fieldEnd separator s start)
        :: if fieldEnd separator s start < s.length then
            fields separator (s.drop (fieldEnd separator s start + 1))
          else [] := by
  have hextract : s.extract start (fieldEnd separator s start)
      = (s.drop start).take ((s.drop start).idxOf separator) := by
    rw [List.extract_eq_take_drop, fieldEnd, Nat.add_sub_cancel_left]
  by_cases hmem : separator ∈ s.drop start
  · rcases List.eq_append_cons_of_mem hmem with ⟨field, rest, hsplit, hfield⟩
    have hend : (s.drop start).idxOf separator = field.length := by
      rw [hsplit, List.idxOf_append_of_notMem hfield, List.idxOf_cons_self, Nat.add_zero]
    have hlength := congrArg List.length hsplit
    have hrest : s.drop (start + field.length + 1) = rest := by
      rw [Nat.add_assoc, ← List.drop_drop, hsplit, List.drop_append]
      simp
    simp only [List.length_drop, List.length_append, List.length_cons] at hlength
    have hlt : fieldEnd separator s start < s.length := by
      rw [fieldEnd, hend]
      omega
    rw [if_pos hlt, hextract, fieldEnd, hend, hrest, hsplit, List.take_left,
      fields_append_separator, fields_of_not_mem hfield]
    rfl
  · have hend : (s.drop start).idxOf separator = s.length - start := by
      rw [List.idxOf_of_notMem hmem, List.length_drop]
    have hlast : ¬fieldEnd separator s start < s.length := by
      rw [fieldEnd, hend]
      omega
    rw [if_neg hlast, hextract, hend, ← List.length_drop, List.take_length]
    exact fields_of_not_mem hmem

end TemplateCompiler
