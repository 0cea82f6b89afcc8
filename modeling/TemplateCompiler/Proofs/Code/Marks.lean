import TemplateCompiler.Code.Cursor

/-!
# Marks in text

A trim mark in a text touches markup when a less-than sign follows a left mark, and a
greater-than sign stands before a right mark.  Text without marks goes anywhere.

Main results:

- Theorem {lit}`marksTouch_append`: text without marks can stand before any text whose
  marks touch markup.
-/

namespace TemplateCompiler

/-- The two marks differ. -/
theorem rightMark_ne_leftMark : rightMark ≠ leftMark := by
  decide

/-- Whether a text holds no trim marks. -/
def Unmarked (text : Bytes) : Prop :=
  leftMark ∉ text ∧ rightMark ∉ text

instance (text : Bytes) : Decidable (Unmarked text) :=
  inferInstanceAs (Decidable (_ ∧ _))

theorem unmarked_nil : Unmarked [] := by
  decide

/-- A byte of a text without marks is neither of them. -/
theorem Unmarked.ne_of_mem {text : Bytes} (h : Unmarked text) {c : UInt8} (hc : c ∈ text) :
    c ≠ leftMark ∧ c ≠ rightMark :=
  ⟨fun e => h.1 (e ▸ hc), fun e => h.2 (e ▸ hc)⟩

/-- Bytes of a text without marks hold none. -/
theorem Unmarked.of_subset {first second : Bytes} (h : Unmarked second)
    (hsub : first ⊆ second) : Unmarked first :=
  ⟨fun hmem => h.1 (hsub hmem), fun hmem => h.2 (hsub hmem)⟩

/-- An append is without marks exactly when both of its parts are. -/
theorem unmarked_append_iff {first second : Bytes} :
    Unmarked (first ++ second) ↔ Unmarked first ∧ Unmarked second := by
  simp only [Unmarked, List.mem_append, not_or]
  constructor
  · rintro ⟨⟨hleft, hleft'⟩, hright, hright'⟩
    exact ⟨⟨hleft, hright⟩, hleft', hright'⟩
  · rintro ⟨⟨hleft, hright⟩, hleft', hright'⟩
    exact ⟨⟨hleft, hleft'⟩, hright, hright'⟩

/-- A text is without marks exactly when its first byte and its rest are. -/
theorem unmarked_cons_iff {c : UInt8} {text : Bytes} :
    Unmarked (c :: text) ↔ Unmarked [c] ∧ Unmarked text :=
  @unmarked_append_iff [c] text

/-- The texts of items are without marks exactly when each of them is. -/
theorem unmarked_flatMap_iff {α : Type} {items : List α} {text : α → Bytes} :
    Unmarked (items.flatMap text) ↔ ∀ item ∈ items, Unmarked (text item) := by
  induction items with
  | nil => simp [Unmarked]
  | cons item rest ih =>
    rw [List.flatMap_cons, unmarked_append_iff, ih, List.forall_mem_cons]

/-- What is true of all words and of their separator is true of the joined words, if it
goes through an append. -/
theorem intercalate_of_append {p : Bytes → Prop} (hnil : p [])
    (happend : ∀ s t, p s → p t → p (s ++ t)) {separator : Bytes} (hseparator : p separator)
    {words : List Bytes} (h : ∀ word ∈ words, p word) : p (separator.intercalate words) := by
  induction words with
  | nil => exact hnil
  | cons word rest ih =>
    rw [List.forall_mem_cons] at h
    cases rest with
    | nil =>
      rw [List.intercalate_singleton]
      exact h.1
    | cons next others =>
      rw [List.intercalate_cons_cons]
      exact happend _ _ (happend _ _ h.1 hseparator) (ih h.2)

/-- Words without marks stay so when they are joined by such a separator. -/
theorem unmarked_intercalate {separator : Bytes} (hseparator : Unmarked separator)
    {words : List Bytes} (h : ∀ word ∈ words, Unmarked word) :
    Unmarked (separator.intercalate words) :=
  intercalate_of_append unmarked_nil (fun _ _ hs ht => unmarked_append_iff.2 ⟨hs, ht⟩) hseparator h

/-! ## Marks that touch markup -/

/-- Whether each left mark in a text stands in front of a less-than sign, and each
right mark behind a greater-than sign.  The text stands behind {lit}`previous`. -/
def marksTouch (previous : Option UInt8) : Bytes → Bool
  | [] => true
  | c :: rest =>
    (c != leftMark || rest.head? == some Byte.less)
      && (c != rightMark || previous == some Byte.greater) && marksTouch (some c) rest

/-- Text that stands alone can stand behind anything. -/
theorem marksTouch_of_none {text : Bytes} (h : marksTouch none text = true)
    (previous : Option UInt8) : marksTouch previous text = true := by
  cases text with
  | nil => rfl
  | cons c rest =>
    simp only [marksTouch, Bool.and_eq_true, Bool.or_eq_true] at h ⊢
    rcases h with ⟨⟨hleft, hright⟩, hrest⟩
    have hc : (c != rightMark) = true := by simpa using hright
    exact ⟨⟨hleft, .inl hc⟩, hrest⟩

/-- Text without marks can stand before any text whose marks touch markup. -/
theorem marksTouch_append {text rest : Bytes} (h : Unmarked text)
    (hrest : marksTouch none rest = true) (previous : Option UInt8) :
    marksTouch previous (text ++ rest) = true := by
  induction text generalizing previous with
  | nil => exact marksTouch_of_none hrest previous
  | cons c more ih =>
    rw [unmarked_cons_iff] at h
    rcases h with ⟨hc, hmore⟩
    rcases hc.ne_of_mem List.mem_cons_self with ⟨hne, hne'⟩
    have hleft : (c != leftMark) = true := bne_iff_ne.2 hne
    have hright : (c != rightMark) = true := bne_iff_ne.2 hne'
    have hnext := ih hmore (some c)
    simp only [List.cons_append, marksTouch, hleft, hright, hnext, Bool.true_or, Bool.and_self]

/-- A right mark may follow text that ends in a greater-than sign. -/
theorem marksTouch_append_rightMark {text rest : Bytes} (h : Unmarked text)
    (hend : text.getLast? = some Byte.greater) (hrest : marksTouch none rest = true)
    (previous : Option UInt8) : marksTouch previous (text ++ rightMark :: rest) = true := by
  rcases List.getLast?_eq_some_iff.1 hend with ⟨start, rfl⟩
  have hstart : Unmarked start := (unmarked_append_iff.1 h).1
  have hnext := marksTouch_of_none hrest (some rightMark)
  have hplain : (Byte.greater != leftMark) = true ∧ (Byte.greater != rightMark) = true := by
    decide
  have hother : (rightMark != leftMark) = true := bne_iff_ne.2 rightMark_ne_leftMark
  have hmark : marksTouch none (Byte.greater :: rightMark :: rest) = true := by
    simp only [marksTouch, hplain.1, hplain.2, hother, hnext, beq_self_eq_true, Bool.true_or,
      Bool.or_true, Bool.and_self]
  rw [List.append_assoc]
  exact marksTouch_append hstart hmark previous

/-- A left mark may stand before text that starts with a less-than sign. -/
theorem marksTouch_leftMark_cons {text : Bytes} (h : marksTouch none text = true)
    (hstart : text.head? = some Byte.less) : marksTouch none (leftMark :: text) = true := by
  have hmark : (leftMark != rightMark) = true := bne_iff_ne.2 rightMark_ne_leftMark.symm
  simp [marksTouch, marksTouch_of_none h, hstart, hmark]

theorem unmarked_spaces (width : Nat) : Unmarked (spaces width) := by
  have hleft : leftMark ≠ Byte.space := by decide
  have hright : rightMark ≠ Byte.space := by decide
  exact ⟨fun h => hleft (List.eq_of_mem_replicate h), fun h => hright (List.eq_of_mem_replicate h)⟩

end TemplateCompiler
