import Mathlib.Data.List.Infix
import TemplateCompiler.Proofs.Template.Delimited

/-!
# Quiet text

A push starts with a dollar sign and a letter that no other code of the generated program
has side by side.  Text without this pair is quiet.  Escaping keeps text quiet, and so does
whatever else is done with the expressions of a template.

Main results:

- Theorem {lit}`Quiet.append`: quiet texts are quiet together unless the pair is split
  between them.
- Theorem {lit}`Literal.quiet_escape`: the written form of quiet text is quiet.
- Theorem {lit}`Node.IsQuiet.markup`: a node with a quiet expression has quiet markup.
-/

namespace TemplateCompiler

namespace Byte

/-- The dollar sign. -/
abbrev dollar : UInt8 := 0x24

/-- The letter behind the dollar sign in the name of the output buffer. -/
abbrev letterO : UInt8 := 0x6F

end Byte

/-! ## Pairs of bytes -/

/-- Whether a text holds no name of the output buffer. -/
def Quiet (text : Bytes) : Prop :=
  ¬ascii "$o" <:+: text

instance (text : Bytes) : Decidable (Quiet text) :=
  inferInstanceAs (Decidable (¬_))

/-- A part of a quiet text is quiet. -/
theorem Quiet.of_isInfix {s t : Bytes} (h : Quiet t) (hpart : s <:+: t) : Quiet s :=
  fun hpair => h (hpair.trans hpart)

private theorem quiet_cons_iff {c : UInt8} {rest : Bytes} :
    Quiet (c :: rest) ↔ (c = Byte.dollar → rest.head? ≠ some Byte.letterO) ∧ Quiet rest := by
  have hpair : ascii "$o" = [Byte.dollar, Byte.letterO] := rfl
  rw [Quiet, List.infix_cons_iff, not_or, hpair, List.cons_prefix_cons]
  refine and_congr_left fun _ => ?_
  cases rest with
  | nil => simp
  | cons d rest =>
    rw [List.cons_prefix_cons, List.head?_cons]
    simp [eq_comm]

/-- Quiet texts are quiet together, unless the pair is split between them. -/
theorem Quiet.append {s t : Bytes} (h : Quiet s) (h' : Quiet t)
    (hmeet : s.getLast? ≠ some Byte.dollar ∨ t.head? ≠ some Byte.letterO) : Quiet (s ++ t) := by
  induction s with
  | nil => exact h'
  | cons c rest ih =>
    rw [quiet_cons_iff] at h
    rw [List.cons_append, quiet_cons_iff]
    cases rest with
    | nil =>
      refine ⟨?_, h'⟩
      rintro rfl
      simpa using hmeet
    | cons d more =>
      rw [List.getLast?_cons_cons] at hmeet
      exact ⟨h.1, ih h.2 hmeet⟩

private theorem quiet_of_not_mem {text : Bytes} (h : Byte.dollar ∉ text) : Quiet text :=
  fun hpair => h (hpair.subset (by decide))

/-- A text that is quiet whatever follows it. -/
def Settled (text : Bytes) : Prop :=
  Quiet text ∧ text.getLast? ≠ some Byte.dollar

instance (text : Bytes) : Decidable (Settled text) :=
  inferInstanceAs (Decidable (_ ∧ _))

theorem settled_nil : Settled [] := by
  decide

/-- A text without a dollar sign is settled. -/
theorem settled_of_not_mem {text : Bytes} (h : Byte.dollar ∉ text) : Settled text :=
  ⟨quiet_of_not_mem h, fun hlast => h (List.mem_of_getLast? hlast)⟩

/-- Settled texts stay so side by side. -/
theorem Settled.append {s t : Bytes} (h : Settled s) (h' : Settled t) : Settled (s ++ t) := by
  refine ⟨h.1.append h'.1 (.inl h.2), ?_⟩
  cases hlast : t.getLast? with
  | none =>
    rw [List.getLast?_append, hlast]
    exact h.2
  | some c =>
    rw [List.getLast?_append, hlast, Option.some_or, ← hlast]
    exact h'.2

/-- Quiet text is settled in front of a settled text that starts with another letter. -/
theorem Quiet.append_settled {s t : Bytes} (h : Quiet s) (h' : Settled t) (hne : t ≠ [])
    (hhead : t.head? ≠ some Byte.letterO) : Settled (s ++ t) := by
  refine ⟨h.append h'.1 (.inr hhead), ?_⟩
  rw [List.getLast?_append_of_ne_nil _ hne]
  exact h'.2

/-- Quiet text is settled between settled texts, if the last one starts with another
letter. -/
theorem Settled.append_append {start text last : Bytes} (h : Settled start) (htext : Quiet text)
    (hlast : Settled last) (hne : last ≠ []) (hhead : last.head? ≠ some Byte.letterO) :
    Settled (start ++ text ++ last) := by
  rw [List.append_assoc]
  exact h.append (htext.append_settled hlast hne hhead)

/-- Settled texts of items stay so side by side. -/
theorem settled_flatMap {α : Type} {items : List α} {text : α → Bytes}
    (h : ∀ item ∈ items, Settled (text item)) : Settled (items.flatMap text) := by
  induction items with
  | nil => exact settled_nil
  | cons item rest ih =>
    rw [List.forall_mem_cons] at h
    exact h.1.append (ih h.2)

/-- Settled words stay so when they are joined by a settled separator. -/
theorem settled_intercalate {separator : Bytes} (hseparator : Settled separator)
    {words : List Bytes} (h : ∀ word ∈ words, Settled word) :
    Settled (separator.intercalate words) :=
  intercalate_of_append settled_nil (fun _ _ hs ht => hs.append ht) hseparator h

/-! ## Rewriting byte by byte -/

/-- Some bytes of a text are replaced by settled words that start with another letter. -/
inductive Rewrites : Bytes → Bytes → Prop
  | nil : Rewrites [] []
  | keep {s t : Bytes} (c : UInt8) (h : Rewrites s t) : Rewrites (c :: s) (c :: t)
  | replace {s t : Bytes} (c : UInt8) {d : UInt8} {more : Bytes} (hword : Settled (d :: more))
      (hd : d ≠ Byte.letterO) (h : Rewrites s t) : Rewrites (c :: s) (d :: more ++ t)

namespace Rewrites

theorem refl (text : Bytes) : Rewrites text text := by
  induction text with
  | nil => exact nil
  | cons c rest ih => exact keep c ih

/-- Two texts can be rewritten side by side. -/
theorem append {s s' t t' : Bytes} (h : Rewrites s t) (h' : Rewrites s' t') :
    Rewrites (s ++ s') (t ++ t') := by
  induction h with
  | nil => exact h'
  | keep c _ ih => exact keep c ih
  | @replace s t c d more hword hd _ ih =>
    rw [List.cons_append, List.append_assoc]
    exact replace c hword hd ih

private theorem head?_eq {s t : Bytes} (h : Rewrites s t) (hhead : t.head? = some Byte.letterO) :
    s.head? = some Byte.letterO := by
  cases h with
  | nil => exact hhead
  | keep c => exact hhead
  | replace c hword hd => exact absurd (Option.some.inj hhead) hd

/-- Rewriting keeps text quiet. -/
theorem quiet {s t : Bytes} (h : Rewrites s t) (hs : Quiet s) : Quiet t := by
  induction h with
  | nil => exact hs
  | keep c h ih =>
    rw [quiet_cons_iff] at hs ⊢
    exact ⟨fun hc hhead => hs.1 hc (h.head?_eq hhead), ih hs.2⟩
  | replace c hword hd h ih => exact hword.1.append (ih (quiet_cons_iff.1 hs).2) (.inl hword.2)

end Rewrites

namespace Literal

/-- The inside of a literal is a rewriting of its text. -/
theorem rewrites_escape (text : Bytes) : Rewrites text (escape text) := by
  induction text with
  | nil => exact .nil
  | cons c rest ih =>
    rw [escape_cons]
    rcases escapeByte_cases c rest.head? with ⟨hwritten, -⟩ | ⟨d, hwritten, hd⟩
    · rw [hwritten]
      exact .keep c ih
    · rw [hwritten]
      have hall : (escapes.all fun pair => decide (Settled [Byte.backslash, pair.1])) = true := by
        decide
      have hword := of_decide_eq_true (List.all_eq_true.1 hall (d, c) hd)
      exact .replace c hword (by decide) ih

/-- The written form of quiet text is quiet. -/
theorem quiet_escape {text : Bytes} (h : Quiet text) : Quiet (escape text) :=
  (rewrites_escape text).quiet h

end Literal

namespace Attribute

/-- The content of a value is rewritten when it is escaped. -/
theorem rewrites_escape (content : Bytes) : Rewrites content (escape content) := by
  have hamp : Settled (ascii "&amp;") := by decide
  have hlt : Settled (ascii "&lt;") := by decide
  have hgt : Settled (ascii "&gt;") := by decide
  have hquot : Settled (ascii "&quot;") := by decide
  have hapos : Settled (ascii "&#39;") := by decide
  induction content with
  | nil => exact .nil
  | cons c rest ih =>
    rw [escape, List.flatMap_cons]
    change Rewrites (c :: rest) (escapeByte c ++ escape rest)
    unfold escapeByte
    repeat' split
    · exact .replace c hamp (by decide) ih
    · exact .replace c hlt (by decide) ih
    · exact .replace c hgt (by decide) ih
    · exact .replace c hquot (by decide) ih
    · exact .replace c hapos (by decide) ih
    · exact .keep c ih

private theorem Piece.rewrites_escaped (piece : Piece) :
    Rewrites piece.source piece.escaped.source := by
  cases piece with
  | outside c => exact .refl [c]
  | value quote content closed =>
    exact .keep quote ((rewrites_escape content).append (.refl _))

private theorem quiet_escapeValues {text : Bytes} (h : Quiet text) : Quiet (escapeValues text) := by
  have hpieces (pieces : List Piece) : Rewrites (pieces.flatMap Piece.source)
      (pieces.flatMap fun piece => piece.escaped.source) := by
    induction pieces with
    | nil => exact .nil
    | cons piece rest ih => exact piece.rewrites_escaped.append ih
  have htext := hpieces (pieces text)
  rw [source_pieces] at htext
  exact htext.quiet h

end Attribute

/-! ## Constructs -/

namespace TagForm

/-- What is read of a quiet tag: words that are settled, and a quiet list. -/
theorem quiet_read {tag : Bytes} (h : Quiet tag) :
    (∀ sigil, ∀ word ∈ (read tag).words sigil, Settled word)
      ∧ ∀ list ∈ (read tag).attributes, Quiet list.body := by
  constructor
  · intro sigil word hword
    exact settled_of_not_mem (not_mem_of_mem_words (by decide) word hword)
  · intro list hmem
    exact h.of_isInfix (isInfix_of_mem_attributes list hmem)

private theorem settled_quotedAttribute {name value : Bytes} (hname : Settled name)
    (hvalue : Settled value) : Settled (quotedAttribute name value) := by
  unfold quotedAttribute
  split
  · exact settled_nil
  · have hspace : Settled [Byte.space] := by decide
    have hequals : Settled (ascii "=\"") := by decide
    have hquote : Settled [Byte.quote] := by decide
    exact (((hspace.append hname).append hequals).append hvalue).append hquote

variable {form : TagForm} (hwords : ∀ sigil, ∀ word ∈ form.words sigil, Settled word)
  (hlist : ∀ list ∈ form.attributes, Quiet list.body)

include hlist

private theorem quiet_listedAttributes (escapeAttributes : Bool) :
    Quiet (form.listedAttributes escapeAttributes)
      ∧ (form.listedAttributes escapeAttributes).head? ≠ some Byte.letterO := by
  have hline {text : Bytes} (htext : Quiet text) :
      Quiet (if text.isEmpty then [] else Byte.space :: text)
        ∧ (if text.isEmpty then [] else Byte.space :: text).head? ≠ some Byte.letterO := by
    split
    · decide
    · exact ⟨quiet_cons_iff.2 ⟨fun hspace => absurd hspace (by decide), htext⟩,
        fun hhead => absurd (Option.some.inj hhead) (by decide)⟩
  unfold listedAttributes
  split
  · decide
  · next list hmem =>
    have hbody : Quiet (trim list.body) := (hlist list hmem).of_isInfix (isInfix_trim _)
    apply hline
    split
    · exact Attribute.quiet_escapeValues hbody
    · exact hbody

include hwords

private theorem quiet_attributeText (escapeAttributes : Bool) :
    Quiet (form.attributeText escapeAttributes) := by
  have hclasses := settled_quotedAttribute (by decide : Settled (ascii "class"))
    (settled_intercalate (by decide : Settled [Byte.space]) (hwords .className))
  have hid := settled_quotedAttribute (by decide : Settled (ascii "id"))
    (getLastD_of_forall (hwords .id) settled_nil)
  rcases quiet_listedAttributes hlist escapeAttributes with ⟨hlisted, hhead⟩
  exact (hclasses.append hid).1.append hlisted (.inr hhead)

/-- The markup of a tag is settled. -/
theorem settled_markup (options : Options) :
    Settled (form.markup options).opener ∧ Settled (form.markup options).closer := by
  have hname : Settled form.name := getLastD_of_forall (hwords .name) (by decide)
  have hless : Settled [Byte.less] := by decide
  have hstart : Settled (Byte.less :: form.name) := hless.append hname
  have hattributes := quiet_attributeText hwords hlist options.escapeAttributes
  constructor
  · simp only [markup]
    split
    · exact hstart.append_append hattributes (by decide) (by decide) (by decide)
    · exact hstart.append_append hattributes (by decide) (by decide) (by decide)
  · simp only [markup]
    split
    · exact settled_nil
    · have hslash : Settled (ascii "</") := by decide
      have hgreater : Settled (ascii ">") := by decide
      exact (hslash.append hname).append hgreater

end TagForm

private theorem Comment.settled_markup {expression : Bytes} (h : Quiet expression) :
    Settled (read expression).markup.opener ∧ Settled (read expression).markup.closer := by
  have htext : Quiet (trim (expression.drop 1)) :=
    h.of_isInfix ((isInfix_trim _).trans (List.drop_suffix 1 expression).isInfix)
  unfold read
  split
  · decide
  · split
    · decide
    · next c rest hread =>
      rw [hread] at htext
      split
      · have hstart : Settled (ascii "<!--") := by decide
        have hcloser : Settled (ascii "<![endif]-->") := by decide
        exact ⟨hstart.append_append htext (by decide) (by decide) (by decide), hcloser⟩
      · have hstart : Settled (ascii "<!-- ") := by decide
        exact ⟨hstart.append_append htext (by decide) (by decide) (by decide), settled_nil⟩

private theorem Doctype.settled_opener (format : Format) (expression : Bytes) :
    Settled (opener format expression) :=
  settled_of_not_mem (not_mem_opener (by decide) _ _)

/-- An evaluated node that reads its markup itself, from a quiet expression. -/
structure Node.IsQuiet (node : Node) : Prop where
  evaluated : node.evaluated = true
  kind : ∀ markup, node.directive.kind ≠ .custom markup
  expression : Quiet node.directive.expression

/-- A node with a quiet expression has quiet markup.  Only text may end in a dollar sign,
and text is never a pair. -/
theorem Node.IsQuiet.markup {node : Node} (h : node.IsQuiet) :
    Quiet node.markup.opener ∧ Settled node.markup.closer
      ∧ (node.markup.isPair = true → Settled node.markup.opener) := by
  have hsettled {markup : Markup} (hmarkup : Settled markup.opener ∧ Settled markup.closer) :
      Quiet markup.opener ∧ Settled markup.closer
        ∧ (markup.isPair = true → Settled markup.opener) :=
    ⟨hmarkup.1.1, hmarkup.2, fun _ => hmarkup.1⟩
  rw [Node.markup, Node.reading, h.evaluated, if_pos rfl, Directive.reading]
  cases hkind : node.directive.kind with
  | plain => exact hsettled ⟨settled_nil, settled_nil⟩
  | text => exact ⟨h.expression, settled_nil, by simp [Markup.isPair]⟩
  | element =>
    rcases TagForm.quiet_read h.expression with ⟨hwords, hlist⟩
    exact hsettled (TagForm.settled_markup hwords hlist _)
  | script => exact hsettled ⟨settled_nil, settled_nil⟩
  | comment => exact hsettled (Comment.settled_markup h.expression)
  | doctype => exact hsettled ⟨Doctype.settled_opener _ _, settled_nil⟩
  | custom markup => exact absurd hkind (h.kind markup)

end TemplateCompiler
