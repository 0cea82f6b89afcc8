import TemplateCompiler.Proofs.Blanks
import TemplateCompiler.Proofs.Code.Reference
import TemplateCompiler.Proofs.Template.Static

/-!
# Where marks come from

Expressions without trim marks are read to markup without trim marks: the only marks
in printed markup are those of whitespace removal, and these touch the angle brackets
of a tag.

Main results:

- Theorem {lit}`Markup.Delimited.opening_append`: the marks of an opener touch it.
- Theorem {lit}`Node.IsStatic.delimited`: the markup of a static node is delimited.
-/

namespace TemplateCompiler

private theorem Attribute.unmarked_escape {content : Bytes} (h : Unmarked content) :
    Unmarked (escape content) := by
  rw [escape, unmarked_flatMap_iff]
  intro c hc
  have hself : Unmarked [c] := h.of_subset (by simpa using hc)
  unfold escapeByte
  repeat' split
  all_goals first | exact hself | decide

/-- Escaping a value adds no marks. -/
theorem Attribute.Piece.unmarked_escaped {piece : Piece} (h : Unmarked piece.source) :
    Unmarked piece.escaped.source := by
  cases piece with
  | outside c => exact h
  | value quote content closed =>
    simp only [source, escaped, List.cons_append] at h ⊢
    rw [unmarked_cons_iff, unmarked_append_iff] at h ⊢
    exact ⟨h.1, unmarked_escape h.2.1, h.2.2⟩

private theorem Attribute.unmarked_escapeValues {text : Bytes} (h : Unmarked text) :
    Unmarked (escapeValues text) := by
  rw [← source_pieces text, unmarked_flatMap_iff] at h
  rw [escapeValues, unmarked_flatMap_iff]
  intro piece hpiece
  exact Piece.unmarked_escaped (h piece hpiece)

/-! ## Tags -/

namespace TagForm

private theorem isNameByte_of_mem_components (tag : Bytes) :
    ∀ component ∈ (readComponents tag).1, ∀ c ∈ component.word, isNameByte c = true := by
  fun_induction readComponents tag with
  | case1 => simp
  | case2 c rest hmarker => simp
  | case3 c rest sigil hmarker components tail hread ih =>
    simp only [hread] at ih
    rw [List.forall_mem_cons]
    exact ⟨fun d hd => List.mem_takeWhile_imp hd, ih⟩

private theorem readComponents_suffix (tag : Bytes) : (readComponents tag).2 <:+ tag := by
  fun_induction readComponents tag with
  | case1 => exact List.suffix_refl _
  | case2 c rest hmarker => exact List.suffix_refl _
  | case3 c rest sigil hmarker components tail hread ih =>
    simp only [hread] at ih
    exact (ih.trans (List.dropWhile_suffix _)).trans (List.suffix_cons c rest)

private theorem skipHash_suffix (text : Bytes) : (skipHash text).2 <:+ text := by
  cases text with
  | nil => exact List.suffix_refl _
  | cons c rest =>
    rw [skipHash]
    split
    · exact ((List.drop_suffix 1 _).trans (List.dropWhile_suffix _)).trans (List.suffix_cons c rest)
    · exact List.suffix_refl _

private theorem isInfix_of_mem_readAttributes (text : Bytes) :
    ∀ list ∈ (readAttributes text).1, list.body <:+: text := by
  cases text with
  | nil => simp [readAttributes]
  | cons c rest =>
    rw [readAttributes]
    split
    · intro list hlist
      rcases Option.mem_some.1 hlist with rfl
      exact (List.takeWhile_prefix _).isInfix.trans (List.suffix_cons c rest).isInfix
    · simp

/-- Words are made of the bytes of names. -/
theorem not_mem_of_mem_words {tag : Bytes} {sigil : Sigil} {c : UInt8} (hc : isNameByte c = false) :
    ∀ word ∈ (read tag).words sigil, c ∉ word := by
  intro word hword hmem
  rcases List.mem_map.1 hword with ⟨component, hcomponent, rfl⟩
  have hname := isNameByte_of_mem_components tag component (List.mem_filter.1 hcomponent).1 c hmem
  rw [hc] at hname
  contradiction

/-- The attribute list of a tag is one part of it. -/
theorem isInfix_of_mem_attributes {tag : Bytes} :
    ∀ list ∈ (read tag).attributes, list.body <:+: tag := by
  intro list hmem
  have hbody := isInfix_of_mem_readAttributes (skipHash (readComponents tag).2).2 list hmem
  exact (hbody.trans (skipHash_suffix _).isInfix).trans (readComponents_suffix tag).isInfix

/-- Whatever is read of an unmarked tag is unmarked. -/
theorem unmarked_read {tag : Bytes} (h : Unmarked tag) :
    (∀ sigil, ∀ word ∈ (read tag).words sigil, Unmarked word)
      ∧ ∀ list ∈ (read tag).attributes, Unmarked list.body := by
  constructor
  · intro sigil word hword
    exact ⟨not_mem_of_mem_words (by decide) word hword, not_mem_of_mem_words (by decide) word hword⟩
  · intro list hmem
    exact h.of_subset (isInfix_of_mem_attributes list hmem).subset

variable {form : TagForm}

/-- What is true of all words and of the default is true of the last word. -/
theorem getLastD_of_forall {p : Bytes → Prop} {words : List Bytes} {default : Bytes}
    (h : ∀ word ∈ words, p word) (hdefault : p default) : p (words.getLastD default) :=
  List.forall_mem_cons.2 ⟨hdefault, h⟩ _ List.getLastD_mem_cons

private theorem unmarked_quotedAttribute {name value : Bytes} (hname : Unmarked name)
    (hvalue : Unmarked value) : Unmarked (quotedAttribute name value) := by
  unfold quotedAttribute
  split
  · decide
  · have hspace : Unmarked [Byte.space] := by decide
    have hequals : Unmarked (ascii "=\"") := by decide
    have hquote : Unmarked [Byte.quote] := by decide
    simp only [List.cons_append, List.append_assoc]
    rw [unmarked_cons_iff]
    simp only [unmarked_append_iff]
    exact ⟨hspace, hname, hequals, hvalue, hquote⟩

private theorem unmarked_listedAttributes (h : ∀ list ∈ form.attributes, Unmarked list.body)
    (escapeAttributes : Bool) : Unmarked (form.listedAttributes escapeAttributes) := by
  unfold listedAttributes
  split
  · decide
  · next list hlist =>
    have hbody : Unmarked (trim list.body) := (h list hlist).of_subset (trim_subset _)
    have hspace : Unmarked [Byte.space] := by decide
    have hescaped : Unmarked (Attribute.escapeValues (trim list.body)) :=
      Attribute.unmarked_escapeValues hbody
    have hline : ∀ text, Unmarked text →
        Unmarked (if text.isEmpty then [] else Byte.space :: text) := by
      intro text htext
      split
      · decide
      · exact unmarked_cons_iff.2 ⟨hspace, htext⟩
    apply hline
    split
    · exact hescaped
    · exact hbody

private theorem unmarked_name (h : ∀ sigil, ∀ word ∈ form.words sigil, Unmarked word) :
    Unmarked form.name :=
  getLastD_of_forall (h .name) (by decide)

private theorem unmarked_attributeText (h : ∀ sigil, ∀ word ∈ form.words sigil, Unmarked word)
    (hlist : ∀ list ∈ form.attributes, Unmarked list.body) (escapeAttributes : Bool) :
    Unmarked (form.attributeText escapeAttributes) := by
  have hspace : Unmarked [Byte.space] := by decide
  have hclassKey : Unmarked (ascii "class") := by decide
  have hidKey : Unmarked (ascii "id") := by decide
  have hclasses := unmarked_intercalate hspace (h .className)
  have hid := getLastD_of_forall (h .id) unmarked_nil
  simp only [attributeText, unmarked_append_iff]
  exact ⟨⟨unmarked_quotedAttribute hclassKey hclasses, unmarked_quotedAttribute hidKey hid⟩,
    unmarked_listedAttributes hlist escapeAttributes⟩

end TagForm

/-! ## Other constructs -/

private theorem Comment.unmarked_markup {expression : Bytes} (h : Unmarked expression) :
    Unmarked (read expression).markup.opener ∧ Unmarked (read expression).markup.closer := by
  have htext : Unmarked (trim (expression.drop 1)) :=
    (h.of_subset (List.drop_sublist 1 _).subset).of_subset (trim_subset _)
  unfold read
  split
  · decide
  · split
    · decide
    · next c rest hread =>
      rw [hread] at htext
      split
      · simp only [markup, unmarked_append_iff]
        exact ⟨⟨⟨by decide, htext⟩, by decide⟩, by decide⟩
      · simp only [markup, unmarked_append_iff]
        exact ⟨⟨⟨by decide, htext⟩, by decide⟩, by decide⟩

/-- The bytes of declarations: printable ones without the dollar sign. -/
def Doctype.isDeclarationByte (c : UInt8) : Bool :=
  0x20 ≤ c && c != 0x24

private theorem Doctype.all_family (format : Format) :
    ∀ family ∈ family? format, family.transitional.all isDeclarationByte = true
      ∧ ∀ pair ∈ family.named, pair.2.all isDeclarationByte = true := by
  cases format <;> decide +kernel

private theorem Doctype.all_opener (format : Format) (expression : Bytes) :
    (opener format expression).all isDeclarationByte = true := by
  have hplain : plain.all isDeclarationByte = true := by decide
  unfold opener read
  by_cases hprolog : requested expression = ascii "XML"
  · rw [if_pos hprolog]
    simp only []
    split <;> decide
  · rw [if_neg hprolog]
    by_cases hfive : requested expression = ascii "5"
    · rw [if_pos hfive]
      exact hplain
    · rw [if_neg hfive]
      cases hformat : family? format with
      | none => exact hplain
      | some family =>
        rcases all_family format family hformat with ⟨hfallback, hnamed⟩
        cases hlookup : family.named.lookup (requested expression) with
        | none =>
          simp only [hlookup]
          exact hfallback
        | some declaration =>
          rcases List.lookup_eq_some_iff.1 hlookup with ⟨before, after, hpair, -⟩
          simp only [hlookup]
          exact hnamed (requested expression, declaration) (by simp [hpair])

/-- A document type holds only bytes of declarations. -/
theorem Doctype.not_mem_opener {c : UInt8} (hc : isDeclarationByte c = false) (format : Format)
    (expression : Bytes) : c ∉ opener format expression := by
  intro hmem
  have hall := List.all_eq_true.1 (all_opener format expression) c hmem
  rw [hc] at hall
  contradiction

private theorem Doctype.unmarked_opener (format : Format) (expression : Bytes) :
    Unmarked (opener format expression) :=
  ⟨not_mem_opener (by decide) _ _, not_mem_opener (by decide) _ _⟩

/-- Whether a text stands between angle brackets. -/
def Angled (text : Bytes) : Prop :=
  text.head? = some Byte.less ∧ text.getLast? = some Byte.greater

/-- Markup without marks of its own, in angle brackets where blanks are removed round
it. -/
structure Markup.Delimited (markup : Markup) : Prop where
  opener : Unmarked markup.opener
  closer : Unmarked markup.closer
  angled : markup.around = true ∨ markup.inside = true →
    Angled markup.opener ∧ (markup.closer ≠ [] → Angled markup.closer)

/-- The marks round delimited text touch it. -/
theorem marksTouch_marked {left right : Bool} {text rest : Bytes} (h : Unmarked text)
    (hangled : left = true ∨ right = true → Angled text) (hrest : marksTouch none rest = true) :
    marksTouch none (Markup.markIf left leftMark ++ text ++ Markup.markIf right rightMark ++ rest)
      = true := by
  have hmiddle : marksTouch none (text ++ (Markup.markIf right rightMark ++ rest)) = true := by
    cases right with
    | false => exact marksTouch_append h hrest none
    | true => exact marksTouch_append_rightMark h (hangled (.inr rfl)).2 hrest none
  rw [List.append_assoc, List.append_assoc]
  cases left with
  | false => exact hmiddle
  | true =>
    have hstart : (text ++ (Markup.markIf right rightMark ++ rest)).head? = some Byte.less := by
      rw [List.head?_append, (hangled (.inl rfl)).1]
      rfl
    exact marksTouch_leftMark_cons hmiddle hstart

/-! ## Static nodes -/

private theorem angled_append {start last : Bytes} (hstart : start.head? = some Byte.less)
    (hlast : last.getLast? = some Byte.greater) : Angled (start ++ last) := by
  constructor
  · rw [List.head?_append, hstart]
    rfl
  · rw [List.getLast?_append, hlast]
    rfl

/-- Tags stand between angle brackets. -/
theorem TagForm.angled_markup (form : TagForm) (options : Options) :
    Angled (form.markup options).opener
      ∧ ((form.markup options).closer ≠ [] → Angled (form.markup options).closer) := by
  constructor
  · simp only [markup]
    split
    · exact angled_append rfl (by decide)
    · exact angled_append rfl (by decide)
  · intro hcloser
    simp only [markup] at hcloser ⊢
    split at hcloser
    · exact absurd rfl hcloser
    · next hself =>
      rw [if_neg hself]
      exact angled_append (by rfl) (by decide)

/-- The markup of a tag without marks is delimited. -/
theorem TagForm.delimited_markup {tag : Bytes} (h : Unmarked tag) (options : Options) :
    ((read tag).markup options).Delimited := by
  rcases unmarked_read h with ⟨hwords, hlist⟩
  have hname : Unmarked ((read tag).element options).name := unmarked_name hwords
  have hattributes : Unmarked ((read tag).element options).attributes :=
    unmarked_attributeText hwords hlist options.escapeAttributes
  have hless : Unmarked [Byte.less] := by decide
  have hstart : Unmarked (Byte.less :: ((read tag).element options).name
      ++ ((read tag).element options).attributes) :=
    unmarked_append_iff.2 ⟨unmarked_cons_iff.2 ⟨hless, hname⟩, hattributes⟩
  refine ⟨?_, ?_, fun _ => angled_markup (read tag) options⟩
  · simp only [markup]
    split
    · exact unmarked_append_iff.2 ⟨hstart, by decide⟩
    · exact unmarked_append_iff.2 ⟨hstart, by decide⟩
  · simp only [markup]
    split
    · decide
    · simp only [unmarked_append_iff]
      exact ⟨⟨by decide, hname⟩, by decide⟩

/-- Markup without marks of its own is delimited where no blanks are removed. -/
theorem Markup.Delimited.of_plain {markup : Markup} (hopener : Unmarked markup.opener)
    (hcloser : Unmarked markup.closer) (haround : markup.around = false)
    (hinside : markup.inside = false) : markup.Delimited :=
  ⟨hopener, hcloser, by simp [haround, hinside]⟩

/-- The markup of a static node is delimited. -/
theorem Node.IsStatic.delimited {node : Node} (h : node.IsStatic)
    (hexpression : Unmarked node.directive.expression) : node.markup.Delimited := by
  rw [h.markup_eq]
  rcases h.kind_cases with hnode | hnode | hnode | hnode | hnode
  · simp only [Directive.reading, hnode]
    exact .of_plain unmarked_nil unmarked_nil rfl rfl
  · simp only [Directive.reading, hnode]
    exact .of_plain hexpression unmarked_nil rfl rfl
  · simp only [Directive.reading, hnode]
    exact TagForm.delimited_markup hexpression node.directive.options
  · simp only [Directive.reading, hnode]
    rcases Comment.unmarked_markup hexpression with ⟨hopener, hcloser⟩
    refine .of_plain hopener hcloser ?_ ?_
    · cases Comment.read node.directive.expression <;> rfl
    · cases Comment.read node.directive.expression <;> rfl
  · simp only [Directive.reading, hnode]
    exact .of_plain (Doctype.unmarked_opener _ _) unmarked_nil rfl rfl

namespace Markup.Delimited

variable {markup : Markup} {rest : Bytes}

/-- The marks of an opener touch it. -/
theorem opening_append (h : markup.Delimited) (hrest : marksTouch none rest = true) :
    marksTouch none (markup.opening ++ rest) = true :=
  marksTouch_marked h.opener (fun hmarked => (h.angled hmarked).1) hrest

/-- The marks of a closer touch it. -/
theorem closing_append (h : markup.Delimited) (hcloser : markup.closer ≠ [])
    (hrest : marksTouch none rest = true) : marksTouch none (markup.closing ++ rest) = true :=
  marksTouch_marked h.closer (fun hmarked => (h.angled hmarked.symm).2 hcloser) hrest

end Markup.Delimited

end TemplateCompiler
