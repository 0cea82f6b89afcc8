import Mathlib.Data.List.TakeWhile
import TemplateCompiler.Proofs.Template.QuotedValues
import TemplateCompiler.Workspace

/-!
# Tags as they are written

A tag is written as components in any order, perhaps an attribute list, and modifiers.  The
same byte may belong to a component, to the list or to the modifiers, so reading a tag has to
end each part where it was meant to end.

Main results:

- Theorem {lit}`WrittenTag.read_source_append`: a tag is read back part by part.
- Theorem {lit}`WrittenTag.means_form`: what the parts mean.
- Theorem {lit}`WrittenTag.build_source`: a node that is made of a written tag means what
  the parts of the tag say, and there is no warning unless there is no component.
-/

namespace TemplateCompiler

/-- The text of a component. -/
def Component.source (component : Component) : Bytes :=
  component.sigil.marker :: component.word

/-- The parts of a tag that is written without a fault. -/
structure WrittenTag where
  components : List Component
  /-- What is between the parentheses of the attribute list. -/
  body : Option Bytes
  /-- The modifiers and the blanks among them. -/
  modifiers : Bytes
  words : ∀ component ∈ components,
    component.word ≠ [] ∧ ∀ c ∈ component.word, isNameByte c = true
  body_open : ∀ text ∈ body, Byte.closeParen ∉ text
  modifiers_only : ∀ c ∈ modifiers, c ∈ ascii "></ \t\r\n"

namespace WrittenTag

/-- The text of the attribute list. -/
def listSource (tag : WrittenTag) : Bytes :=
  match tag.body with
  | none => []
  | some body => Byte.openParen :: body ++ [Byte.closeParen]

/-- The text of a tag. -/
def source (tag : WrittenTag) : Bytes :=
  tag.components.flatMap Component.source ++ tag.listSource ++ tag.modifiers

end WrittenTag

/-- A node that is made of a tag has what was read of the tag. -/
theorem Workspace.build_element (workspace : Workspace) (text : Bytes) (position : Position)
    (parent : Option Nat) :
    let options := workspace.session.options
    let form := TagForm.read text
    let node := Node.build (workspace.session.directive .element text position)
    ∃ built, workspace.build .element text position parent
          = ⟨(form.warnings text).map .warning, .ok built⟩
      ∧ built.store.cell? workspace.store.size = some { node, parent }
      ∧ node.reading
        = { markup := form.markup options, detail := .element (form.element options) } := by
  rcases workspace.build_cell .element text position parent with ⟨built, hbuilt, hcell⟩
  exact ⟨built, hbuilt, hcell, rfl⟩

/-! ## Reading the parts -/

namespace TagForm

private theorem ofMarker?_marker (sigil : Sigil) : Sigil.ofMarker? sigil.marker = some sigil := by
  cases sigil <;> rfl

private theorem isNameByte_marker (sigil : Sigil) : isNameByte sigil.marker = false := by
  cases sigil <;> rfl

/-- A byte that can follow the components of a tag. -/
def endsComponents (c : UInt8) : Bool :=
  !isNameByte c && (Sigil.ofMarker? c).isNone

/-- Components are read up to the first byte that belongs to none. -/
theorem readComponents_append {components : List Component} {rest : Bytes}
    (hwords : ∀ component ∈ components, ∀ c ∈ component.word, isNameByte c = true)
    (hrest : ∀ c, rest.head? = some c → endsComponents c = true) :
    readComponents (components.flatMap Component.source ++ rest) = (components, rest) := by
  induction components with
  | nil =>
    cases rest with
    | nil => rw [List.flatMap_nil, List.append_nil, readComponents]
    | cons c rest =>
      have hc := hrest c rfl
      rw [endsComponents, Bool.and_eq_true, Option.isNone_iff_eq_none] at hc
      rw [List.flatMap_nil, List.nil_append, readComponents, hc.2]
  | cons component components ih =>
    rw [List.forall_mem_cons] at hwords
    have hstop : ∀ c, (components.flatMap Component.source ++ rest).head? = some c →
        isNameByte c = false := by
      intro c hc
      cases components with
      | nil =>
        have hends := hrest c hc
        rw [endsComponents, Bool.and_eq_true] at hends
        simpa using hends.1
      | cons next more =>
        rcases Option.some.inj hc with rfl
        exact isNameByte_marker next.sigil
    rw [List.flatMap_cons, List.append_assoc, Component.source, List.cons_append, readComponents,
      ofMarker?_marker, takeWhile_append_of_stop hwords.1 hstop,
      dropWhile_append_of_stop hwords.1 hstop, ih hwords.2]

private theorem skipHash_of_head {text : Bytes} (h : text.head? ≠ some Byte.openBrace) :
    skipHash text = (false, text) := by
  cases text with
  | nil => rfl
  | cons c rest =>
    have hc : c ≠ Byte.openBrace := by simpa using h
    rw [skipHash, if_neg hc]

private theorem readAttributes_list {body : Bytes} (hbody : Byte.closeParen ∉ body) (rest : Bytes) :
    readAttributes (Byte.openParen :: body ++ Byte.closeParen :: rest)
      = (some ⟨body, true⟩, rest) := by
  have hstop : ∀ c, (Byte.closeParen :: rest).head? = some c → (c != Byte.closeParen) = false := by
    simp
  rw [List.cons_append, readAttributes, if_pos rfl,
    takeWhile_append_of_stop (bne_of_not_mem hbody) hstop,
    dropWhile_append_of_stop (bne_of_not_mem hbody) hstop]
  simp

private theorem readAttributes_of_head {text : Bytes} (h : text.head? ≠ some Byte.openParen) :
    readAttributes text = (none, text) := by
  cases text with
  | nil => rfl
  | cons c rest =>
    have hc : c ≠ Byte.openParen := by simpa using h
    rw [readAttributes, if_neg hc]

/-- A tag without a hash is read by its components, its attribute list and what is behind. -/
theorem read_of_parts {text behind after : Bytes} {components : List Component}
    {attributes : Option AttributeList} (hcomponents : readComponents text = (components, behind))
    (hhash : behind.head? ≠ some Byte.openBrace)
    (hattributes : readAttributes behind = (attributes, after)) :
    read text = { components, hasHash := false, attributes
                  modifiers := after.takeWhile isModifierByte
                  stray := (after.dropWhile isModifierByte).head? } := by
  rw [read, hcomponents]
  simp only [skipHash_of_head hhash, hattributes]

end TagForm

namespace WrittenTag

variable (tag : WrittenTag)

/-- The bytes of modifiers belong to no other part of a tag. -/
theorem modifier_cases {c : UInt8} (h : c ∈ ascii "></ \t\r\n") :
    isModifierByte c = true ∧ TagForm.endsComponents c = true ∧ c ≠ Byte.openBrace
      ∧ c ≠ Byte.openParen := by
  have hall : ((ascii "></ \t\r\n").all fun c => isModifierByte c && TagForm.endsComponents c
      && c != Byte.openBrace && c != Byte.openParen) = true := by
    decide
  simpa [and_assoc] using List.all_eq_true.1 hall c h

/-- The bytes that modifiers are made of. -/
theorem mem_of_isModifierByte {c : UInt8} (h : isModifierByte c = true) :
    c ∈ ascii "></ \t\r\n" := by
  have hparts : c ∈ ascii "></" ∨ c = Byte.space ∨ c = Byte.tab ∨ c = Byte.lineFeed
      ∨ c = Byte.carriageReturn := by
    simpa [isModifierByte, isBlank, or_assoc] using h
  rcases hparts with hmodifier | rfl | rfl | rfl | rfl
  · exact (by decide : ascii "></" ⊆ ascii "></ \t\r\n") hmodifier
  · decide
  · decide
  · decide
  · decide

/-- What is read of a tag, with the byte behind it that is no modifier. -/
def form (stray : Option UInt8) : TagForm where
  components := tag.components
  hasHash := false
  attributes := tag.body.map fun body => ⟨body, true⟩
  modifiers := tag.modifiers
  stray := stray

section

variable {rest : Bytes} (hlist : tag.body = none → rest = [])

include hlist

/-- What stands behind the components starts neither with a component nor with a hash. -/
theorem behind_components {c : UInt8}
    (hc : (tag.listSource ++ (tag.modifiers ++ rest)).head? = some c) :
    TagForm.endsComponents c = true ∧ c ≠ Byte.openBrace := by
  cases hbody : tag.body with
  | none =>
    rw [listSource, hbody, hlist hbody, List.append_nil, List.nil_append] at hc
    rcases modifier_cases (tag.modifiers_only c (List.mem_of_head? hc)) with ⟨-, hends, hne, -⟩
    exact ⟨hends, hne⟩
  | some body =>
    rw [listSource, hbody] at hc
    rcases Option.some.inj hc with rfl
    decide

/-- The attribute list of a written tag is read back. -/
theorem readAttributes_behind :
    TagForm.readAttributes (tag.listSource ++ (tag.modifiers ++ rest))
      = (tag.body.map fun body => ⟨body, true⟩, tag.modifiers ++ rest) := by
  cases hbody : tag.body with
  | none =>
    have hhead : tag.modifiers.head? ≠ some Byte.openParen := by
      intro hc
      exact (modifier_cases (tag.modifiers_only _ (List.mem_of_head? hc))).2.2.2 rfl
    rw [listSource, hbody, hlist hbody, List.append_nil, List.nil_append]
    exact TagForm.readAttributes_of_head hhead
  | some body =>
    rw [listSource, hbody]
    simp only [List.append_assoc, List.singleton_append]
    exact TagForm.readAttributes_list (tag.body_open body hbody) _

/-- A tag is read back part by part. -/
theorem read_source_append (hrest : ∀ c, rest.head? = some c → isModifierByte c = false) :
    TagForm.read (tag.source ++ rest) = tag.form rest.head? := by
  have hmodifiers : ∀ c ∈ tag.modifiers, isModifierByte c = true :=
    fun c hc => (modifier_cases (tag.modifiers_only c hc)).1
  have hwords : ∀ component ∈ tag.components, ∀ c ∈ component.word, isNameByte c = true :=
    fun component hmem => (tag.words component hmem).2
  have hcomponents := TagForm.readComponents_append hwords
    fun _ hc => (tag.behind_components hlist hc).1
  have hhash : (tag.listSource ++ (tag.modifiers ++ rest)).head? ≠ some Byte.openBrace :=
    fun hc => (tag.behind_components hlist hc).2 rfl
  have hread := TagForm.read_of_parts hcomponents hhash (tag.readAttributes_behind hlist)
  rw [takeWhile_append_of_stop hmodifiers hrest, dropWhile_append_of_stop hmodifiers hrest] at hread
  rw [source, List.append_assoc, List.append_assoc]
  exact hread

end

/-! ## What the parts mean -/

/-- The names, classes or ids of a tag, in order. -/
def wordsOf (sigil : Sigil) : List Bytes :=
  (tag.components.filter fun component => component.sigil == sigil).map Component.word

/-- The attributes of a tag: its classes, its last id, and its attribute list without the
blanks round it, where there are any. -/
def attributeParts (escapeAttributes : Bool) : List Bytes :=
  (if tag.wordsOf .className = [] then []
    else [ascii "class=\"" ++ [Byte.space].intercalate (tag.wordsOf .className) ++ [Byte.quote]])
  ++ ((tag.wordsOf .id).getLast?.toList.map fun id => ascii "id=\"" ++ id ++ [Byte.quote])
  ++ ((tag.body.toList.map trim).filter (· ≠ [])).map fun text =>
    if escapeAttributes then Attribute.escapeValues text else text

/-- What a tag means: every component, attribute and modifier is in its place. -/
structure Means (options : Options) (element : Element) (markup : Markup) : Prop where
  name : element.name = (tag.wordsOf .name).getLastD (ascii "div")
  attributes : element.attributes
    = (tag.attributeParts options.escapeAttributes).flatMap fun part => Byte.space :: part
  selfClosing : element.selfClosing = true ↔ Byte.slash ∈ tag.modifiers
    ∨ element.name ∈ (fields Byte.comma options.selfCloseTags).map trim
  opener : markup.opener = Byte.less :: element.name ++ element.attributes
    ++ if element.selfClosing && options.format == .xhtml then ascii " />" else ascii ">"
  closer : markup.closer
    = if element.selfClosing then [] else ascii "</" ++ element.name ++ ascii ">"
  around : markup.around = true ↔ Byte.greater ∈ tag.modifiers
  inside : markup.inside = true ↔ Byte.less ∈ tag.modifiers
  preserve : markup.preserve = true
    ↔ element.name ∈ (fields Byte.comma options.preserveTags).map trim
  silent : markup.silent = false

/-- The words of a written tag are read back. -/
theorem words_form (stray : Option UInt8) (sigil : Sigil) :
    (tag.form stray).words sigil = tag.wordsOf sigil := by
  have hfilter : tag.components.filter
        (fun component => component.sigil == sigil && !component.word.isEmpty)
      = tag.components.filter fun component => component.sigil == sigil := by
    apply List.filter_congr
    intro component hmem
    simp [(tag.words component hmem).1]
  rw [TagForm.words, form, hfilter, wordsOf]

private theorem wordsOf_ne_nil {sigil : Sigil} {word : Bytes} (h : word ∈ tag.wordsOf sigil) :
    word ≠ [] := by
  rcases List.mem_map.1 h with ⟨component, hmem, rfl⟩
  exact (tag.words component (List.mem_filter.1 hmem).1).1

private theorem intercalate_ne_nil {separator : Bytes} {words : List Bytes} (hne : words ≠ [])
    (h : ∀ word ∈ words, word ≠ []) : separator.intercalate words ≠ [] := by
  rcases List.exists_cons_of_ne_nil hne with ⟨word, rest, rfl⟩
  have hword := h word List.mem_cons_self
  cases rest <;> simp [List.intercalate, hword]

private theorem quotedAttribute_of_ne_nil (name : Bytes) {value : Bytes} (h : value ≠ []) :
    TagForm.quotedAttribute name value
      = Byte.space :: (name ++ ascii "=\"" ++ value ++ [Byte.quote]) := by
  rw [TagForm.quotedAttribute, if_neg (by simpa using h)]
  rfl

private theorem classes_form (stray : Option UInt8) :
    TagForm.quotedAttribute (ascii "class")
        ([Byte.space].intercalate ((tag.form stray).words .className))
      = (if tag.wordsOf .className = [] then []
          else [ascii "class=\"" ++ [Byte.space].intercalate (tag.wordsOf .className)
            ++ [Byte.quote]]).flatMap fun part => Byte.space :: part := by
  rw [words_form]
  by_cases hclasses : tag.wordsOf .className = []
  · rw [hclasses, if_pos rfl]
    rfl
  · have hvalue : [Byte.space].intercalate (tag.wordsOf .className) ≠ [] :=
      intercalate_ne_nil hclasses fun word => tag.wordsOf_ne_nil
    rw [if_neg hclasses, quotedAttribute_of_ne_nil _ hvalue, List.flatMap_singleton]
    rfl

private theorem id_form (stray : Option UInt8) :
    TagForm.quotedAttribute (ascii "id") (((tag.form stray).words .id).getLastD [])
      = ((tag.wordsOf .id).getLast?.toList.map fun id =>
          ascii "id=\"" ++ id ++ [Byte.quote]).flatMap fun part => Byte.space :: part := by
  rw [words_form, List.getLastD_eq_getLast?]
  cases hid : (tag.wordsOf .id).getLast? with
  | none => rfl
  | some id =>
    have hvalue := tag.wordsOf_ne_nil (List.mem_of_getLast? hid)
    rw [Option.getD_some, quotedAttribute_of_ne_nil _ hvalue, Option.toList_some,
      List.map_singleton, List.flatMap_singleton]
    rfl

private theorem list_form (stray : Option UInt8) (escapeAttributes : Bool) :
    (tag.form stray).listedAttributes escapeAttributes
      = (((tag.body.toList.map trim).filter (· ≠ [])).map fun text =>
          if escapeAttributes then Attribute.escapeValues text else text).flatMap
            fun part => Byte.space :: part := by
  cases hbody : tag.body with
  | none => simp [TagForm.listedAttributes, form, hbody]
  | some body =>
    have htext : (if escapeAttributes then Attribute.escapeValues (trim body) else trim body) = []
        ↔ trim body = [] := by
      split
      · exact Attribute.escapeValues_eq_nil_iff
      · exact Iff.rfl
    rw [TagForm.listedAttributes, form, hbody]
    simp only [Option.map_some, List.isEmpty_iff, htext, Option.toList_some, List.map_singleton]
    by_cases hempty : trim body = []
    · rw [if_pos hempty, hempty]
      rfl
    · rw [if_neg hempty, List.filter_cons_of_pos (by simpa using hempty), List.filter_nil,
        List.map_singleton, List.flatMap_singleton]

/-- The attributes of a written tag are its parts, each behind a space. -/
theorem attributeText_form (stray : Option UInt8) (escapeAttributes : Bool) :
    (tag.form stray).attributeText escapeAttributes
      = (tag.attributeParts escapeAttributes).flatMap fun part => Byte.space :: part := by
  rw [TagForm.attributeText, classes_form, id_form, list_form, attributeParts, List.flatMap_append,
    List.flatMap_append]

private theorem mem_entries_iff (list item : Bytes) :
    listContains list item = true ↔ item ∈ (fields Byte.comma list).map trim := by
  simp [listContains]

/-- What the form of a written tag means. -/
theorem means_form (stray : Option UInt8) (options : Options) :
    tag.Means options ((tag.form stray).element options) ((tag.form stray).markup options) where
  name := by rw [TagForm.element, TagForm.name, words_form]
  attributes := tag.attributeText_form stray options.escapeAttributes
  selfClosing := by
    simp [TagForm.element, TagForm.hasModifier, form, mem_entries_iff]
  opener := by
    rw [TagForm.markup]
    split <;> rfl
  closer := rfl
  around := List.contains_iff_mem
  inside := List.contains_iff_mem
  preserve := mem_entries_iff _ _
  silent := rfl

private theorem warnings_form (stray : Option UInt8) (text : Bytes) :
    (tag.form stray).warnings text
      = (stray.toList.map fun c => .unknownModifier c text)
        ++ if tag.components = [] then [.namelessTag text] else [] := by
  have hempty : tag.components.filter (fun component => component.word.isEmpty) = [] := by
    rw [List.filter_eq_nil_iff]
    intro component hmem
    simpa using (tag.words component hmem).1
  have hnameless : (tag.form stray).isNameless = true ↔ tag.components = [] := by
    rw [TagForm.isNameless, form, List.all_eq_true, List.eq_nil_iff_forall_not_mem]
    refine forall₂_congr fun component hmem => ?_
    simp [(tag.words component hmem).1]
  have hclosed : (tag.form stray).isUnterminated = false := by
    rw [TagForm.isUnterminated, form]
    cases tag.body <;> rfl
  rw [TagForm.warnings, hclosed]
  simp only [hnameless]
  simp [form, hempty]

/-! ## Nodes of written tags -/

/-- What is read of a written tag, perhaps with text behind it that starts with a byte that is
no modifier. -/
theorem means_read {rest : Bytes} (hlist : tag.body = none → rest = [])
    (hrest : ∀ c, rest.head? = some c → isModifierByte c = false) (options : Options) :
    let text := tag.source ++ rest
    let form := TagForm.read text
    form.warnings text = (rest.head?.toList.map fun c => Warning.unknownModifier c text)
        ++ (if tag.components = [] then [Warning.namelessTag text] else [])
      ∧ tag.Means options (form.element options) (form.markup options) := by
  intro text form
  have hform : form = tag.form rest.head? := tag.read_source_append hlist hrest
  rw [hform]
  exact ⟨tag.warnings_form _ _, tag.means_form _ _⟩

/-- A node that is made of a written tag means what the parts of the tag say, and there is
no warning unless the tag has no component. -/
theorem build_source (workspace : Workspace) (position : Position) (parent : Option Nat) :
    ∃ built node element markup,
      workspace.build .element tag.source position parent
          = ⟨if tag.components = [] then [.warning (.namelessTag tag.source)] else [], .ok built⟩
        ∧ built.store.cell? workspace.store.size = some { node, parent }
        ∧ node.reading = { markup, detail := .element element }
        ∧ tag.Means workspace.session.options element markup := by
  rcases workspace.build_element tag.source position parent with ⟨built, hbuilt, hcell, hreading⟩
  rcases tag.means_read (fun _ => rfl) (by simp) workspace.session.options
    with ⟨hwarnings, hmeans⟩
  rw [List.append_nil] at hwarnings hmeans
  refine ⟨built, _, _, _, ?_, hcell, hreading, hmeans⟩
  rw [hbuilt, hwarnings]
  split <;> rfl

/-- A tag with every part: its classes stand round the name, the last of two ids counts, and
the list holds bytes that are modifiers elsewhere. -/
theorem build_source_of_all_parts :
    ∃ built node, ({} : Workspace).build .element
          (ascii ".a%p#x.b#y( title='1 < 2/#%' ) >") {} none = ⟨[], .ok built⟩
      ∧ built.store.cell? 0 = some { node, parent := none }
      ∧ node.markup.opener = ascii "<p class=\"a b\" id=\"y\" title='1 &lt; 2/#%'>"
      ∧ node.markup.around = true := by
  let tag : WrittenTag :=
    { components := [⟨.className, ascii "a"⟩, ⟨.name, ascii "p"⟩, ⟨.id, ascii "x"⟩,
        ⟨.className, ascii "b"⟩, ⟨.id, ascii "y"⟩]
      body := some (ascii " title='1 < 2/#%' ")
      modifiers := ascii " >"
      words := by decide +kernel
      body_open := by decide
      modifiers_only := (by decide : ascii " >" ⊆ ascii "></ \t\r\n") }
  rcases tag.build_source {} {} none
    with ⟨built, node, element, markup, hbuilt, hcell, hreading, hmeans⟩
  have hmarkup : node.markup = markup := by rw [Node.markup, hreading]
  have hself : element.selfClosing = false := by
    rw [Bool.eq_false_iff, ne_eq, hmeans.selfClosing, hmeans.name]
    decide +kernel
  refine ⟨built, node, hbuilt, hcell, ?_, ?_⟩
  · rw [hmarkup, hmeans.opener, hmeans.name, hmeans.attributes, hself]
    decide +kernel
  · rw [hmarkup]
    exact hmeans.around.2 (by decide)

end WrittenTag

end TemplateCompiler
