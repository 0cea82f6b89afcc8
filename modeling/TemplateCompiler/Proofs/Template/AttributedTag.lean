import TemplateCompiler.Proofs.Template.Delimited
import TemplateCompiler.Proofs.Template.WrittenTag

/-!
# Tags with quoted attributes

A tag is written as a name, a list of attributes with quoted values, and modifiers.  The end of
the list is the first closing parenthesis, and it is looked for without regard to quotes.  So the
list is kept whole where no value holds a closing parenthesis, and otherwise it ends inside the
first value that does.

Main results:

- Theorem {lit}`QuotedAttribute.escapeValues_join`: attributes are escaped value by value.
- Theorem {lit}`AttributedTag.whole_or_cut`: no value holds a closing parenthesis, or there is
  a first one.
- Theorem {lit}`AttributedTag.read_whole`: without one, a tag is read as it is written.
- Theorem {lit}`AttributedTag.read_cut`: with one, a tag is read as if it were cut there.
- Theorem {lit}`AttributedTag.build_whole_or_cut`: what a node of such a tag means in both
  cases.
-/

namespace TemplateCompiler

/-! ## Attributes -/

/-- An attribute with a value in quotes. -/
structure QuotedAttribute where
  name : Bytes
  quote : UInt8
  value : Bytes
  name_bytes : ∀ c ∈ name, isNameByte c = true
  quote_kind : quote = Byte.quote ∨ quote = Byte.apostrophe
  value_open : quote ∉ value

namespace QuotedAttribute

variable (item : QuotedAttribute)

/-- What stands in front of the value. -/
def start : Bytes :=
  item.name ++ ascii "=" ++ [item.quote]

/-- The attribute as it is written or, with its value escaped, as it is printed. -/
def text (escapeAttributes : Bool) : Bytes :=
  item.start
    ++ (if escapeAttributes then Attribute.escape item.value else item.value)
    ++ [item.quote]

private theorem plain_of_isNameByte {c : UInt8} (h : isNameByte c = true) :
    isBlank c = false ∧ ¬(c = Byte.quote ∨ c = Byte.apostrophe) ∧ c ≠ Byte.closeParen := by
  simp [isBlank, ne_of_isNameByte h Byte.space (by decide),
    ne_of_isNameByte h Byte.tab (by decide), ne_of_isNameByte h Byte.lineFeed (by decide),
    ne_of_isNameByte h Byte.carriageReturn (by decide), ne_of_isNameByte h Byte.quote (by decide),
    ne_of_isNameByte h Byte.apostrophe (by decide),
    ne_of_isNameByte h Byte.closeParen (by decide)]

private theorem isBlank_quote : isBlank item.quote = false := by
  rcases item.quote_kind with h | h <;> rw [h] <;> decide

private theorem isModifierByte_quote : isModifierByte item.quote = false := by
  rcases item.quote_kind with h | h <;> rw [h] <;> decide

private theorem closeParen_ne_quote : Byte.closeParen ≠ item.quote := by
  rcases item.quote_kind with h | h <;> rw [h] <;> decide

private theorem closeParen_not_mem_start : Byte.closeParen ∉ item.start := by
  have hname : Byte.closeParen ∉ item.name :=
    fun hmem => (plain_of_isNameByte (item.name_bytes _ hmem)).2.2 rfl
  have hequals : Byte.closeParen ∉ ascii "=" := by decide
  simp [start, hname, item.closeParen_ne_quote, hequals]

private theorem head?_start {c : UInt8} {rest : Bytes} (h : (item.start ++ rest).head? = some c) :
    isBlank c = false := by
  cases hname : item.name with
  | nil =>
    rw [start, hname] at h
    rcases Option.some.inj h with rfl
    decide
  | cons d more =>
    rw [start, hname] at h
    rcases Option.some.inj h with rfl
    exact (plain_of_isNameByte (item.name_bytes d (by simp [hname]))).1

private theorem escapeValues_start_append (rest : Bytes) :
    Attribute.escapeValues (item.start ++ rest)
      = item.name ++ ascii "=" ++ Attribute.escapeValues (item.quote :: rest) := by
  have hplain : ∀ c ∈ item.name ++ ascii "=", ¬(c = Byte.quote ∨ c = Byte.apostrophe) := by
    intro c hc
    rcases List.mem_append.1 hc with hname | hequals
    · exact (plain_of_isNameByte (item.name_bytes c hname)).2.1
    · rcases List.mem_singleton.1 hequals with rfl
      decide
  rw [start, List.append_assoc, Attribute.escapeValues_outside_append hplain]
  rfl

/-- An attribute is escaped on its own. -/
theorem escapeValues_text_append (rest : Bytes) :
    Attribute.escapeValues (item.text false ++ rest)
      = item.text true ++ Attribute.escapeValues rest := by
  have hclosed := Attribute.escapeValues_closed_append item.quote_kind item.value_open rest
  have htext : item.text false ++ rest
      = item.start ++ (item.value ++ item.quote :: rest) := by
    simp [text]
  rw [htext, escapeValues_start_append, ← List.cons_append, hclosed]
  simp [text, start]

/-- Of an attribute without its closing quote, all behind the opening one is value. -/
theorem escapeValues_start_of_open {inner : Bytes} (h : item.quote ∉ inner) :
    Attribute.escapeValues (item.start ++ inner) = item.start ++ Attribute.escape inner := by
  rw [escapeValues_start_append, Attribute.escapeValues_unclosed item.quote_kind h]
  simp [start]

/-! ## Lists of attributes -/

/-- Attributes and a last text, with a space between them. -/
def join (items : List QuotedAttribute) (escapeAttributes : Bool) (last : Bytes) : Bytes :=
  [Byte.space].intercalate (items.map (·.text escapeAttributes) ++ [last])

private theorem join_eq (items : List QuotedAttribute) (escapeAttributes : Bool) (last : Bytes) :
    join items escapeAttributes last
      = items.flatMap (fun item => item.text escapeAttributes ++ [Byte.space]) ++ last := by
  rw [join, intercalate_append_cons, List.flatMap_map]
  simp

/-- Attributes are escaped value by value. -/
theorem escapeValues_join (items : List QuotedAttribute) (last : Bytes) :
    Attribute.escapeValues (join items false last)
      = join items true (Attribute.escapeValues last) := by
  have hspace : ∀ c ∈ [Byte.space], ¬(c = Byte.quote ∨ c = Byte.apostrophe) :=
    List.forall_mem_singleton.2 (by decide)
  rw [join_eq, join_eq]
  induction items with
  | nil => rfl
  | cons item items ih =>
    rw [List.flatMap_cons, List.flatMap_cons, List.append_assoc, List.append_assoc,
      escapeValues_text_append, List.append_assoc, Attribute.escapeValues_outside_append hspace, ih]
    simp

/-- The blanks at the end of a list are those at the end of its last value. -/
theorem trim_join (items : List QuotedAttribute) (rest : Bytes) :
    trim (join items false (item.start ++ rest))
      = join items false (item.start ++ trimEnd rest) := by
  have hhead : ∀ c, (join items false (item.start ++ rest)).head? = some c →
      isBlank c = false := by
    intro c hc
    rw [join_eq] at hc
    cases items with
    | nil => exact item.head?_start hc
    | cons first items =>
      simp only [List.flatMap_cons, text, List.append_assoc] at hc
      exact first.head?_start hc
  have hsplit : ∀ tail, join items false (item.start ++ tail)
      = (items.flatMap (fun item => item.text false ++ [Byte.space])
          ++ (item.name ++ ascii "=")) ++ item.quote :: tail := by
    intro tail
    rw [join_eq, start]
    simp
  rw [trim, trimStart_of_head hhead, hsplit, trimEnd_append_cons item.isBlank_quote, ← hsplit]

private theorem join_start_ne_nil (items : List QuotedAttribute) (rest : Bytes) :
    join items false (item.start ++ rest) ≠ [] := by
  simp [join_eq, start]

private theorem closeParen_not_mem_text (h : Byte.closeParen ∉ item.value) :
    Byte.closeParen ∉ item.text false := by
  simp [text, closeParen_not_mem_start, h, item.closeParen_ne_quote]

private theorem closeParen_not_mem_join {items : List QuotedAttribute}
    (h : ∀ item ∈ items, Byte.closeParen ∉ item.value) {last : Bytes}
    (hlast : Byte.closeParen ∉ last) : Byte.closeParen ∉ join items false last := by
  rw [join_eq, List.mem_append, not_or]
  refine ⟨fun hmem => ?_, hlast⟩
  rcases List.mem_flatMap.1 hmem with ⟨item, hitem, hparen⟩
  have hspace : Byte.closeParen ≠ Byte.space := by decide
  simp [item.closeParen_not_mem_text (h item hitem), hspace] at hparen

end QuotedAttribute

/-- A tag with a name, quoted attributes and modifiers. -/
structure AttributedTag where
  name : Bytes
  attributes : List QuotedAttribute
  modifiers : Bytes
  name_ne_nil : name ≠ []
  name_bytes : ∀ c ∈ name, isNameByte c = true
  attributes_ne_nil : attributes ≠ []
  modifiers_only : ∀ c ∈ modifiers, c ∈ ascii "></"

namespace AttributedTag

open QuotedAttribute

/-- The attributes, with a space between them. -/
def list (tag : AttributedTag) (escapeAttributes : Bool) : Bytes :=
  [Byte.space].intercalate (tag.attributes.map (·.text escapeAttributes))

/-- The text of the tag. -/
def source (tag : AttributedTag) : Bytes :=
  Byte.percent :: tag.name ++ Byte.openParen :: tag.list false ++ Byte.closeParen :: tag.modifiers

/-- The place of the first closing parenthesis in the values of a tag. -/
structure Cut (tag : AttributedTag) where
  /-- The attributes before the one with the parenthesis. -/
  first : List QuotedAttribute
  item : QuotedAttribute
  last : List QuotedAttribute
  /-- The value before the parenthesis. -/
  inner : Bytes
  /-- The value behind the parenthesis. -/
  behind : Bytes
  attributes_eq : tag.attributes = first ++ item :: last
  value_eq : item.value = inner ++ Byte.closeParen :: behind
  first_open : ∀ other ∈ first, Byte.closeParen ∉ other.value
  inner_open : Byte.closeParen ∉ inner

/-- No value holds a closing parenthesis, or there is a first one. -/
theorem whole_or_cut (tag : AttributedTag) :
    (∀ item ∈ tag.attributes, Byte.closeParen ∉ item.value) ∨ Nonempty tag.Cut := by
  cases hfind : tag.attributes.find? fun item => item.value.contains Byte.closeParen with
  | none =>
    left
    intro item hmem hparen
    have hnone := List.find?_eq_none.1 hfind item hmem
    simp [hparen] at hnone
  | some item =>
    right
    rcases List.find?_eq_some_iff_append.1 hfind with ⟨hparen, first, last, hattributes, hfirst⟩
    rcases List.eq_append_cons_of_mem (List.contains_iff_mem.1 hparen)
      with ⟨inner, behind, hvalue, hinner⟩
    refine ⟨first, item, last, inner, behind, hattributes, hvalue, ?_, hinner⟩
    intro other hmem
    simpa using hfirst other hmem

namespace Cut

variable {tag : AttributedTag} (cut : tag.Cut)

/-- The list up to the parenthesis, as it is written. -/
def body : Bytes :=
  join cut.first false (cut.item.start ++ cut.inner)

/-- The attributes that are left of the list: the last one ends at the parenthesis, without
the blanks before it and without its closing quote. -/
def list (escapeAttributes : Bool) : Bytes :=
  let inner := trimEnd cut.inner
  join cut.first escapeAttributes
    (cut.item.start ++ if escapeAttributes then Attribute.escape inner else inner)

/-- What is taken for modifiers: the bytes of modifiers behind the parenthesis. -/
def modifiers : Bytes :=
  cut.behind.takeWhile isModifierByte

/-- The byte that is no modifier: the next one of the value, or its closing quote. -/
def stray : UInt8 :=
  (cut.behind.dropWhile isModifierByte).headD cut.item.quote

/-- What stands behind the parenthesis and is no modifier, up to the end of the tag. -/
def unread : Bytes :=
  cut.behind.dropWhile isModifierByte ++ cut.item.quote
    :: cut.last.flatMap (fun item => Byte.space :: item.text false)
    ++ Byte.closeParen :: tag.modifiers

private theorem head?_unread : cut.unread.head? = some cut.stray := by
  rw [unread, stray]
  cases cut.behind.dropWhile isModifierByte <;> rfl

private theorem isModifierByte_stray : isModifierByte cut.stray = false := by
  have hdrop := List.head?_dropWhile_not isModifierByte cut.behind
  rw [stray]
  cases hbehind : cut.behind.dropWhile isModifierByte with
  | nil => exact cut.item.isModifierByte_quote
  | cons c rest =>
    rw [hbehind] at hdrop
    simpa using hdrop

private theorem list_attributes (escapeAttributes : Bool) :
    tag.list escapeAttributes
      = join cut.first escapeAttributes (cut.item.text escapeAttributes)
        ++ cut.last.flatMap fun item => Byte.space :: item.text escapeAttributes := by
  rw [AttributedTag.list, cut.attributes_eq, List.map_append, List.map_cons,
    intercalate_append_cons, join_eq, List.flatMap_map, List.flatMap_map]
  simp

/-- The text of a tag, parted at the parenthesis. -/
theorem source_eq : tag.source = Byte.percent :: tag.name
    ++ (Byte.openParen :: cut.body ++ [Byte.closeParen]) ++ cut.modifiers ++ cut.unread := by
  have hbehind := List.takeWhile_append_dropWhile (p := isModifierByte) (l := cut.behind)
  have hvalue : cut.item.value = cut.inner ++ Byte.closeParen
      :: (cut.modifiers ++ cut.behind.dropWhile isModifierByte) := by
    rw [modifiers, hbehind, cut.value_eq]
  rw [AttributedTag.source, cut.list_attributes, body, join_eq, join_eq, text, hvalue, unread]
  simp

private theorem trim_body :
    trim cut.body = join cut.first false (cut.item.start ++ trimEnd cut.inner) :=
  trim_join cut.item cut.first cut.inner

/-- What is read of a cut list is its first part, with its values escaped if asked. -/
theorem list_eq (escapeAttributes : Bool) :
    cut.list escapeAttributes
      = if escapeAttributes then Attribute.escapeValues (trim cut.body) else trim cut.body := by
  have hopen : cut.item.quote ∉ trimEnd cut.inner := by
    intro hmem
    have hinner : cut.item.quote ∈ cut.inner := (isPrefix_trimEnd cut.inner).subset hmem
    exact cut.item.value_open (by simp [cut.value_eq, hinner])
  cases escapeAttributes with
  | false => rw [list, trim_body]; rfl
  | true =>
    rw [trim_body, if_pos rfl, escapeValues_join, escapeValues_start_of_open _ hopen]
    rfl

private theorem closeParen_not_mem_body : Byte.closeParen ∉ cut.body := by
  refine closeParen_not_mem_join cut.first_open ?_
  rw [List.mem_append, not_or]
  exact ⟨cut.item.closeParen_not_mem_start, cut.inner_open⟩

/-- A cut list is shorter than the one that was written. -/
theorem length_list_lt (escapeAttributes : Bool) :
    (cut.list escapeAttributes).length < (tag.list escapeAttributes).length := by
  have hinner : (trimEnd cut.inner).length ≤ cut.inner.length :=
    (isPrefix_trimEnd cut.inner).length_le
  have hescaped : (Attribute.escape (trimEnd cut.inner)).length
      ≤ (Attribute.escape cut.inner).length := by
    rcases isPrefix_trimEnd cut.inner with ⟨blanks, hblanks⟩
    conv => rhs; rw [← hblanks]
    simp
  rw [cut.list_attributes, list, join_eq, join_eq, text, cut.value_eq]
  cases escapeAttributes with
  | false =>
    simp only [Bool.false_eq_true, if_false, List.length_append, List.length_cons]
    omega
  | true =>
    simp only [if_true, Attribute.escape_append, List.length_append, List.length_cons]
    omega

end Cut

/-- What a tag of that name, with that attribute list and those modifiers, means. -/
structure Reads (name list modifiers : Bytes) (options : Options) (element : Element)
    (markup : Markup) : Prop where
  name_eq : element.name = name
  opener : markup.opener = Byte.less :: name ++ Byte.space :: list
    ++ if element.selfClosing && options.format == .xhtml then ascii " />" else ascii ">"
  around : markup.around = true ↔ Byte.greater ∈ modifiers
  inside : markup.inside = true ↔ Byte.less ∈ modifiers
  selfClosing : element.selfClosing = true
    ↔ Byte.slash ∈ modifiers ∨ name ∈ (fields Byte.comma options.selfCloseTags).map trim

/-! ## Reading the tag -/

variable (tag : AttributedTag)

/-- The tag with a name, an attribute list of that text and those modifiers. -/
def written (body modifiers : Bytes) (hbody : Byte.closeParen ∉ body)
    (hmodifiers : ∀ c ∈ modifiers, c ∈ ascii "></ \t\r\n") : WrittenTag where
  components := [⟨.name, tag.name⟩]
  body := some body
  modifiers := modifiers
  words := by simpa using ⟨tag.name_ne_nil, tag.name_bytes⟩
  body_open := by simpa using hbody
  modifiers_only := hmodifiers

private theorem source_written (body modifiers : Bytes) (hbody : Byte.closeParen ∉ body)
    (hmodifiers : ∀ c ∈ modifiers, c ∈ ascii "></ \t\r\n") :
    (tag.written body modifiers hbody hmodifiers).source
      = Byte.percent :: tag.name ++ (Byte.openParen :: body ++ [Byte.closeParen]) ++ modifiers := by
  simp [written, WrittenTag.source, WrittenTag.listSource, Component.source, Sigil.marker]

private theorem reads_of_means {body modifiers : Bytes} {hbody : Byte.closeParen ∉ body}
    {hmodifiers : ∀ c ∈ modifiers, c ∈ ascii "></ \t\r\n"} {options : Options}
    {element : Element} {markup : Markup} (hne : trim body ≠ [])
    (h : (tag.written body modifiers hbody hmodifiers).Means options element markup) :
    Reads tag.name
      (if options.escapeAttributes then Attribute.escapeValues (trim body) else trim body)
      modifiers options element markup := by
  have hname : element.name = tag.name := h.name
  have hattributes : element.attributes = Byte.space
      :: if options.escapeAttributes then Attribute.escapeValues (trim body) else trim body := by
    rw [h.attributes, WrittenTag.attributeParts]
    simp [written, WrittenTag.wordsOf, hne]
  refine ⟨hname, ?_, h.around, h.inside, ?_⟩
  · rw [h.opener, hname, hattributes]
  · rw [h.selfClosing, hname]
    rfl

private theorem exists_last : ∃ items item, tag.attributes = items ++ [item] ∧
    ∀ escapeAttributes,
      tag.list escapeAttributes = join items escapeAttributes (item.text escapeAttributes) := by
  rcases List.eq_nil_or_concat tag.attributes with hnil | ⟨items, item, hitems⟩
  · exact absurd hnil tag.attributes_ne_nil
  · rw [List.concat_eq_append] at hitems
    refine ⟨items, item, hitems, fun escapeAttributes => ?_⟩
    rw [list, hitems, List.map_append, join]
    rfl

/-- A closed list of attributes has no blanks round it. -/
theorem trim_list : trim (tag.list false) = tag.list false := by
  rcases tag.exists_last with ⟨items, item, -, hlist⟩
  have htext : item.text false = item.start ++ (item.value ++ [item.quote]) :=
    List.append_assoc _ _ _
  rw [hlist, htext, trim_join, trimEnd_append_cons item.isBlank_quote]
  rfl

private theorem escapeValues_list : Attribute.escapeValues (tag.list false) = tag.list true := by
  rcases tag.exists_last with ⟨items, item, -, hlist⟩
  have hitem := item.escapeValues_text_append []
  rw [List.append_nil, Attribute.escapeValues_eq_nil_iff.2 rfl, List.append_nil] at hitem
  rw [hlist, hlist, escapeValues_join, hitem]

private theorem closeParen_not_mem_list
    (h : ∀ item ∈ tag.attributes, Byte.closeParen ∉ item.value) :
    Byte.closeParen ∉ tag.list false := by
  rcases tag.exists_last with ⟨items, item, hitems, hlist⟩
  simp only [hitems, List.forall_mem_append, List.forall_mem_singleton] at h
  rw [hlist]
  exact closeParen_not_mem_join h.1 (item.closeParen_not_mem_text h.2)

/-- Where no value holds a closing parenthesis, a tag is read as it is written. -/
theorem read_whole (hwhole : ∀ item ∈ tag.attributes, Byte.closeParen ∉ item.value)
    (options : Options) :
    let form := TagForm.read tag.source
    form.warnings tag.source = []
      ∧ Reads tag.name (tag.list options.escapeAttributes) tag.modifiers options
          (form.element options) (form.markup options) := by
  intro form
  have hmodifiers : ∀ c ∈ tag.modifiers, c ∈ ascii "></ \t\r\n" :=
    fun c hc => (by decide : ascii "></" ⊆ ascii "></ \t\r\n") (tag.modifiers_only c hc)
  have hbody := tag.closeParen_not_mem_list hwhole
  let written := tag.written (tag.list false) tag.modifiers hbody hmodifiers
  have hsource : written.source ++ [] = tag.source := by
    rw [source_written, source]
    simp
  have hmeans := written.means_read (fun _ => rfl) (by simp) options
  rw [hsource] at hmeans
  have hne : trim (tag.list false) ≠ [] := by
    rcases tag.exists_last with ⟨items, item, -, hlist⟩
    rw [trim_list, hlist, text, List.append_assoc]
    exact item.join_start_ne_nil items _
  have hreads := tag.reads_of_means hne hmeans.2
  rw [trim_list, escapeValues_list] at hreads
  refine ⟨hmeans.1, ?_⟩
  cases hescape : options.escapeAttributes with
  | false => simpa [hescape] using hreads
  | true => simpa [hescape] using hreads

/-- Where a value holds a closing parenthesis, a tag is read as if it were cut there. -/
theorem read_cut (cut : tag.Cut) (options : Options) :
    let form := TagForm.read tag.source
    form.warnings tag.source = [.unknownModifier cut.stray tag.source]
      ∧ Reads tag.name (cut.list options.escapeAttributes) cut.modifiers options
          (form.element options) (form.markup options) := by
  intro form
  have hmodifiers : ∀ c ∈ cut.modifiers, c ∈ ascii "></ \t\r\n" :=
    fun c hc => WrittenTag.mem_of_isModifierByte (List.mem_takeWhile_imp hc)
  let written := tag.written cut.body cut.modifiers cut.closeParen_not_mem_body hmodifiers
  have hsource : written.source ++ cut.unread = tag.source := by
    rw [source_written, cut.source_eq]
  have hstop : ∀ c, cut.unread.head? = some c → isModifierByte c = false := by
    intro c hc
    rw [cut.head?_unread] at hc
    rcases Option.some.inj hc with rfl
    exact cut.isModifierByte_stray
  have hmeans := written.means_read (fun hnone => nomatch hnone) hstop options
  rw [hsource, cut.head?_unread] at hmeans
  have hne : trim cut.body ≠ [] := by
    rw [cut.trim_body]
    exact cut.item.join_start_ne_nil cut.first _
  refine ⟨hmeans.1, ?_⟩
  rw [cut.list_eq]
  exact tag.reads_of_means hne hmeans.2

/-- A node that is made of a tag with quoted attributes.  If no value holds a closing
parenthesis, nothing is warned of, the opener has the complete list and all modifiers count.
Otherwise the first value with one is cut there: there is a warning about the byte of that value
where the search for modifiers ends, the opener has a shorter list, and no modifier of the tag
counts, only bytes of modifiers in the value. -/
theorem build_whole_or_cut (workspace : Workspace) (position : Position) (parent : Option Nat) :
    ∃ log built node element markup,
      workspace.build .element tag.source position parent = ⟨log, .ok built⟩
        ∧ built.store.cell? workspace.store.size = some { node, parent }
        ∧ node.reading = { markup, detail := .element element }
        ∧ ((∀ item ∈ tag.attributes, Byte.closeParen ∉ item.value) ∨ Nonempty tag.Cut)
        ∧ ((∀ item ∈ tag.attributes, Byte.closeParen ∉ item.value) → log = []
            ∧ Reads tag.name (tag.list workspace.session.options.escapeAttributes) tag.modifiers
                workspace.session.options element markup)
        ∧ ∀ cut : tag.Cut, log = [.warning (.unknownModifier cut.stray tag.source)]
            ∧ Reads tag.name (cut.list workspace.session.options.escapeAttributes) cut.modifiers
                workspace.session.options element markup
            ∧ (cut.list workspace.session.options.escapeAttributes).length
                < (tag.list workspace.session.options.escapeAttributes).length := by
  rcases workspace.build_element tag.source position parent with ⟨built, hbuilt, hcell, hreading⟩
  refine ⟨_, built, _, _, _, hbuilt, hcell, hreading, tag.whole_or_cut, fun hwhole => ?_,
    fun cut => ?_⟩
  · rcases tag.read_whole hwhole workspace.session.options with ⟨hwarnings, hreads⟩
    rw [hwarnings]
    exact ⟨rfl, hreads⟩
  · rcases tag.read_cut cut workspace.session.options with ⟨hwarnings, hreads⟩
    rw [hwarnings]
    exact ⟨rfl, hreads, cut.length_list_lt _⟩

/-- A call in a value: the list ends at its parenthesis, and the modifier behind the list does
not count. -/
theorem build_whole_or_cut_of_call :
    ∃ built node, ({} : Workspace).build .element (ascii "%a(title=\"f(x)\")>") {} none
          = ⟨[.warning (.unknownModifier Byte.quote (ascii "%a(title=\"f(x)\")>"))], .ok built⟩
      ∧ built.store.cell? 0 = some { node, parent := none }
      ∧ node.markup.opener = ascii "<a title=\"f(x>"
      ∧ node.markup.around = false := by
  let item : QuotedAttribute :=
    { name := ascii "title", quote := Byte.quote, value := ascii "f(x)"
      name_bytes := List.all_eq_true.1 (by decide)
      quote_kind := by decide
      value_open := by decide }
  let tag : AttributedTag :=
    { name := ascii "a", attributes := [item], modifiers := ascii ">"
      name_ne_nil := by decide
      name_bytes := List.all_eq_true.1 (by decide)
      attributes_ne_nil := List.cons_ne_nil _ _
      modifiers_only := (by decide : ascii ">" ⊆ ascii "></") }
  let cut : tag.Cut :=
    { first := [], item, last := [], inner := ascii "f(x", behind := []
      attributes_eq := rfl
      value_eq := rfl
      first_open := by simp
      inner_open := by decide }
  rcases tag.build_whole_or_cut {} {} none
    with ⟨log, built, node, element, markup, hbuilt, hcell, hreading, -, -, hcut⟩
  rcases hcut cut with ⟨rfl, hreads, -⟩
  have hmarkup : node.markup = markup := by rw [Node.markup, hreading]
  have hself : element.selfClosing = false := by
    rw [Bool.eq_false_iff, ne_eq, hreads.selfClosing]
    decide
  refine ⟨built, node, hbuilt, hcell, ?_, ?_⟩
  · rw [hmarkup, hreads.opener, hself]
    rfl
  · rw [hmarkup, Bool.eq_false_iff, ne_eq, hreads.around]
    decide

end AttributedTag

end TemplateCompiler
