import TemplateCompiler.Options
import TemplateCompiler.Message
import TemplateCompiler.Template.Attribute
import TemplateCompiler.Template.Markup

/-!
# Elements

A tag is written as components (a name, classes and an id, in any order), an
attribute list between parentheses, and modifiers.  A tag form is what was read of
a tag, before any default is filled in; an element is what the tag means.

Main results:

- Definition {lit}`TagForm.read`: what is read of a tag, byte by byte.
- Definition {lit}`TagForm.markup`: the opener and the closer of an element, and the blanks
  that go round them.
-/

namespace TemplateCompiler

/-! ## Tag forms -/

/-- What a component of a tag names. -/
inductive Sigil where
  | name
  | className
  | id
deriving DecidableEq, Repr

/-- The byte that marks a component. -/
def Sigil.marker : Sigil → UInt8
  | .name => Byte.percent
  | .className => Byte.dot
  | .id => Byte.hash

/-- The component that a byte marks. -/
def Sigil.ofMarker? (c : UInt8) : Option Sigil :=
  [Sigil.name, .className, .id].find? fun sigil => sigil.marker == c

/-- A component of a tag. -/
structure Component where
  sigil : Sigil
  /-- The name, class or id; empty if the marker stands alone. -/
  word : Bytes
deriving DecidableEq, Repr

/-- A parenthesised attribute list. -/
structure AttributeList where
  /-- What is between the parentheses. -/
  body : Bytes
  /-- Whether the list is closed. -/
  closed : Bool
deriving DecidableEq, Repr

/-- What was read of a tag. -/
structure TagForm where
  components : List Component
  /-- Whether attributes between braces were passed over. -/
  hasHash : Bool
  attributes : Option AttributeList
  /-- The modifiers and the blanks among them. -/
  modifiers : Bytes
  /-- The byte that ended the reading because it is no modifier. -/
  stray : Option UInt8
deriving DecidableEq, Repr

/-- The bytes of names, classes and ids. -/
def isNameByte (c : UInt8) : Bool :=
  (0x30 ≤ c && c ≤ 0x39) || (0x41 ≤ c && c ≤ 0x5A) || (0x61 ≤ c && c ≤ 0x7A)
    || (ascii "-_:").contains c

/-- A byte of a name differs from every byte that is none. -/
theorem ne_of_isNameByte {c : UInt8} (hc : isNameByte c = true) (d : UInt8)
    (hd : isNameByte d = false) : c ≠ d := by
  rintro rfl
  simp [hd] at hc

/-- The modifiers and the blanks that may stand among them. -/
def isModifierByte (c : UInt8) : Bool :=
  (ascii "></").contains c || isBlank c

namespace TagForm

/-- Read components, and what follows them. -/
def readComponents : Bytes → List Component × Bytes
  | [] => ([], [])
  | c :: rest =>
    match Sigil.ofMarker? c with
    | none => ([], c :: rest)
    | some sigil =>
      let (components, tail) := readComponents (rest.dropWhile isNameByte)
      (⟨sigil, rest.takeWhile isNameByte⟩ :: components, tail)
termination_by text => text.length
decreasing_by
  have := (List.dropWhile_sublist (l := rest) isNameByte).length_le
  simp only [List.length_cons]
  omega

/-- Pass over attributes between braces, up to the first closing brace. -/
def skipHash : Bytes → Bool × Bytes
  | [] => (false, [])
  | c :: rest =>
    if c = Byte.openBrace then (true, (rest.dropWhile (· != Byte.closeBrace)).drop 1)
    else (false, c :: rest)

/-- Read an attribute list, up to the first closing parenthesis. -/
def readAttributes : Bytes → Option AttributeList × Bytes
  | [] => (none, [])
  | c :: rest =>
    if c = Byte.openParen then
      (some ⟨rest.takeWhile (· != Byte.closeParen), rest.contains Byte.closeParen⟩,
        (rest.dropWhile (· != Byte.closeParen)).drop 1)
    else (none, c :: rest)

/-- Read a tag. -/
def read (tag : Bytes) : TagForm :=
  let (components, afterComponents) := readComponents tag
  let (hasHash, afterHash) := skipHash afterComponents
  let (attributes, afterAttributes) := readAttributes afterHash
  { components, hasHash, attributes
    modifiers := afterAttributes.takeWhile isModifierByte
    stray := (afterAttributes.dropWhile isModifierByte).head? }

/-- The words behind one kind of marker, in order. -/
def words (form : TagForm) (sigil : Sigil) : List Bytes :=
  (form.components.filter fun component =>
    component.sigil == sigil && !component.word.isEmpty).map Component.word

/-- Whether no component has a word. -/
def isNameless (form : TagForm) : Bool :=
  form.components.all fun component => component.word.isEmpty

/-- Whether there is an attribute list that is not closed. -/
def isUnterminated (form : TagForm) : Bool :=
  form.attributes.any fun list => !list.closed

/-- Whether a modifier is among those of the tag. -/
def hasModifier (form : TagForm) (modifier : UInt8) : Bool :=
  form.modifiers.contains modifier

/-- The warnings about a tag, in the order of its parts. -/
def warnings (tag : Bytes) (form : TagForm) : List Warning :=
  ((form.components.filter fun component => component.word.isEmpty).map fun component =>
      Warning.emptyComponent component.sigil.marker tag)
    ++ (if form.hasHash then [.hashAttributes tag] else [])
    ++ (if form.isUnterminated then [.unterminatedAttributes tag] else [])
    ++ (form.stray.toList.map fun c => .unknownModifier c tag)
    ++ (if form.isNameless then [.namelessTag tag] else [])

end TagForm

/-! ## Elements -/

/-- What a tag means. -/
structure Element where
  /-- The name of the element. -/
  name : Bytes := []
  /-- Its attributes as they follow the name, with a space before each part. -/
  attributes : Bytes := []
  /-- Whether it has no content and no closing tag. -/
  selfClosing : Bool := false
deriving DecidableEq, Repr

namespace TagForm

/-- The name of the element: the last one given, and a division by default. -/
def name (form : TagForm) : Bytes :=
  (form.words .name).getLastD (ascii "div")

/-- An attribute with its quoted value, where there is a value. -/
def quotedAttribute (name value : Bytes) : Bytes :=
  if value.isEmpty then []
  else Byte.space :: name ++ ascii "=\"" ++ value ++ [Byte.quote]

/-- The attribute list as it is printed. -/
def listedAttributes (form : TagForm) (escapeAttributes : Bool) : Bytes :=
  match form.attributes with
  | none => []
  | some list =>
    let body := trim list.body
    let text := if escapeAttributes then Attribute.escapeValues body else body
    if text.isEmpty then [] else Byte.space :: text

/-- All attributes of the element: the classes, the id, and the list.  Classes and
ids are made of name bytes, so they need no escaping. -/
def attributeText (form : TagForm) (escapeAttributes : Bool) : Bytes :=
  quotedAttribute (ascii "class") ([Byte.space].intercalate (form.words .className))
    ++ quotedAttribute (ascii "id") ((form.words .id).getLastD [])
    ++ form.listedAttributes escapeAttributes

/-- The element of a tag. -/
def element (form : TagForm) (options : Options) : Element where
  name := form.name
  attributes := form.attributeText options.escapeAttributes
  selfClosing := form.hasModifier Byte.slash || listContains options.selfCloseTags form.name

/-- The markup of a tag. -/
def markup (form : TagForm) (options : Options) : Markup :=
  let element := form.element options
  let start := Byte.less :: element.name ++ element.attributes
  { opener :=
      if element.selfClosing && options.format == .xhtml then start ++ ascii " />"
      else start ++ ascii ">"
    closer :=
      if element.selfClosing then []
      else ascii "</" ++ element.name ++ ascii ">"
    around := form.hasModifier Byte.greater
    inside := form.hasModifier Byte.less
    preserve := listContains options.preserveTags element.name }

end TagForm

end TemplateCompiler
