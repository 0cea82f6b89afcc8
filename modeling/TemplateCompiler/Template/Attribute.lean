import TemplateCompiler.Bytes

/-!
# Attribute values

The attributes of a tag are copied as they are written, but what stands between
quotes is a value, and a value may be escaped for the document.

Main results:

- Theorem {lit}`source_pieces`: cutting attribute text into pieces loses nothing.
- Theorem {lit}`escape_append`: a value is escaped byte by byte.
-/

namespace TemplateCompiler.Attribute

/-- The written form of one byte of a value. -/
def escapeByte (c : UInt8) : Bytes :=
  if c = Byte.ampersand then ascii "&amp;"
  else if c = Byte.less then ascii "&lt;"
  else if c = Byte.greater then ascii "&gt;"
  else if c = Byte.quote then ascii "&quot;"
  else if c = Byte.apostrophe then ascii "&#39;"
  else [c]

/-- The written form of a value. -/
def escape (value : Bytes) : Bytes :=
  value.flatMap escapeByte

@[simp] theorem escape_nil : escape [] = [] := rfl

@[simp] theorem escape_append (first second : Bytes) :
    escape (first ++ second) = escape first ++ escape second := by
  simp [escape]

/-! ## Pieces of attribute text -/

/-- Whether a byte opens a value. -/
def isQuote (c : UInt8) : Bool :=
  c == Byte.quote || c == Byte.apostrophe

/-- A piece of attribute text. -/
inductive Piece where
  /-- A byte outside values. -/
  | outside (c : UInt8)
  /-- A value, its quote, and whether the quote stands at its end too. -/
  | value (quote : UInt8) (content : Bytes) (closed : Bool)
deriving DecidableEq, Repr

/-- The text of a piece. -/
def Piece.source : Piece → Bytes
  | .outside c => [c]
  | .value quote content closed => quote :: content ++ if closed then [quote] else []

/-- A piece with its value escaped. -/
def Piece.escaped : Piece → Piece
  | .outside c => .outside c
  | .value quote content closed => .value quote (Attribute.escape content) closed

/-- Cut attribute text into pieces.  A value runs to the next quote of its kind,
or to the end if there is none. -/
def pieces : Bytes → List Piece
  | [] => []
  | c :: rest =>
    if isQuote c then
      .value c (rest.takeWhile (· != c)) (rest.contains c)
        :: pieces ((rest.dropWhile (· != c)).drop 1)
    else .outside c :: pieces rest
termination_by text => text.length
decreasing_by
  · have := (List.dropWhile_sublist (l := rest) (· != c)).length_le
    simp only [List.length_drop, List.length_cons]
    omega
  · simp

/-- Attribute text with all values escaped. -/
def escapeValues (text : Bytes) : Bytes :=
  (pieces text).flatMap fun piece => piece.escaped.source

/-- A text is what stands before the first byte of a kind, that byte if there is
one, and the rest. -/
theorem takeWhile_append_closing (c : UInt8) (s : Bytes) :
    s.takeWhile (· != c)
        ++ ((if s.contains c then [c] else []) ++ (s.dropWhile (· != c)).drop 1) = s := by
  induction s with
  | nil => rfl
  | cons d rest ih =>
    by_cases h : d = c
    · subst h
      simp
    · have hc : ¬ c = d := fun e => h e.symm
      simp [h, hc] at ih ⊢
      exact ih

/-- Cutting attribute text into pieces loses nothing. -/
theorem source_pieces (text : Bytes) : (pieces text).flatMap Piece.source = text := by
  fun_induction pieces text with
  | case1 => rfl
  | case2 c rest hquote ih =>
    have hcut := takeWhile_append_closing c rest
    simp only [List.flatMap_cons, ih, Piece.source, List.cons_append, List.append_assoc]
    rw [hcut]
  | case3 c rest hquote ih =>
    simp [Piece.source, ih]

end TemplateCompiler.Attribute
