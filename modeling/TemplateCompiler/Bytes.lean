/-!
# Bytes

Templates and generated code are byte strings: every character class here is an
ASCII class, and any other byte passes through unchanged.  This file holds the
byte type, the named bytes, blanks and trimming, runs, and comma-separated lists.

Main results:

- Theorem {lit}`fields_append_separator`: a separator always ends an entry, so
  the entries before it and after it are found independently.
- Theorem {lit}`intercalate_fields`: splitting loses nothing but the separators.
-/

namespace TemplateCompiler

/-- A byte string: template source, markup or generated code. -/
abbrev Bytes := List UInt8

/-- The bytes of a text that is written with ASCII characters only. -/
def ascii (text : String) : Bytes :=
  text.toList.map fun c => c.toNat.toUInt8

/-! ## Named bytes -/

namespace Byte

/-- Horizontal tabulator. -/
abbrev tab : UInt8 := 0x09

/-- Line feed, the end of a line. -/
abbrev lineFeed : UInt8 := 0x0A

/-- Carriage return. -/
abbrev carriageReturn : UInt8 := 0x0D

/-- The space character. -/
abbrev space : UInt8 := 0x20

/-- The double quote. -/
abbrev quote : UInt8 := 0x22

/-- The hash sign. -/
abbrev hash : UInt8 := 0x23

/-- The percent sign. -/
abbrev percent : UInt8 := 0x25

/-- The ampersand. -/
abbrev ampersand : UInt8 := 0x26

/-- The single quote. -/
abbrev apostrophe : UInt8 := 0x27

/-- The opening parenthesis. -/
abbrev openParen : UInt8 := 0x28

/-- The closing parenthesis. -/
abbrev closeParen : UInt8 := 0x29

/-- The comma. -/
abbrev comma : UInt8 := 0x2C

/-- The full stop. -/
abbrev dot : UInt8 := 0x2E

/-- The slash. -/
abbrev slash : UInt8 := 0x2F

/-- The less-than sign. -/
abbrev less : UInt8 := 0x3C

/-- The greater-than sign. -/
abbrev greater : UInt8 := 0x3E

/-- The opening bracket. -/
abbrev openBracket : UInt8 := 0x5B

/-- The backslash. -/
abbrev backslash : UInt8 := 0x5C

/-- The opening brace. -/
abbrev openBrace : UInt8 := 0x7B

/-- The closing brace. -/
abbrev closeBrace : UInt8 := 0x7D

end Byte

/-! ## Blanks and runs -/

/-- The four blanks: space, tabulator, line feed and carriage return. -/
def isBlank (c : UInt8) : Bool :=
  c == Byte.space || c == Byte.tab || c == Byte.lineFeed || c == Byte.carriageReturn

/-- A byte string without the blanks at its start. -/
def trimStart (s : Bytes) : Bytes :=
  s.dropWhile isBlank

/-- A byte string without the blanks at its end. -/
def trimEnd (s : Bytes) : Bytes :=
  (s.reverse.dropWhile isBlank).reverse

/-- A byte string without the blanks at both ends. -/
def trim (s : Bytes) : Bytes :=
  trimEnd (trimStart s)

/-- A run of spaces of the given width. -/
def spaces (width : Nat) : Bytes :=
  List.replicate width Byte.space

@[simp] theorem length_spaces (width : Nat) : (spaces width).length = width := by
  simp [spaces]

/-- A run ends where the next byte is of another kind. -/
theorem takeWhile_append_of_stop {p : UInt8 → Bool} {run rest : Bytes}
    (hrun : ∀ c ∈ run, p c = true) (hstop : ∀ c, rest.head? = some c → p c = false) :
    (run ++ rest).takeWhile p = run := by
  rw [List.takeWhile_append_of_pos hrun]
  cases rest with
  | nil => simp
  | cons c rest => simp [hstop c rfl]

/-- What is behind a run is left by it. -/
theorem dropWhile_append_of_stop {p : UInt8 → Bool} {run rest : Bytes}
    (hrun : ∀ c ∈ run, p c = true) (hstop : ∀ c, rest.head? = some c → p c = false) :
    (run ++ rest).dropWhile p = rest := by
  rw [List.dropWhile_append_of_pos hrun]
  cases rest with
  | nil => rfl
  | cons c rest => simp [hstop c rfl]

/-- Every byte of a text differs from one that is not in it. -/
theorem bne_of_not_mem {c : UInt8} {s : Bytes} (h : c ∉ s) : ∀ d ∈ s, (d != c) = true := by
  intro d hd
  rw [bne_iff_ne]
  rintro rfl
  exact h hd

/-! ## Entries of a separated list -/

/-- The entries between separators.  A list with {lit}`k` separators has
{lit}`k + 1` entries, so an empty first, middle or last entry is one too. -/
def fields (separator : UInt8) : Bytes → List Bytes
  | [] => [[]]
  | c :: rest =>
    if c = separator then [] :: fields separator rest
    else
      match fields separator rest with
      | [] => [[c]]
      | entry :: entries => (c :: entry) :: entries

/-- Splitting always finds at least one entry. -/
theorem fields_ne_nil (separator : UInt8) (s : Bytes) : fields separator s ≠ [] := by
  cases s with
  | nil => simp [fields]
  | cons c rest =>
    unfold fields
    split
    · simp
    · split <;> simp

/-- A separator ends the entry before it and starts the one after it. -/
theorem fields_append_separator (separator : UInt8) (s t : Bytes) :
    fields separator (s ++ separator :: t) = fields separator s ++ fields separator t := by
  induction s with
  | nil => simp [fields]
  | cons c rest ih =>
    by_cases h : c = separator
    · simp [fields, h, ih]
    · obtain ⟨entry, entries, he⟩ := List.exists_cons_of_ne_nil (fields_ne_nil separator rest)
      simp [fields, h, ih, he]

/-- Writing the separator back between the entries gives the list back. -/
theorem intercalate_fields (separator : UInt8) (s : Bytes) :
    [separator].intercalate (fields separator s) = s := by
  induction s with
  | nil => simp [fields]
  | cons c rest ih =>
    obtain ⟨entry, entries, he⟩ := List.exists_cons_of_ne_nil (fields_ne_nil separator rest)
    by_cases h : c = separator
    · rw [he] at ih
      simp only [fields, h, he, if_true]
      rw [← ih]
      cases entries <;> simp [List.intercalate]
    · rw [he] at ih
      simp only [fields, h, he, if_false]
      rw [← ih]
      cases entries <;> simp [List.intercalate]

/-- One of several joined words, with what stands before it and behind it. -/
theorem intercalate_append_cons (separator : Bytes) (first : List Bytes) (word : Bytes)
    (second : List Bytes) :
    separator.intercalate (first ++ word :: second)
      = first.flatMap (· ++ separator) ++ (word ++ second.flatMap (separator ++ ·)) := by
  induction first with
  | nil =>
    induction second generalizing word with
    | nil => simp
    | cons next second ih =>
      have hrest := ih next
      rw [List.nil_append] at hrest ⊢
      rw [List.intercalate_cons_cons, hrest]
      simp
  | cons start first ih =>
    rcases List.exists_cons_of_ne_nil (List.append_ne_nil_of_right_ne_nil first
      (List.cons_ne_nil word second)) with ⟨next, others, hnext⟩
    rw [List.cons_append, hnext, List.intercalate_cons_cons, ← hnext, ih]
    simp

/-- An item is listed when some entry between commas, without the blanks round
it, is exactly that item. -/
def listContains (list item : Bytes) : Bool :=
  (fields Byte.comma list).any fun entry => trim entry == item

end TemplateCompiler
