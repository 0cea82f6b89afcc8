import TemplateCompiler.Code.Cursor

/-!
# Reading literals back

The host language reads the inside of a literal back byte by byte: a backslash and
the letter behind it stand for one byte, and a bare quote, a bare line or tab
character and the start of an interpolation are no part of a literal.

Main results:

- Theorem {lit}`Literal.escapeByte_cases`: a byte is written as it is, or as an escape
  that stands for it.
- Theorem {lit}`Literal.decode_escape`: an escaped text is read back as it was.
- Theorem {lit}`Literal.decode_hashEscapesNeeded_iff`: of the bodies that are read as a text,
  its written form is the one without needless escapes.
-/

namespace TemplateCompiler.Literal

/-- The letters behind a backslash, each with the byte that it stands for. -/
def escapes : List (UInt8 × UInt8) :=
  [(Byte.backslash, Byte.backslash), (Byte.quote, Byte.quote), (0x6E, Byte.lineFeed),
    (0x72, Byte.carriageReturn), (0x74, Byte.tab), (Byte.hash, Byte.hash)]

/-- The bytes that stand in a literal only as an escape. -/
def needsEscape (c : UInt8) : Bool :=
  c == Byte.backslash || c == Byte.quote || c == Byte.lineFeed || c == Byte.carriageReturn
    || c == Byte.tab

/-- Read the inside of a literal. -/
def decode : Bytes → Option Bytes
  | [] => some []
  | c :: rest =>
    if c = Byte.backslash then
      match rest with
      | [] => none
      | d :: more =>
        match escapes.lookup d, decode more with
        | some byte, some text => some (byte :: text)
        | _, _ => none
    else if needsEscape c ∨ c = Byte.hash ∧ rest.head? = some Byte.openBrace then none
    else (decode rest).map fun text => c :: text

/-! ## Written forms of bytes -/

/-- What the trim pass knows about the other bytes: a space is the only blank. -/
theorem blank_of_not_needsEscape {c : UInt8} (h : needsEscape c = false) :
    isPlainBlank c = isBlank c ∧ c ≠ Byte.backslash := by
  simp only [needsEscape, Bool.or_eq_false_iff, beq_eq_false_iff_ne] at h
  rcases h with ⟨⟨⟨⟨hslash, -⟩, hline⟩, hreturn⟩, htab⟩
  refine ⟨?_, hslash⟩
  simp only [isPlainBlank, isBlank, beq_eq_false_iff_ne.2 hline,
    beq_eq_false_iff_ne.2 hreturn, Bool.or_false]

/-- What the trim pass knows about escapes: only the letters of blanks stand for
blanks, and no letter is a blank itself. -/
theorem blank_of_escape {d c : UInt8} (h : (d, c) ∈ escapes) :
    isBlankLetter d = isBlank c ∧ isPlainBlank d = false ∧ d ≠ Byte.lineFeed := by
  have hall : (escapes.all fun pair => isBlankLetter pair.1 == isBlank pair.2
      && isPlainBlank pair.1 == false && pair.1 != Byte.lineFeed) = true := by
    decide
  have hpair := List.all_eq_true.1 hall (d, c) h
  simpa [and_assoc] using hpair

private theorem lookup_of_mem_escapes {d c : UInt8} (h : (d, c) ∈ escapes) :
    escapes.lookup d = some c := by
  have hall : (escapes.all fun pair => escapes.lookup pair.1 == some pair.2) = true := by
    decide
  exact beq_iff_eq.1 (List.all_eq_true.1 hall (d, c) h)

/-- A byte is written as it is, or as an escape that stands for it. -/
theorem escapeByte_cases (c : UInt8) (next : Option UInt8) :
    (escapeByte c next = [c] ∧ needsEscape c = false
        ∧ (c = Byte.hash → next ≠ some Byte.openBrace))
      ∨ ∃ d, escapeByte c next = [Byte.backslash, d] ∧ (d, c) ∈ escapes := by
  unfold escapeByte
  split
  · next h =>
    right
    refine ⟨c, rfl, ?_⟩
    rcases h with rfl | rfl <;> decide
  · next hself =>
    split
    · next h =>
      subst h
      exact .inr ⟨_, rfl, by decide⟩
    · next hline =>
      split
      · next h =>
        subst h
        exact .inr ⟨_, rfl, by decide⟩
      · next hreturn =>
        split
        · next h =>
          subst h
          exact .inr ⟨_, rfl, by decide⟩
        · next htab =>
          split
          · next h =>
            right
            refine ⟨c, rfl, ?_⟩
            rw [h.1]
            decide
          · next hhash =>
            left
            rw [not_or] at hself
            refine ⟨rfl, ?_, fun h hnext => hhash ⟨h, hnext⟩⟩
            simp only [needsEscape, Bool.or_eq_false_iff, beq_eq_false_iff_ne]
            exact ⟨⟨⟨hself, hline⟩, hreturn⟩, htab⟩

/-- A byte without an escape is written as it is. -/
theorem escapeByte_of_not_mem {c : UInt8} (h : c ∉ escapes.map Prod.snd)
    (next : Option UInt8) : escapeByte c next = [c] := by
  rcases escapeByte_cases c next with ⟨hwritten, -, -⟩ | ⟨d, -, hd⟩
  · exact hwritten
  · exact absurd (List.mem_map_of_mem hd) h

/-- The written form of a text ends in that of its last part. -/
theorem escape_suffix_escape (first second : Bytes) :
    escape second <:+ escape (first ++ second) := by
  induction first with
  | nil => exact List.suffix_refl _
  | cons c rest ih =>
    rw [List.cons_append, escape_cons]
    exact ih.trans (List.suffix_append _ _)

/-- Only marks are written with a mark first. -/
theorem exists_cons_escapeByte {c : UInt8} (hleft : c ≠ leftMark) (hright : c ≠ rightMark)
    (next : Option UInt8) :
    ∃ d more, escapeByte c next = d :: more ∧ d ≠ leftMark ∧ d ≠ rightMark := by
  rcases escapeByte_cases c next with ⟨hwritten, -, -⟩ | ⟨d, hwritten, -⟩
  · exact ⟨c, [], hwritten, hleft, hright⟩
  · exact ⟨Byte.backslash, [d], hwritten, by decide, by decide⟩

/-- Every byte is written as at least one. -/
theorem escapeByte_ne_nil (c : UInt8) (next : Option UInt8) : escapeByte c next ≠ [] := by
  rcases escapeByte_cases c next with ⟨hwritten, -, -⟩ | ⟨d, hwritten, -⟩
  · simp [hwritten]
  · simp [hwritten]

private theorem lineFeed_not_mem_escapeByte (c : UInt8) (next : Option UInt8) :
    Byte.lineFeed ∉ escapeByte c next := by
  rcases escapeByte_cases c next with ⟨hwritten, hplain, -⟩ | ⟨d, hwritten, hd⟩
  · rw [hwritten, List.mem_singleton]
    rintro rfl
    revert hplain
    decide
  · have hfeed := (blank_of_escape hd).2.2
    have hslash : Byte.lineFeed ≠ Byte.backslash := by decide
    simp [hwritten, hfeed.symm, hslash]

/-- Bytes without an escape are written as they are, whatever follows them. -/
theorem escape_append_of_not_mem {s : Bytes} (h : ∀ c ∈ s, c ∉ escapes.map Prod.snd) (t : Bytes) :
    escape (s ++ t) = s ++ escape t := by
  induction s with
  | nil => rfl
  | cons c rest ih =>
    rw [List.forall_mem_cons] at h
    rw [List.cons_append, escape_cons, escapeByte_of_not_mem h.1, ih h.2]
    rfl

/-- Spaces in front of a text are written as they are. -/
theorem escape_spaces_append (width : Nat) (text : Bytes) :
    escape (spaces width ++ text) = spaces width ++ escape text := by
  refine escape_append_of_not_mem ?_ text
  intro c hc
  rw [List.eq_of_mem_replicate hc]
  decide

/-- Spaces are written as they are. -/
theorem escape_spaces (width : Nat) : escape (spaces width) = spaces width := by
  simpa using escape_spaces_append width []

/-- The inside of a literal stands on one line. -/
theorem lineFeed_not_mem_escape (text : Bytes) : Byte.lineFeed ∉ escape text := by
  induction text with
  | nil => simp
  | cons c rest ih =>
    rw [escape_cons, List.mem_append, not_or]
    exact ⟨lineFeed_not_mem_escapeByte c rest.head?, ih⟩

/-- Only an opening brace is written with that brace first. -/
theorem head?_escape (text : Bytes) (h : (escape text).head? = some Byte.openBrace) :
    text.head? = some Byte.openBrace := by
  cases text with
  | nil => simp at h
  | cons c rest =>
    rcases escapeByte_cases c rest.head? with ⟨hwritten, -, -⟩ | ⟨d, hwritten, -⟩
    · simpa [escape_cons, hwritten] using h
    · have hslash : Byte.backslash ≠ Byte.openBrace := by decide
      rw [escape_cons, hwritten] at h
      simp [hslash] at h

private theorem decode_cons_plain {c : UInt8} {rest : Bytes} (hplain : needsEscape c = false)
    (hopen : ¬(c = Byte.hash ∧ rest.head? = some Byte.openBrace)) :
    decode (c :: rest) = (decode rest).map fun text => c :: text := by
  have hslash : c ≠ Byte.backslash := by
    rintro rfl
    revert hplain
    decide
  cases rest <;> simp_all [decode]

private theorem decode_cons_escape {d c : UInt8} (h : (d, c) ∈ escapes) (rest : Bytes) :
    decode (Byte.backslash :: d :: rest) = (decode rest).map fun text => c :: text := by
  cases hrest : decode rest <;> simp [decode, lookup_of_mem_escapes h, hrest]

/-- An escaped text is read back as it was. -/
theorem decode_escape (text : Bytes) : decode (escape text) = some text := by
  induction text with
  | nil => rfl
  | cons c rest ih =>
    rcases escapeByte_cases c rest.head? with ⟨hwritten, hplain, hhash⟩ | ⟨d, hwritten, hd⟩
    · have hopen : ¬(c = Byte.hash ∧ (escape rest).head? = some Byte.openBrace) :=
        fun h => hhash h.1 (head?_escape rest h.2)
      rw [escape_cons, hwritten, List.singleton_append, decode_cons_plain hplain hopen, ih]
      rfl
    · rw [escape_cons, hwritten]
      change decode (Byte.backslash :: d :: escape rest) = some (c :: rest)
      rw [decode_cons_escape hd, ih]
      rfl

/-! ## Canonical bodies -/

/-- Whether every escaped hash sign stands in front of an opening brace, the only place
where it needs its backslash. -/
def hashEscapesNeeded : Bytes → Bool
  | [] => true
  | c :: rest =>
    if c = Byte.backslash then
      match rest with
      | [] => true
      | d :: more =>
        (d != Byte.hash || more.head? == some Byte.openBrace) && hashEscapesNeeded more
    else hashEscapesNeeded rest

private theorem hashEscapesNeeded_cons_plain {c : UInt8} (hslash : c ≠ Byte.backslash)
    (rest : Bytes) :
    hashEscapesNeeded (c :: rest) = hashEscapesNeeded rest := by
  rw [hashEscapesNeeded.eq_def]
  exact if_neg hslash

private theorem hashEscapesNeeded_cons_escape (d : UInt8) (rest : Bytes) :
    hashEscapesNeeded (Byte.backslash :: d :: rest) = true
      ↔ (d = Byte.hash → rest.head? = some Byte.openBrace) ∧ hashEscapesNeeded rest = true := by
  simp [hashEscapesNeeded, Decidable.imp_iff_not_or]

/-- A text with an opening brace first is written with that brace first. -/
theorem head?_escape_of_openBrace {text : Bytes} (h : text.head? = some Byte.openBrace) :
    (escape text).head? = some Byte.openBrace := by
  cases text with
  | nil => simp at h
  | cons c rest =>
    rcases Option.some.inj h with rfl
    rw [escape_cons, escapeByte_of_not_mem (by decide)]
    rfl

/-- The other bytes are written as they are. -/
theorem escapeByte_of_plain {c : UInt8} {next : Option UInt8} (hplain : needsEscape c = false)
    (hopen : ¬(c = Byte.hash ∧ next = some Byte.openBrace)) : escapeByte c next = [c] := by
  simp only [needsEscape, Bool.or_eq_false_iff, beq_eq_false_iff_ne] at hplain
  simp only [escapeByte, hplain, hopen, or_self, if_false]

/-- Of the bytes with an escape, only the hash sign looks at what follows. -/
theorem escapeByte_eq_escape_iff {d c : UInt8} (h : (d, c) ∈ escapes) (next : Option UInt8) :
    escapeByte c next = [Byte.backslash, d] ↔ (d = Byte.hash → next = some Byte.openBrace) := by
  have hall : (escapes.all fun pair =>
      escapeByte pair.2 (some Byte.openBrace) == [Byte.backslash, pair.1]
        && (escapeByte pair.2 none == [Byte.backslash, pair.1]) == (pair.1 != Byte.hash))
      = true := by
    decide
  have hpair := List.all_eq_true.1 hall (d, c) h
  rw [Bool.and_eq_true, beq_iff_eq, beq_iff_eq, Bool.eq_iff_iff, beq_iff_eq, bne_iff_ne]
    at hpair
  by_cases hnext : next = some Byte.openBrace
  · subst hnext
    exact iff_of_true hpair.1 fun _ => rfl
  · have hbare : escapeByte c next = escapeByte c none := escapeByte_congr (by simp [hnext])
    rw [hbare, hpair.2]
    exact ⟨fun hne hd => absurd hd hne, fun h hd => hnext (h hd)⟩

/-- Escaping puts a backslash in front of those hash signs only that need it. -/
theorem hashEscapesNeeded_escape (text : Bytes) : hashEscapesNeeded (escape text) = true := by
  induction text with
  | nil => rfl
  | cons c rest ih =>
    rw [escape_cons]
    rcases escapeByte_cases c rest.head? with ⟨hwritten, hplain, -⟩ | ⟨d, hwritten, hd⟩
    · rw [hwritten, List.singleton_append,
        hashEscapesNeeded_cons_plain (blank_of_not_needsEscape hplain).2]
      exact ih
    · rw [hwritten, List.cons_append, List.singleton_append, hashEscapesNeeded_cons_escape]
      refine ⟨fun hhash => head?_escape_of_openBrace ?_, ih⟩
      exact (escapeByte_eq_escape_iff hd _).1 hwritten hhash

/-- A body is read in one way only, up to needless escapes of hash signs. -/
theorem eq_escape_of_decode {body text : Bytes} (hread : decode body = some text)
    (hopen : hashEscapesNeeded body = true) : body = escape text := by
  fun_induction decode body generalizing text with
  | case1 =>
    rcases Option.some.inj hread with rfl
    rfl
  | case2 => cases hread
  | case3 d more c rest hrest hlookup ih =>
    rcases Option.some.inj hread with rfl
    rcases List.lookup_eq_some_iff.1 hlookup with ⟨before, after, hpair, -⟩
    have hmem : (d, c) ∈ escapes := by simp [hpair]
    rw [hashEscapesNeeded_cons_escape] at hopen
    rcases ih hrest hopen.2 with rfl
    have hwritten : escapeByte c rest.head? = [Byte.backslash, d] :=
      (escapeByte_eq_escape_iff hmem _).2 fun hhash => head?_escape _ (hopen.1 hhash)
    rw [escape_cons, hwritten]
    rfl
  | case4 => cases hread
  | case5 => cases hread
  | case6 c more hslash hplain ih =>
    rcases Option.map_eq_some_iff.1 hread with ⟨rest, hrest, rfl⟩
    rw [hashEscapesNeeded_cons_plain hslash] at hopen
    rcases ih hrest hopen with rfl
    rw [not_or] at hplain
    have hwritten : escapeByte c rest.head? = [c] :=
      escapeByte_of_plain (Bool.eq_false_iff.2 hplain.1)
        fun h => hplain.2 ⟨h.1, head?_escape_of_openBrace h.2⟩
    rw [escape_cons, hwritten]
    rfl

/-- The written form of a text is the one body that is read as that text and in which no
hash sign has a needless escape. -/
theorem decode_hashEscapesNeeded_iff (body text : Bytes) :
    decode body = some text ∧ hashEscapesNeeded body = true ↔ body = escape text := by
  constructor
  · rintro ⟨hread, hopen⟩
    exact eq_escape_of_decode hread hopen
  · rintro rfl
    exact ⟨decode_escape text, hashEscapesNeeded_escape text⟩

-- A hash sign may also be escaped without need; that body is no written form.
example : decode (ascii "\\#a") = some (ascii "#a") ∧ escape (ascii "#a") = ascii "#a" := by
  decide

end TemplateCompiler.Literal
