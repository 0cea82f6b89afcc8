import TemplateCompiler.Code.Line
import TemplateCompiler.Proofs.Fields

/-!
# Reading code that is joined

Code that ends in a line feed is read on its own, whatever follows it.  So the lines
of joined code are those of its parts, and the lines of printed statements are read
back one by one.

Main results:

- Theorem {lit}`Listing.parse_append`: the lines of closed code stand before those of
  the code that follows.
- Theorem {lit}`Listing.parse_flatMap_closed`: texts without line feeds are read back
  as lines.
- Theorem {lit}`Listing.lines_parse_drop`: what is read from a position on.
-/

namespace TemplateCompiler

/-- Reading a line adds no byte to its body. -/
theorem Line.body_parse_subset (text : Bytes) : (Line.parse text).body ⊆ text := by
  have hstatement : text.dropWhile (· == Byte.space) ⊆ text :=
    (List.dropWhile_sublist _).subset
  simp only [Line.parse]
  split
  · intro c hc
    exact hstatement ((List.drop_sublist _ _).subset ((List.dropLast_sublist _).subset hc))
  · exact hstatement

/-- A line is read back as its indentation and its source. -/
theorem Line.parse_spaces (width : Nat) {source : Bytes}
    (h : source.head? ≠ some Byte.space) :
    Line.parse (spaces width ++ source)
      = if isLiteral source then ⟨width, true, (source.drop pushOpening.length).dropLast⟩
        else ⟨width, false, source⟩ := by
  have hspace : ∀ c ∈ spaces width, (c == Byte.space) = true := by
    intro c hc
    rw [List.eq_of_mem_replicate hc]
    rfl
  have hsource : source.takeWhile (· == Byte.space) = []
      ∧ source.dropWhile (· == Byte.space) = source := by
    cases source with
    | nil => exact ⟨rfl, rfl⟩
    | cons c rest =>
      have hc : c ≠ Byte.space := by simpa using h
      simp [hc]
  rw [Line.parse, List.takeWhile_append_of_pos hspace, List.dropWhile_append_of_pos hspace,
    hsource.1, hsource.2, List.append_nil, length_spaces]

namespace Listing

/-- What is read of code whose fields end in an empty one. -/
theorem parse_of_fields {code : Bytes} {texts : List Bytes} (hcode : code ≠ [])
    (h : fields Byte.lineFeed code = texts ++ [[]]) :
    parse code = ⟨texts.map Line.parse, true⟩ := by
  simp [parse, h, hcode]

/-- What is read of code whose last field is not empty. -/
theorem parse_of_getLast {code : Bytes}
    (h : (fields Byte.lineFeed code).getLast? ≠ some []) :
    parse code = ⟨(fields Byte.lineFeed code).map Line.parse, false⟩ := by
  simp [parse, h]

/-- Texts without line feeds that are each closed by one are read as one line each. -/
theorem parse_flatMap_closed {texts : List Bytes} (h : ∀ text ∈ texts, Byte.lineFeed ∉ text) :
    parse (texts.flatMap fun text => text ++ [Byte.lineFeed])
      = ⟨texts.map Line.parse, !texts.isEmpty⟩ := by
  cases texts with
  | nil => rfl
  | cons text rest =>
    have hfields := fields_flatMap_closed h
    have hcode : (text :: rest).flatMap (fun text => text ++ [Byte.lineFeed]) ≠ [] := by
      simp
    rw [parse_of_fields hcode hfields]
    rfl

/-- Code that ends in a line feed is read as its fields before that line feed. -/
theorem parse_concat (code : Bytes) :
    parse (code ++ [Byte.lineFeed]) = ⟨(fields Byte.lineFeed code).map Line.parse, true⟩ := by
  have hfields : fields Byte.lineFeed (code ++ [Byte.lineFeed])
      = fields Byte.lineFeed code ++ [[]] := by
    rw [fields_append_separator]
    rfl
  exact parse_of_fields (by simp) hfields

/-- A listing is closed when its code ends in a line feed. -/
theorem closed_parse (code : Bytes) :
    (parse code).closed = (code.getLast? == some Byte.lineFeed) := by
  by_cases hlast : code.getLast? = some Byte.lineFeed
  · rcases List.getLast?_eq_some_iff.1 hlast with ⟨start, rfl⟩
    rw [parse_concat, hlast, beq_self_eq_true]
  · have hopen : (code.getLast? == some Byte.lineFeed) = false := beq_eq_false_iff_ne.2 hlast
    rw [hopen]
    by_cases hfields : (fields Byte.lineFeed code).getLast? = some []
    · -- An empty field at the end of a text stands behind a line feed, or is the whole text.
      have hcode := intercalate_fields Byte.lineFeed code
      rcases List.getLast?_eq_some_iff.1 hfields with ⟨texts, htexts⟩
      rw [htexts] at hcode
      cases texts with
      | nil =>
        obtain rfl : code = [] := by simpa using hcode.symm
        rfl
      | cons text rest =>
        rw [intercalate_append_empty] at hcode
        rw [← hcode, List.getLast?_concat] at hlast
        exact absurd rfl hlast
    · rw [parse_of_getLast hfields]

/-- The lines that are read are the fields of the code. -/
theorem exists_of_mem_parse {code : Bytes} {line : Line} (h : line ∈ (parse code).lines) :
    ∃ text ∈ fields Byte.lineFeed code, Line.parse text = line := by
  unfold parse at h
  simp only [] at h
  split at h
  · rcases List.mem_map.1 h with ⟨text, htext, rfl⟩
    exact ⟨text, (List.dropLast_sublist _).subset htext, rfl⟩
  · exact List.mem_map.1 h

/-- Reading lines adds no byte to their bodies. -/
theorem body_subset_of_mem_parse {code : Bytes} {line : Line} (h : line ∈ (parse code).lines) :
    line.body ⊆ code := by
  rcases exists_of_mem_parse h with ⟨text, htext, rfl⟩
  intro c hc
  exact (isInfix_of_mem_fields htext).subset (Line.body_parse_subset text hc)

/-- Code that is not empty has a line. -/
theorem lines_parse_ne_nil {code : Bytes} (h : code ≠ []) : (parse code).lines ≠ [] := by
  by_cases hlast : (fields Byte.lineFeed code).getLast? = some []
  · rcases List.getLast?_eq_some_iff.1 hlast with ⟨texts, htexts⟩
    rw [parse_of_fields h htexts]
    rintro hnil
    have hempty : texts = [] := by simpa using hnil
    rw [hempty] at htexts
    exact h (eq_nil_of_fields_eq htexts)
  · rw [parse_of_getLast hlast]
    simpa using fields_ne_nil Byte.lineFeed code

/-- The lines of a text are the field that starts at a position and the lines behind it. -/
theorem lines_parse_drop {code : Bytes} {start : Nat} (h : start < code.length) :
    (parse (code.drop start)).lines
      = Line.parse (code.extract start (fieldEnd Byte.lineFeed code start))
        :: (parse (code.drop (fieldEnd Byte.lineFeed code start + 1))).lines := by
  have hfields := @fields_drop Byte.lineFeed code start (Nat.le_of_lt h)
  split at hfields
  · next hstop =>
    rcases List.exists_cons_of_ne_nil (fields_ne_nil Byte.lineFeed
      (code.drop (fieldEnd Byte.lineFeed code start + 1))) with ⟨text, texts, htexts⟩
    rw [htexts] at hfields
    simp only [parse, hfields, htexts, List.getLast?_cons_cons]
    split
    · rfl
    · rfl
  · next hstop =>
    have hrest : code.drop (fieldEnd Byte.lineFeed code start + 1) = [] :=
      List.drop_of_length_le (by omega)
    have hlast : (fields Byte.lineFeed (code.drop start)).getLast? ≠ some [] := by
      intro hempty
      rw [hfields, List.getLast?_singleton, Option.some.injEq] at hempty
      rw [hempty] at hfields
      have hnil := eq_nil_of_fields_eq hfields
      rw [List.drop_eq_nil_iff] at hnil
      omega
    rw [hrest, parse_of_getLast hlast, hfields]
    rfl

/-- Closed code is read on its own: its lines stand before those of what follows. -/
theorem parse_append (code rest : Bytes) (hrest : rest ≠ []) :
    parse (code ++ [Byte.lineFeed] ++ rest)
      = ⟨(parse (code ++ [Byte.lineFeed])).lines ++ (parse rest).lines,
          (parse rest).closed⟩ := by
  have hfields : fields Byte.lineFeed (code ++ [Byte.lineFeed] ++ rest)
      = fields Byte.lineFeed code ++ fields Byte.lineFeed rest := by
    rw [List.append_assoc, List.singleton_append, fields_append_separator]
  rw [parse_concat]
  by_cases hlast : (fields Byte.lineFeed rest).getLast? = some []
  · rcases List.getLast?_eq_some_iff.1 hlast with ⟨texts, htexts⟩
    rw [htexts, ← List.append_assoc] at hfields
    rw [parse_of_fields (by simp) hfields, parse_of_fields hrest htexts, List.map_append]
  · have hwhole : (fields Byte.lineFeed (code ++ [Byte.lineFeed] ++ rest)).getLast?
        ≠ some [] := by
      have hsome := List.getLast?_eq_some_getLast (fields_ne_nil Byte.lineFeed rest)
      rw [hfields, List.getLast?_append, hsome, Option.some_or, ← hsome]
      exact hlast
    rw [parse_of_getLast hwhole, parse_of_getLast hlast, hfields, List.map_append]

/-! ## Writing -/

/-- A line is written with a line feed if it is not the last one or the listing is closed. -/
theorem chunksOf_cons (closed : Bool) (line : Line) (rest : List Line) :
    chunksOf closed (line :: rest)
      = (line.print ++ if !rest.isEmpty || closed then [Byte.lineFeed] else [])
        :: chunksOf closed rest := by
  cases rest with
  | nil => cases closed <;> simp [chunksOf]
  | cons next others => rfl

/-- The chunks of joined lines are those of the parts; only the last line can be
without a line feed. -/
theorem chunksOf_append (closed : Bool) (first : List Line) {second : List Line}
    (h : second ≠ []) :
    chunksOf closed (first ++ second) = chunksOf true first ++ chunksOf closed second := by
  induction first with
  | nil => rfl
  | cons line rest ih =>
    cases rest with
    | nil =>
      rcases List.exists_cons_of_ne_nil h with ⟨next, others, rfl⟩
      rfl
    | cons next others =>
      simp only [List.cons_append, chunksOf] at ih ⊢
      rw [ih]

/-- All lines of a closed listing end in a line feed. -/
theorem chunksOf_true (lines : List Line) :
    chunksOf true lines = lines.map fun line => line.print ++ [Byte.lineFeed] := by
  induction lines with
  | nil => rfl
  | cons line rest ih =>
    cases rest with
    | nil => rfl
    | cons next others =>
      simp only [chunksOf, List.map_cons] at ih ⊢
      rw [ih]

end Listing

end TemplateCompiler
