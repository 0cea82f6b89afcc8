import TemplateCompiler.Proofs.Code.Finishing
import TemplateCompiler.Proofs.Code.StatementLines
import TemplateCompiler.Proofs.Code.Trimming

/-!
# Marks that are found

A scan for marks passes over escapes and interpolations as a whole, and would miss a mark
inside of one.  The written form of a text has no mark there: every escape stands for one byte
of the text, and no interpolation is opened.  Dropping blanks and joining literals leaves such
a form, since both only happen where the scan stands.

Main results:

- Theorem {lit}`Scannable.skip`: a unit that is passed over hides no mark, and what follows it
  can be scanned in turn.
- Theorem {lit}`Cursor.Move.sweeps`: no move of a cursor leaves a mark behind.
- Theorem {lit}`TrimPass.unmarked_finish`: where all marks stand in pushed text, none is
  written.
-/

namespace TemplateCompiler

namespace Literal

/-- Only marks are written with a mark in them. -/
theorem unmarked_escapeByte {c : UInt8} (hleft : c ≠ leftMark) (hright : c ≠ rightMark)
    (next : Option UInt8) : Unmarked (escapeByte c next) := by
  rcases escapeByte_cases c next with ⟨hwritten, -, -⟩ | ⟨d, hwritten, hd⟩
  · rw [hwritten]
    exact ⟨by simpa using hleft.symm, by simpa using hright.symm⟩
  · have hall : (escapes.all fun pair => decide (Unmarked [Byte.backslash, pair.1])) = true := by
      decide
    rw [hwritten]
    simpa using List.all_eq_true.1 hall (d, c) hd

/-- What is written with a byte first that is no backslash starts with that byte. -/
theorem exists_of_escape_eq_cons {text rest : Bytes} {c : UInt8} (h : escape text = c :: rest)
    (hc : c ≠ Byte.backslash) : ∃ more, text = c :: more ∧ rest = escape more := by
  cases text with
  | nil => simp at h
  | cons d more =>
    rw [escape_cons] at h
    rcases escapeByte_cases d more.head? with ⟨hwritten, -, -⟩ | ⟨e, hwritten, -⟩
    · rw [hwritten, List.singleton_append, List.cons.injEq] at h
      exact ⟨more, by rw [h.1], h.2.symm⟩
    · rw [hwritten, List.cons_append, List.cons.injEq] at h
      exact absurd h.1.symm hc

end Literal

/-- Whether a scan from the start of some bytes misses no mark: there are none, or the bytes
are the written form of a text. -/
def Scannable (bytes : Bytes) : Prop :=
  Unmarked bytes ∨ ∃ text, bytes = Literal.escape text

namespace Scannable

theorem nil : Scannable [] :=
  .inl unmarked_nil

/-- A mark that is found can be taken out. -/
theorem of_cons_mark {c : UInt8} {rest : Bytes} (h : Scannable (c :: rest))
    (hc : c = leftMark ∨ c = rightMark) : Scannable rest := by
  rcases h with h | ⟨text, htext⟩
  · rcases h.ne_of_mem List.mem_cons_self with ⟨hleft, hright⟩
    exact absurd hc (not_or.2 ⟨hleft, hright⟩)
  · have hslash : c ≠ Byte.backslash := by
      rcases hc with rfl | rfl <;> decide
    rcases Literal.exists_of_escape_eq_cons htext.symm hslash with ⟨more, -, hrest⟩
    exact .inr ⟨more, hrest⟩

/-- A unit that is passed over hides no mark, and what follows it can be scanned in turn. -/
theorem skip {c : UInt8} {rest : Bytes} (h : Scannable (c :: rest)) (hleft : c ≠ leftMark)
    (hright : c ≠ rightMark) (literal : Bool) :
    Unmarked ((c :: rest).take (unitLength literal (c :: rest)))
      ∧ Scannable ((c :: rest).drop (unitLength literal (c :: rest))) := by
  rcases h with h | ⟨text, htext⟩
  · exact ⟨h.of_subset (List.take_sublist _ _).subset,
      .inl (h.of_subset (List.drop_sublist _ _).subset)⟩
  · cases text with
    | nil => simp at htext
    | cons d more =>
      have hmark : d ≠ leftMark ∧ d ≠ rightMark := by
        -- Marks are written as they are, and the first byte is none.
        constructor
        · rintro rfl
          rw [Literal.escape_cons, Literal.escapeByte_of_not_mem (by decide)] at htext
          exact hleft (List.cons.inj htext).1
        · rintro rfl
          rw [Literal.escape_cons, Literal.escapeByte_of_not_mem (by decide)] at htext
          exact hright (List.cons.inj htext).1
      have hunit : unitLength literal (Literal.escapeByte d more.head? ++ Literal.escape more)
          = (Literal.escapeByte d more.head?).length :=
        unitLength_escapeByte (Literal.head?_escape more)
      rw [htext, Literal.escape_cons, hunit, List.take_left, List.drop_left]
      exact ⟨Literal.unmarked_escapeByte hmark.1 hmark.2 _, .inr ⟨more, rfl⟩⟩

/-- Dropping blanks where a scan stands leaves what can be scanned. -/
theorem dropBlanksAfter {after : Bytes} (h : Scannable after) :
    Scannable (TemplateCompiler.dropBlanksAfter after) := by
  rcases h with h | ⟨text, rfl⟩
  · exact .inl (h.of_subset (Condenses.dropBlanksAfter after).sublist.subset)
  · exact .inr ⟨trimStart text, dropBlanksAfter_escape text⟩

end Scannable

/-! ## Cursors -/

namespace Cursor

/-- Whether a cursor has left no mark behind it, and can scan what is ahead of it. -/
structure Sweeps (cursor : Cursor) : Prop where
  above : ∀ line ∈ cursor.above, Unmarked line.body
  before : Unmarked cursor.before
  after : Scannable cursor.after
  below : ∀ line ∈ cursor.below, Scannable line.body

/-- Joining upwards brings in no mark. -/
theorem unmarked_pullBack {indent : Nat} {above : List Line} {before : Bytes}
    (habove : ∀ line ∈ above, Unmarked line.body) (hbefore : Unmarked before) :
    (∀ line ∈ (pullBack indent above before).1, Unmarked line.body)
      ∧ Unmarked (pullBack indent above before).2 := by
  have hgathered := gathered_pullBack indent above before []
  have hlines : ∀ line ∈ above.reverse ++ [⟨indent, true, before.reverse ++ []⟩],
      Unmarked line.body := by
    intro line hmem
    rcases List.mem_append.1 hmem with hmem | hmem
    · exact habove line (List.mem_reverse.1 hmem)
    · rw [List.mem_singleton.1 hmem]
      exact hbefore.of_subset (by simp)
  have hresults := fun line hmem => And.intro
    (hgathered.not_mem_body (fun other hother => (hlines other hother).1) line hmem)
    (hgathered.not_mem_body (fun other hother => (hlines other hother).2) line hmem)
  constructor
  · intro line hmem
    exact hresults line (List.mem_append_left _ (List.mem_reverse.2 hmem))
  · have hlast := hresults _ (List.mem_append_right _ List.mem_cons_self)
    simpa [Unmarked] using hlast

/-- Joining downwards leaves what can be scanned. -/
theorem scannable_pullAhead {indent : Nat} {after : Bytes} {below : List Line}
    (hafter : Scannable after) (hbelow : ∀ line ∈ below, Scannable line.body) :
    Scannable (pullAhead indent after below).1
      ∧ ∀ line ∈ (pullAhead indent after below).2, Scannable line.body := by
  fun_induction pullAhead indent after below with
  | case1 after => exact ⟨hafter.dropBlanksAfter, hbelow⟩
  | case2 after line below hnil hjoin ih =>
    rw [List.forall_mem_cons] at hbelow
    exact ih hbelow.1 hbelow.2
  | case3 after line below hnil hjoin => exact ⟨.nil, hbelow⟩
  | case4 after line below c kept hkept =>
    have hdropped := hafter.dropBlanksAfter
    rw [hkept] at hdropped
    exact ⟨hdropped, hbelow⟩

/-- No move of a cursor leaves a mark behind. -/
theorem Move.sweeps {cursor cursor' : Cursor} (h : Move cursor cursor') (hsweeps : cursor.Sweeps) :
    cursor'.Sweeps := by
  obtain ⟨habove, hbefore, hafter, hbelow⟩ := hsweeps
  cases h with
  | @enter line below hend hnext =>
    rw [hnext, List.forall_mem_cons] at hbelow
    refine ⟨?_, unmarked_nil, hbelow.1, hbelow.2⟩
    rw [Cursor.enter, List.forall_mem_cons]
    refine ⟨?_, habove⟩
    rw [Cursor.line, hend, List.append_nil]
    exact hbefore.of_subset (List.reverse_perm _).subset
  | dropMark hfirst hmark hliteral =>
    rw [hfirst] at hafter
    exact ⟨habove, hbefore, hafter.of_cons_mark hmark, hbelow⟩
  | trimBefore hfirst hliteral =>
    rw [hfirst] at hafter
    rcases unmarked_pullBack habove hbefore with ⟨habove', hbefore'⟩
    exact ⟨habove', hbefore', hafter.of_cons_mark (.inl rfl), hbelow⟩
  | trimAfter hfirst hliteral =>
    rw [hfirst] at hafter
    rcases scannable_pullAhead (hafter.of_cons_mark (.inr rfl)) hbelow with ⟨hafter', hbelow'⟩
    exact ⟨habove, hbefore, hafter', hbelow'⟩
  | @skip c rest hfirst hleft hright =>
    rw [hfirst] at hafter
    rcases hafter.skip hleft hright cursor.literal with ⟨hpassed, hahead⟩
    rw [← hfirst] at hpassed hahead
    refine ⟨habove, ?_, hahead, hbelow⟩
    exact unmarked_append_iff.2 ⟨hpassed.of_subset (List.reverse_perm _).subset, hbefore⟩

/-- A cursor that sweeps takes all marks out. -/
theorem Sweeps.unmarked_run {cursor : Cursor} (h : cursor.Sweeps) :
    ∀ line ∈ cursor.run, Unmarked line.body := by
  fun_induction run cursor with
  | case1 cursor hnext =>
    rcases (next_eq_none_iff cursor).1 hnext with ⟨hafter, hbelow⟩
    intro line hmem
    rw [lines, hbelow] at hmem
    rcases List.mem_append.1 hmem with hmem | hmem
    · exact h.above line (List.mem_reverse.1 hmem)
    · rw [List.mem_singleton.1 hmem, Cursor.line, hafter, List.append_nil]
      exact h.before.of_subset (List.reverse_perm _).subset
  | case2 cursor cursor' hnext ih => exact ih ((move_of_next_eq hnext).sweeps h)

end Cursor

/-- Resolving marks leaves none in lines that can be scanned. -/
theorem unmarked_resolveMarks {lines : List Line} (h : ∀ line ∈ lines, Scannable line.body) :
    ∀ line ∈ resolveMarks lines, Unmarked line.body := by
  cases lines with
  | nil => simp [resolveMarks]
  | cons line below =>
    rw [List.forall_mem_cons] at h
    have hsweeps : (Cursor.enter [] line below).Sweeps :=
      ⟨by simp [Cursor.enter], unmarked_nil, h.1, h.2⟩
    exact hsweeps.unmarked_run

/-! ## Code that is written -/

private theorem Line.unmarked_print {line : Line} (h : Unmarked line.body) :
    Unmarked line.print := by
  have hopening : Unmarked pushOpening := by decide
  have hquote : Unmarked [Byte.quote] := by decide
  rw [print, unmarked_append_iff]
  refine ⟨unmarked_spaces line.indent, ?_⟩
  split
  · rw [pushLiteral, unmarked_append_iff, unmarked_append_iff]
    exact ⟨⟨hopening, h⟩, hquote⟩
  · exact h

private theorem Listing.unmarked_chunksOf {closed : Bool} {lines : List Line}
    (h : ∀ line ∈ lines, Unmarked line.body) : Unmarked (chunksOf closed lines).flatten := by
  have hfeed : Unmarked [Byte.lineFeed] := by decide
  cases lines with
  | nil => exact unmarked_nil
  | cons line rest =>
    rw [flatten_chunksOf, unmarked_append_iff]
    constructor
    · refine unmarked_intercalate hfeed ?_
      intro word hword
      rcases List.mem_map.1 hword with ⟨other, hother, rfl⟩
      exact Line.unmarked_print (h other hother)
    · split
      · exact hfeed
      · exact unmarked_nil

/-- A line of code in which marks stand only in the text of a push: such a push of any text, or
any line without marks. -/
inductive MarksInText : Bytes → Prop
  | push (margin : Margin) (text : Bytes) :
      MarksInText (Statement.text ⟨margin, .pushText text⟩)
  | unmarked {line : Bytes} (h : Unmarked line) (hline : Byte.lineFeed ∉ line) : MarksInText line

namespace MarksInText

private theorem lineFeed_not_mem {line : Bytes} (h : MarksInText line) : Byte.lineFeed ∉ line := by
  cases h with
  | push margin text =>
    rw [Statement.text, List.mem_append, not_or]
    exact ⟨lineFeed_not_mem_spaces _,
      lineFeed_not_mem_pushLiteral (Literal.lineFeed_not_mem_escape _)⟩
  | unmarked h hline => exact hline

/-- The body of a line with marks in text only can be scanned. -/
theorem scannable {line : Bytes} (h : MarksInText line) : Scannable (Line.parse line).body := by
  cases h with
  | push margin text =>
    have hparse := Line.parse_push margin.code (Literal.escape (spaces margin.markup ++ text))
    exact .inr ⟨_, congrArg Line.body hparse⟩
  | unmarked h hline => exact .inl (h.of_subset (Line.body_parse_subset line))

end MarksInText

/-- Where all marks stand in pushed text, a trim pass writes none, in whatever pieces the lines
were written to it. -/
theorem TrimPass.unmarked_finish {pieces lines : List Bytes}
    (hlines : ∀ line ∈ lines, MarksInText line)
    (hpieces : pieces.flatten = lines.flatMap fun line => line ++ [Byte.lineFeed]) :
    Unmarked (pieces.foldl write {}).finish.1.flatten := by
  have hclosed : ∀ line ∈ lines, Byte.lineFeed ∉ line := fun line hmem =>
    (hlines line hmem).lineFeed_not_mem
  rw [finish_foldl_write, trimmedChunks, hpieces, Listing.parse_flatMap_closed hclosed]
  refine Listing.unmarked_chunksOf (unmarked_resolveMarks ?_)
  intro line hmem
  rcases List.mem_map.1 hmem with ⟨text, htext, rfl⟩
  exact (hlines text htext).scannable

/-- A text with marks between a hash sign and a brace and behind a backslash, a line that reads
as a literal and ends in an open escape, which the text takes in, a text that marks both its
ends, and a line that reads as a literal and opens an interpolation. -/
theorem TrimPass.unmarked_finish_of_open_escape :
    Unmarked ([ascii "  $o.push \"  #\x11\x7ba\\\\\x12 \"\n  $o.pu",
        ascii "sh \" \\\"\n  $o.push \"\x11\\\"#\x12\"\n",
        ascii "  $o.push \"\x7b #\x7b x\"\n"].foldl write {}).finish.1.flatten :=
  @unmarked_finish _
    [Statement.text ⟨⟨2, 2⟩, .pushText (ascii "#\x11\x7ba\\\x12 ")⟩, ascii "  $o.push \" \\\"",
      Statement.text ⟨⟨2, 0⟩, .pushText (ascii "\x11\"#\x12")⟩,
      ascii "  $o.push \"\x7b #\x7b x\""]
    (by
      simp only [List.forall_mem_cons]
      exact ⟨.push _ _, .unmarked (by decide) (by decide), .push _ _,
        .unmarked (by decide) (by decide), by simp⟩)
    (by decide)

end TemplateCompiler
