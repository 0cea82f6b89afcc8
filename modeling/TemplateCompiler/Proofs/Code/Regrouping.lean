import Mathlib.Data.List.Chain
import TemplateCompiler.Proofs.Code.PushRun
import TemplateCompiler.Proofs.Code.StatementLines

/-!
# Pushes with and without indentation

A value behind indentation is pushed inside a literal, and without indentation by itself.
Only literals are joined.  So where marks join a value behind indentation with its
neighbours, the same statements without their indentation stay apart: each line of the
first is as many lines of the second as it has pieces.

Main results:

- Theorem {lit}`Cursor.Tracks.step`: cursors in the two listings keep together.
- Theorem {lit}`exists_counterparts`: the lines that are left of statements without
  indentation are the pieces of those that are left of the statements with it.
-/

namespace TemplateCompiler

/-! ## Pieces -/

/-- A piece of what a line pushes. -/
inductive Push where
  /-- Text of a literal. -/
  | text (body : Bytes)
  /-- A value of host code. -/
  | value (source : Bytes)
deriving DecidableEq, Repr

namespace Push

/-- A piece inside a literal. -/
def inside : Push → Bytes
  | .text body => body
  | .value source => ascii "#\x7b" ++ source ++ ascii "\x7d"

/-- The line that pushes nothing but a piece. -/
def line (width : Nat) : Push → Line
  | .text body => ⟨width, true, body⟩
  | .value source => ⟨width, false, ascii "$o.push " ++ source⟩

def isText : Push → Bool
  | .text _ => true
  | .value _ => false

/-- Whether neighbouring pieces would be joined if they stood on lines of their own. -/
def Parted (first second : Push) : Prop :=
  ¬(first.isText = true ∧ second.isText = true)

end Push

/-- A statement without the indentation of its markup. -/
def Statement.flush (statement : Statement) : Statement :=
  { statement with margin := { statement.margin with markup := 0 } }

/-- A statement pushes a value behind indentation. -/
def Statement.Inserts (statement : Statement) (source : Bytes) : Prop :=
  statement.margin.markup ≠ 0
    ∧ ∃ code escaped, statement.action = .pushValue code escaped ∧ source = valueSource code escaped

/-- A line of indented code, and the lines that stand for it in code without
indentation. -/
structure Counterparts where
  indented : Line
  flush : List Line

/-- A group of statements pushes pieces that are parted, behind the indentation of the first
statement or behind none. -/
structure Statement.Pushes (group : List Statement) (width indent : Nat) (pushes : List Push) :
    Prop where
  ne_nil : group ≠ []
  width : ∀ statement ∈ group, statement.margin.code = width
  indent : indent = 0 ∨ ∃ statement ∈ group.head?, indent = statement.margin.markup
  parted : pushes.IsChain Push.Parted
  values : ∀ source, Push.value source ∈ pushes → ∃ statement ∈ group, statement.Inserts source

namespace Counterparts

private theorem reverse_indented_concat (results : List Counterparts) (last : Counterparts) :
    ((results ++ [last]).map indented).reverse
      = last.indented :: (results.map indented).reverse := by
  simp

private theorem reverse_flush_concat (results : List Counterparts) (last : Counterparts) :
    ((results ++ [last]).flatMap flush).reverse
      = last.flush.reverse ++ (results.flatMap flush).reverse := by
  simp

end Counterparts

/-- The counterparts of a group of statements: a line of pushed pieces and each piece on a
line of its own, or one line of host code. -/
inductive Statement.Regroups : List Statement → Counterparts → Prop
  | pushes {group : List Statement} {width indent : Nat} {pushes : List Push}
      (h : Pushes group width indent pushes) (hne : pushes ≠ []) :
      Regroups group ⟨⟨width, true, spaces indent ++ pushes.flatMap Push.inside⟩,
        pushes.map (Push.line width)⟩
  | code (statement : Statement) :
      Regroups [statement] ⟨⟨statement.margin.code, false, statement.source⟩,
        [⟨statement.margin.code, false, statement.flush.source⟩]⟩

/-- A group of statements of which the last one is not finished: the last piece that was
passed is a value. -/
structure Statement.Opens (group : List Statement) (width indent : Nat) (pushes : List Push) :
    Prop extends Statement.Pushes group width indent pushes where
  last : ∀ push ∈ pushes.getLast?, push.isText = false

namespace Statement.Pushes

variable {group : List Statement} {width indent : Nat} {pushes : List Push}

private theorem of_singleton (statement : Statement)
    (h : indent = 0 ∨ indent = statement.margin.markup) :
    Pushes [statement] statement.margin.code indent [] where
  ne_nil := by simp
  width := by simp
  indent := by simpa using h
  parted := .nil
  values := by simp

/-- A group may lose its indentation. -/
theorem unindent (h : Pushes group width indent pushes) : Pushes group width 0 pushes :=
  { h with indent := .inl rfl }

/-- More statements in a group. -/
theorem append (h : Pushes group width indent pushes) {more : List Statement}
    (hmore : ∀ statement ∈ more, statement.margin.code = width) :
    Pushes (group ++ more) width indent pushes where
  ne_nil := by simp [h.ne_nil]
  width := by
    intro statement hmem
    rcases List.mem_append.1 hmem with hmem | hmem
    · exact h.width statement hmem
    · exact hmore statement hmem
  indent := by
    rw [List.head?_append_of_ne_nil _ h.ne_nil]
    exact h.indent
  parted := h.parted
  values := by
    intro source hmem
    rcases h.values source hmem with ⟨statement, hstatement, hinserts⟩
    exact ⟨statement, List.mem_append_left _ hstatement, hinserts⟩

/-- One more value behind the pieces. -/
theorem concat_value (h : Pushes group width indent pushes) {source : Bytes}
    (hsource : ∃ statement ∈ group, statement.Inserts source) :
    Opens group width indent (pushes ++ [.value source]) where
  toPushes :=
    { h with
      parted := by
        rw [List.isChain_append]
        refine ⟨h.parted, .singleton _, ?_⟩
        intro last _ push hpush hboth
        obtain rfl : push = .value source := by simpa using hpush.symm
        simp [Push.isText] at hboth
      values := by
        intro other hmem
        rw [List.mem_append, List.mem_singleton, Push.value.injEq] at hmem
        rcases hmem with hmem | rfl
        · exact h.values other hmem
        · exact hsource }
  last := by
    intro push hpush
    obtain rfl : Push.value source = push := by simpa using hpush
    rfl

/-- The last piece taken off. -/
theorem dropLast {push : Push} (h : Pushes group width indent (pushes ++ [push])) :
    Pushes group width indent pushes :=
  { h with
    parted := (List.isChain_append.1 h.parted).1
    values := fun source hmem => h.values source (List.mem_append_left _ hmem) }

/-- Pieces that end in a value are open. -/
theorem opens_of_value {source : Bytes}
    (h : Pushes group width indent (pushes ++ [.value source])) :
    Opens group width indent (pushes ++ [.value source]) :=
  h.dropLast.concat_value (h.values source (by simp))

/-- Pieces in front of text are open. -/
theorem opens_of_text {body : Bytes} (h : Pushes group width indent (pushes ++ [.text body])) :
    Opens group width indent pushes where
  toPushes := h.dropLast
  last := by
    intro push hpush
    have hparted := (List.isChain_append.1 h.parted).2.2 push hpush _ rfl
    simpa [Push.Parted, Push.isText] using hparted

end Statement.Pushes

/-- A value on a line of its own. -/
theorem Statement.Regroups.value {statement : Statement} {source : Bytes}
    (h : statement.Inserts source) :
    Regroups [statement] ⟨⟨statement.margin.code, true,
        spaces statement.margin.markup ++ Push.inside (.value source)⟩,
      [Push.line statement.margin.code (.value source)]⟩ := by
  have hpushes := (Pushes.of_singleton statement (.inr rfl)).concat_value ⟨statement, by simp, h⟩
  simpa using Regroups.pushes hpushes.toPushes (by simp)

namespace Statement.Opens

variable {group : List Statement} {width indent : Nat} {pushes : List Push}

private theorem of_singleton (statement : Statement)
    (h : indent = 0 ∨ indent = statement.margin.markup) :
    Opens [statement] statement.margin.code indent [] :=
  ⟨.of_singleton statement h, by simp⟩

private theorem append (h : Opens group width indent pushes) {more : List Statement}
    (hmore : ∀ statement ∈ more, statement.margin.code = width) :
    Opens (group ++ more) width indent pushes :=
  ⟨h.toPushes.append hmore, h.last⟩

/-- One more text behind the pieces. -/
theorem concat_text (h : Opens group width indent pushes) (body : Bytes) :
    Pushes group width indent (pushes ++ [.text body]) :=
  { h.toPushes with
    parted := by
      rw [List.isChain_append]
      refine ⟨h.parted, .singleton _, ?_⟩
      intro last hlast push _ hboth
      rw [h.last last hlast] at hboth
      simp at hboth
    values := fun source hmem => h.values source (by simpa using hmem) }

/-- A group ends with text. -/
theorem close_text (h : Opens group width indent pushes) (body : Bytes) :
    Regroups group ⟨⟨width, true, spaces indent ++ pushes.flatMap Push.inside ++ body⟩,
      pushes.map (Push.line width) ++ [⟨width, true, body⟩]⟩ := by
  have hclose := Regroups.pushes (h.concat_text body) (by simp)
  rw [List.flatMap_append, List.map_append, ← List.append_assoc] at hclose
  simpa [Push.inside, Push.line] using hclose

/-- A group ends with text and a value. -/
theorem close_value (h : Opens group width indent pushes) {source : Bytes}
    (hsource : ∃ statement ∈ group, statement.Inserts source) (body : Bytes) :
    Regroups group ⟨⟨width, true, spaces indent ++ pushes.flatMap Push.inside ++ body
        ++ Push.inside (.value source)⟩,
      pushes.map (Push.line width) ++ [⟨width, true, body⟩, Push.line width (.value source)]⟩ := by
  have hpushes := (h.concat_text body).concat_value hsource
  have hclose := Regroups.pushes hpushes.toPushes (by simp)
  rw [List.append_assoc, List.flatMap_append, List.map_append] at hclose
  simpa [Push.inside, Push.line] using hclose

end Statement.Opens

/-! ## The two lines of a statement -/

namespace Statement

/-- A statement as a line. -/
def indentedLine (statement : Statement) : Line :=
  Line.parse statement.text

/-- A statement without indentation as a line. -/
def flushLine (statement : Statement) : Line :=
  Line.parse statement.flush.text

end Statement

/-- What the two lines of a statement are: text behind indentation and without it, a value
inside a literal and by itself, or host code that is no literal. -/
inductive Statement.Splits (statement : Statement) : Prop
  | text {indent : Nat} {body : Bytes} (hindent : indent = 0 ∨ indent = statement.margin.markup)
      (hindented : statement.indentedLine = ⟨statement.margin.code, true, spaces indent ++ body⟩)
      (hflush : statement.flushLine = ⟨statement.margin.code, true, body⟩)
  | value {source : Bytes} (hinserts : statement.Inserts source) (hsource : Unmarked source)
      (hindented : statement.indentedLine = ⟨statement.margin.code, true,
        spaces statement.margin.markup ++ Push.inside (.value source)⟩)
      (hflush : statement.flushLine = Push.line statement.margin.code (.value source))
  | code (hsource : Unmarked statement.source) (hflushSource : Unmarked statement.flush.source)
      (hindented : statement.indentedLine = ⟨statement.margin.code, false, statement.source⟩)
      (hflush : statement.flushLine = ⟨statement.margin.code, false, statement.flush.source⟩)

/-- Both lines of a statement stand at its code indentation. -/
theorem Statement.Splits.indents {statement : Statement} (h : statement.Splits) :
    statement.indentedLine.indent = statement.margin.code
      ∧ statement.flushLine.indent = statement.margin.code := by
  cases h with
  | text _ hindented hflush | value _ _ hindented hflush | code _ _ hindented hflush =>
    rw [hindented, hflush]
    exact ⟨rfl, rfl⟩

private theorem Push.unmarked_inside {source : Bytes} (h : Unmarked source) :
    Unmarked (Push.inside (.value source)) := by
  have hopen : Unmarked (ascii "#\x7b") := by decide
  have hclose : Unmarked (ascii "\x7d") := by decide
  exact unmarked_append_iff.2 ⟨unmarked_append_iff.2 ⟨hopen, h⟩, hclose⟩

private theorem Push.unmarked_line {source : Bytes} (h : Unmarked source) (width : Nat) :
    Unmarked (Push.line width (.value source)).body := by
  have hpush : Unmarked (ascii "$o.push ") := by decide
  exact unmarked_append_iff.2 ⟨hpush, h⟩

/-! ## Blanks behind other text -/

/-- Whether a text, given last byte first, ends in no escape of what follows it. -/
def EndsPlain (before : Bytes) : Prop :=
  before.head? ≠ some Byte.backslash

private theorem endsInEscape_append {beyond : Bytes} (h : EndsPlain beyond) (before : Bytes) :
    endsInEscape (before ++ beyond) = endsInEscape before := by
  have htake : (before ++ beyond).takeWhile (· == Byte.backslash)
      = before.takeWhile (· == Byte.backslash) := by
    induction before with
    | nil =>
      cases beyond with
      | nil => rfl
      | cons c rest =>
        have hc : c ≠ Byte.backslash := by simpa [EndsPlain] using h
        simp [hc]
    | cons c rest ih =>
      rw [List.cons_append, List.takeWhile_cons, List.takeWhile_cons, ih]
  rw [endsInEscape, endsInEscape, htake]

/-- Dropping blanks goes on beyond a text of which nothing is left. -/
theorem dropBlanksBefore_append {beyond : Bytes} (h : EndsPlain beyond) (before : Bytes) :
    dropBlanksBefore (before ++ beyond)
      = match dropBlanksBefore before with
        | [] => dropBlanksBefore beyond
        | c :: kept => c :: kept ++ beyond := by
  fun_induction dropBlanksBefore before with
  | case1 => rfl
  | case2 c rest hblank ih =>
    rw [List.cons_append, dropBlanksBefore_cons_plain hblank, ih]
  | case3 c hblank =>
    refine dropBlanksBefore_cons_stop (by simpa using hblank) (.inr ?_)
    cases beyond with
    | nil => rfl
    | cons d rest =>
      have hd : d ≠ Byte.backslash := by simpa [EndsPlain] using h
      simp [endsInEscape, hd]
  | case4 c hblank d rest hescape ih =>
    rw [← ih, List.cons_append, List.cons_append, dropBlanksBefore, if_neg (by simpa using hblank)]
    have hbeyond := endsInEscape_append h (d :: rest)
    rw [List.cons_append] at hbeyond
    simp only [hbeyond, hescape, if_true]
  | case5 c hblank d rest hescape =>
    rw [List.cons_append, List.cons_append, dropBlanksBefore, if_neg (by simpa using hblank)]
    have hbeyond := endsInEscape_append h (d :: rest)
    rw [List.cons_append] at hbeyond
    simp only [hbeyond, hescape]
    rfl

private theorem dropBlanksBefore_spaces (width : Nat) : dropBlanksBefore (spaces width) = [] := by
  induction width with
  | zero => rfl
  | succ width ih =>
    rw [spaces, List.replicate_succ, dropBlanksBefore_cons_plain (by decide)]
    exact ih

private theorem dropBlanksAfter_spaces_append (width : Nat) (after : Bytes) :
    dropBlanksAfter (spaces width ++ after) = dropBlanksAfter after := by
  induction width with
  | zero => rfl
  | succ width ih =>
    rw [spaces, List.replicate_succ, List.cons_append, dropBlanksAfter_cons_plain (by decide)]
    exact ih

private theorem reverse_spaces (width : Nat) : (spaces width).reverse = spaces width :=
  List.reverse_replicate

/-- What a line starts with, last byte first: indentation and pieces. -/
def passedPushes (indent : Nat) (pushes : List Push) : Bytes :=
  (spaces indent ++ pushes.flatMap Push.inside).reverse

private theorem passedPushes_nil (indent : Nat) : passedPushes indent [] = spaces indent := by
  rw [passedPushes, List.flatMap_nil, List.append_nil, reverse_spaces]

private theorem passedPushes_concat (indent : Nat) (pushes : List Push) (push : Push) :
    passedPushes indent (pushes ++ [push]) = push.inside.reverse ++ passedPushes indent pushes := by
  rw [passedPushes, List.flatMap_append, List.flatMap_singleton, ← List.append_assoc,
    List.reverse_append, passedPushes]

private theorem passedPushes_concat_value (indent : Nat) (pushes : List Push) (source : Bytes) :
    ∃ rest, passedPushes indent (pushes ++ [.value source]) = Byte.closeBrace :: rest := by
  rw [passedPushes_concat, Push.inside, List.reverse_append]
  exact ⟨_, rfl⟩

/-- Pieces that end in a value are kept. -/
theorem dropBlanksBefore_concat_value (indent : Nat) (pushes : List Push) (source : Bytes) :
    dropBlanksBefore (passedPushes indent (pushes ++ [.value source]))
      = passedPushes indent (pushes ++ [.value source]) := by
  rcases passedPushes_concat_value indent pushes source with ⟨rest, hrest⟩
  rw [hrest]
  exact dropBlanksBefore_cons_stop (by decide) (.inl (by decide))

namespace Statement.Opens

variable {group : List Statement} {width indent : Nat} {pushes : List Push}

/-- The pieces that were passed are none, or end in a value. -/
theorem pushes_cases (h : Opens group width indent pushes) :
    pushes = [] ∨ ∃ others source, pushes = others ++ [.value source] := by
  rcases List.eq_nil_or_concat pushes with hnil | ⟨others, last, hlast⟩
  · exact .inl hnil
  · have htext := h.last last (by simp [hlast])
    cases last with
    | text body => simp [Push.isText] at htext
    | value source => exact .inr ⟨others, source, by simpa using hlast⟩

private theorem endsPlain (h : Opens group width indent pushes) :
    EndsPlain (passedPushes indent pushes) := by
  rcases h.pushes_cases with rfl | ⟨others, source, rfl⟩
  · rw [passedPushes_nil, EndsPlain]
    cases indent with
    | zero => simp [spaces]
    | succ indent =>
      rw [spaces, List.replicate_succ, List.head?_cons]
      decide
  · rcases passedPushes_concat_value indent others source with ⟨rest, hrest⟩
    rw [hrest, EndsPlain, List.head?_cons]
    decide

/-- Blanks behind indentation go with it. -/
theorem dropBlanksBefore_eq_nil (h : Opens group width indent []) {before : Bytes}
    (hbefore : dropBlanksBefore before = []) :
    dropBlanksBefore (before ++ passedPushes indent []) = [] := by
  rw [dropBlanksBefore_append h.endsPlain, hbefore, passedPushes_nil]
  exact dropBlanksBefore_spaces indent

end Statement.Opens

/-! ## Joining upwards -/

namespace Cursor

/-- Pulling back stops in a literal of which something is kept. -/
theorem pullBack_of_kept {indent : Nat} {before : Bytes} (h : dropBlanksBefore before ≠ [])
    (above : List Line) : pullBack indent above before = (above, dropBlanksBefore before) := by
  rcases List.exists_cons_of_ne_nil h with ⟨c, kept, hkept⟩
  cases above <;> simp [pullBack, hkept]

/-- Pulling back stops below a line that is not joined. -/
theorem pullBack_of_apart {indent : Nat} {before : Bytes} (h : dropBlanksBefore before = [])
    {line : Line} (hline : (line.literal && line.indent == indent) = false) (above : List Line) :
    pullBack indent (line :: above) before = (line :: above, []) := by
  simp [pullBack, h, hline]

/-- Pulling back goes on in a literal that is joined. -/
theorem pullBack_of_joins {indent : Nat} {before : Bytes} (h : dropBlanksBefore before = [])
    (body : Bytes) (above : List Line) :
    pullBack indent (⟨indent, true, body⟩ :: above) before
      = pullBack indent above body.reverse := by
  simp [pullBack, h]

/-- What was passed of two listings by cursors at the same place of a text: the lines above,
nearest first, and the bytes before, last byte first. -/
inductive Passed (items : List Statement) (width : Nat) :
    List Line × Bytes → List Line × Bytes → Prop
  | mk {upper group : List Statement} {results : List Counterparts} {indent : Nat}
      {pushes : List Push} (before : Bytes) (hitems : upper ++ group = items)
      (hupper : Grouped Statement.Regroups upper results)
      (hgroup : Statement.Opens group width indent pushes) :
      Passed items width
        ((results.map Counterparts.indented).reverse, before ++ passedPushes indent pushes)
        ((results.flatMap Counterparts.flush ++ pushes.map (Push.line width)).reverse, before)

/-- Blanks of the text itself, or all before a piece of the same line that is a value. -/
theorem Passed.pullBack_of_kept {items upper group : List Statement}
    {results : List Counterparts} {width indent : Nat} {pushes : List Push} {before : Bytes}
    (hitems : upper ++ group = items) (hupper : Grouped Statement.Regroups upper results)
    (hgroup : Statement.Opens group width indent pushes)
    (h : dropBlanksBefore before ≠ [] ∨ pushes ≠ []) :
    Passed items width
      (pullBack width (results.map Counterparts.indented).reverse
        (before ++ passedPushes indent pushes))
      (pullBack width (results.flatMap Counterparts.flush ++ pushes.map (Push.line width)).reverse
        before) := by
  have hdrop := dropBlanksBefore_append hgroup.endsPlain before
  cases hkept : dropBlanksBefore before with
  | cons c kept =>
    simp only [hkept] at hdrop
    rw [Cursor.pullBack_of_kept (by simp [hdrop]), hdrop,
      Cursor.pullBack_of_kept (by simp [hkept]), hkept]
    exact .mk (c :: kept) hitems hupper hgroup
  | nil =>
    simp only [hkept] at hdrop
    rcases hgroup.pushes_cases with rfl | ⟨others, source, rfl⟩
    · simp [hkept] at h
    · rw [dropBlanksBefore_concat_value] at hdrop
      have hne : dropBlanksBefore (before ++ passedPushes indent (others ++ [.value source]))
          ≠ [] := by
        rcases passedPushes_concat_value indent others source with ⟨rest, hrest⟩
        rw [hdrop, hrest]
        exact List.cons_ne_nil _ _
      have hflush : Cursor.pullBack width (results.flatMap Counterparts.flush
          ++ (others ++ [Push.value source]).map (Push.line width)).reverse before
          = ((results.flatMap Counterparts.flush
            ++ (others ++ [Push.value source]).map (Push.line width)).reverse, []) := by
        rw [List.map_append, ← List.append_assoc, List.reverse_append]
        exact pullBack_of_apart hkept rfl _
      rw [Cursor.pullBack_of_kept hne, hdrop, hflush]
      exact .mk [] hitems hupper hgroup

/-- Nothing is left of the text, and it stays apart from the lines above. -/
theorem Passed.of_opens {items upper group : List Statement} {results : List Counterparts}
    {width indent : Nat} (hitems : upper ++ group = items)
    (hupper : Grouped Statement.Regroups upper results)
    (hgroup : Statement.Opens group width indent []) :
    Passed items width ((results.map Counterparts.indented).reverse, [])
      ((results.flatMap Counterparts.flush).reverse, []) := by
  have hunindented : Statement.Opens group width 0 [] := ⟨hgroup.toPushes.unindent, hgroup.last⟩
  have hplace := Passed.mk [] hitems hupper hunindented
  simpa [passedPushes_nil, spaces] using hplace

/-- Joining upwards leads to the same place in both listings. -/
theorem Passed.pullBack {items upper group : List Statement} {results : List Counterparts}
    {width indent : Nat} {pushes : List Push} {before : Bytes} (hitems : upper ++ group = items)
    (hupper : Grouped Statement.Regroups upper results)
    (hgroup : Statement.Opens group width indent pushes) :
    Passed items width
      (pullBack width (results.map Counterparts.indented).reverse
        (before ++ passedPushes indent pushes))
      (pullBack width (results.flatMap Counterparts.flush ++ pushes.map (Push.line width)).reverse
        before) := by
  induction results using List.reverseRecOn generalizing upper group indent pushes before with
  | nil =>
    by_cases h : dropBlanksBefore before ≠ [] ∨ pushes ≠ []
    · exact pullBack_of_kept hitems hupper hgroup h
    · simp only [not_or, not_not] at h
      obtain ⟨hkept, rfl⟩ := h
      have hdrop := hgroup.dropBlanksBefore_eq_nil hkept
      have hstay := Passed.of_opens hitems hupper hgroup
      simpa [Cursor.pullBack, hkept, hdrop] using hstay
  | append_singleton results last ih =>
    by_cases h : dropBlanksBefore before ≠ [] ∨ pushes ≠ []
    · exact pullBack_of_kept hitems hupper hgroup h
    · simp only [not_or, not_not] at h
      obtain ⟨hkept, rfl⟩ := h
      have hdrop := hgroup.dropBlanksBefore_eq_nil hkept
      have hstay := Passed.of_opens hitems hupper hgroup
      rcases hupper.exists_append with ⟨first, second, rfl, hfirst, hsecond⟩
      rw [Counterparts.reverse_indented_concat, Counterparts.reverse_flush_concat] at hstay
      rw [List.map_nil, List.append_nil, Counterparts.reverse_indented_concat,
        Counterparts.reverse_flush_concat]
      cases hsecond.of_singleton with
      | code statement =>
        rw [List.reverse_singleton, List.singleton_append] at hstay ⊢
        rw [pullBack_of_apart hdrop rfl, pullBack_of_apart hkept rfl]
        exact hstay
      | @pushes _ width' indent' pushes' hpushes hne =>
        rcases List.eq_nil_or_concat' pushes' with rfl | ⟨others, push, rfl⟩
        · exact absurd rfl hne
        · simp only [List.map_append, List.map_singleton, List.reverse_append,
            List.reverse_singleton, List.cons_append, List.nil_append] at hstay ⊢
          by_cases hsame : width' = width
          · subst hsame
            rw [List.append_assoc] at hitems
            rw [pullBack_of_joins hdrop]
            change Passed items width'
              (Cursor.pullBack _ _ (passedPushes indent' (others ++ [push]))) _
            cases push with
            | text body =>
              rw [passedPushes_concat, Push.line, pullBack_of_joins hkept, ← List.reverse_append]
              exact ih hitems hfirst (hpushes.opens_of_text.append hgroup.width)
            | value source =>
              have hplace := @pullBack_of_kept _ _ _ _ _ _ _ [] hitems hfirst
                (hpushes.opens_of_value.append hgroup.width) (.inr (by simp))
              rw [Atom.pullBack_congr (hkept.trans rfl : _ = dropBlanksBefore [])]
              simpa using hplace
          · have hline : ((Push.line width' push).literal
                && (Push.line width' push).indent == width) = false := by
              cases push <;> simp [Push.line, hsame]
            rw [pullBack_of_apart hdrop (by simp [hsame]), pullBack_of_apart hkept hline]
            exact hstay

/-! ## Joining downwards -/

/-- Pulling ahead stops above a line that is not joined. -/
theorem pullAhead_of_apart {indent : Nat} {after : Bytes} (h : dropBlanksAfter after = [])
    {line : Line} (hline : (line.literal && line.indent == indent) = false) (below : List Line) :
    pullAhead indent after (line :: below) = ([], line :: below) := by
  simp [pullAhead, h, hline]

/-- Pulling ahead goes on in a literal that is joined. -/
theorem pullAhead_of_joins {indent : Nat} {after : Bytes} (h : dropBlanksAfter after = [])
    (body : Bytes) (below : List Line) :
    pullAhead indent after (⟨indent, true, body⟩ :: below) = pullAhead indent body below := by
  simp [pullAhead, h]

/-- What is ahead of cursors at the same place of two listings, when lines were joined from
below: the same text, or a value that is joined in the indented listing only. -/
inductive Ahead (items : List Statement) (width : Nat) :
    Bytes × List Line → Bytes × List Line → Prop
  | text (taken : List Statement) {below : List Statement} (after : Bytes)
      (hitems : taken ++ below = items)
      (htaken : ∀ statement ∈ taken, statement.margin.code = width) :
      Ahead items width (after, below.map Statement.indentedLine)
        (after, below.map Statement.flushLine)
  | value (taken : List Statement) {below : List Statement} {statement : Statement}
      {source : Bytes} (hitems : taken ++ statement :: below = items)
      (htaken : ∀ other ∈ taken, other.margin.code = width)
      (hwidth : statement.margin.code = width) (hinserts : statement.Inserts source)
      (hsource : Unmarked source)
      (hflush : statement.flushLine = Push.line width (.value source)) :
      Ahead items width (Push.inside (.value source), below.map Statement.indentedLine)
        ([], statement.flushLine :: below.map Statement.flushLine)

private theorem Ahead.cons {items : List Statement} {statement : Statement} {width : Nat}
    {indented flush : Bytes × List Line} (h : Ahead items width indented flush)
    (hwidth : statement.margin.code = width) :
    Ahead (statement :: items) width indented flush := by
  cases h with
  | text taken after hitems htaken =>
    refine .text (statement :: taken) after (by rw [List.cons_append, hitems]) ?_
    exact List.forall_mem_cons.2 ⟨hwidth, htaken⟩
  | value taken hitems htaken hother hinserts hsource hflush =>
    refine .value (statement :: taken) (by rw [List.cons_append, hitems]) ?_ hother hinserts hsource
      hflush
    exact List.forall_mem_cons.2 ⟨hwidth, htaken⟩

/-- Joining downwards leads to the same place in both listings, or to a value. -/
theorem ahead_pullAhead {items : List Statement} (h : ∀ statement ∈ items, statement.Splits)
    (width : Nat) (after : Bytes) :
    Ahead items width (pullAhead width after (items.map Statement.indentedLine))
      (pullAhead width after (items.map Statement.flushLine)) := by
  induction items generalizing after with
  | nil => exact .text [] _ rfl (by simp)
  | cons statement rest ih =>
    rw [List.forall_mem_cons] at h
    have hstay (kept : Bytes) : Ahead (statement :: rest) width
        (kept, statement.indentedLine :: rest.map Statement.indentedLine)
        (kept, statement.flushLine :: rest.map Statement.flushLine) :=
      .text [] kept rfl (by simp)
    rw [List.map_cons, List.map_cons]
    cases hkept : dropBlanksAfter after with
    | cons c kept =>
      have hpull (lines : List Line) : pullAhead width after lines = (c :: kept, lines) := by
        cases lines <;> simp [pullAhead, hkept]
      rw [hpull, hpull]
      exact hstay _
    | nil =>
      -- Only literals of the same indentation are joined.
      by_cases hwidth : statement.margin.code = width
      · cases h.1 with
        | text hindent hindented hflush =>
          rw [hindented, hflush, hwidth, pullAhead_of_joins hkept, pullAhead_of_joins hkept,
            Atom.pullAhead_congr (dropBlanksAfter_spaces_append _ _)]
          exact (ih h.2 _).cons hwidth
        | @value source hinserts hsource hindented hflush =>
          have hstop : dropBlanksAfter (Push.inside (.value source))
              = Push.inside (.value source) :=
            dropBlanksAfter_cons_stop (by decide) (.inl (by decide))
          have hjoin : pullAhead width after
              (statement.indentedLine :: rest.map Statement.indentedLine)
              = (Push.inside (.value source), rest.map Statement.indentedLine) := by
            rw [hindented, hwidth, pullAhead_of_joins hkept,
              Atom.pullAhead_congr (dropBlanksAfter_spaces_append _ _),
              Atom.pullAhead_of_stop hstop (List.cons_ne_nil _ _)]
          have hapart : pullAhead width after (statement.flushLine :: rest.map Statement.flushLine)
              = ([], statement.flushLine :: rest.map Statement.flushLine) :=
            pullAhead_of_apart hkept (by rw [hflush]; rfl) _
          rw [hjoin, hapart]
          rw [hwidth] at hflush
          exact .value [] rfl (by simp) hwidth hinserts hsource hflush
        | code hsource hflushSource hindented hflush =>
          rw [pullAhead_of_apart hkept (by rw [hindented]; rfl),
            pullAhead_of_apart hkept (by rw [hflush]; rfl)]
          exact hstay []
      · rcases h.1.indents with ⟨hindented, hflush⟩
        rw [pullAhead_of_apart hkept (by simp [hindented, hwidth]),
          pullAhead_of_apart hkept (by simp [hflush, hwidth])]
        exact hstay []

/-! ## Moving in both listings -/

/-- Cursors that stand at the same place of two listings: in a text, or at the ends of
lines. -/
inductive Tracks (items : List Statement) : Cursor → Cursor → Prop
  | inText {passed below : List Statement} {width : Nat} {above above' : List Line}
      {before before' : Bytes} (after : Bytes) (hitems : passed ++ below = items)
      (hpassed : Passed passed width (above, before) (above', before'))
      (hbelow : ∀ statement ∈ below, statement.Splits) :
      Tracks items ⟨above, width, true, before, after, below.map Statement.indentedLine⟩
        ⟨above', width, true, before', after, below.map Statement.flushLine⟩
  | atEnd {passed below : List Statement} {results : List Counterparts} {line line' : Line}
      {above above' : List Line} (hitems : passed ++ below = items)
      (hpassed : Grouped Statement.Regroups passed results)
      (hindented : (results.map Counterparts.indented).reverse = line :: above)
      (hflush : (results.flatMap Counterparts.flush).reverse = line' :: above')
      (hbelow : ∀ statement ∈ below, statement.Splits) :
      Tracks items (leave above line (below.map Statement.indentedLine))
        (leave above' line' (below.map Statement.flushLine))

/-- Cursors whose runs leave counterparts. -/
def RunsTo (items : List Statement) (cursor cursor' : Cursor) : Prop :=
  ∃ results, Grouped Statement.Regroups items results
    ∧ cursor.run = results.map Counterparts.indented
    ∧ cursor'.run = results.flatMap Counterparts.flush

/-- Cursors that run on from another place, with less than the bound ahead. -/
def RunsOn (items : List Statement) (bound : Nat) (cursor cursor' : Cursor) : Prop :=
  ∃ next next', Tracks items next next' ∧ cursor.run = next.run ∧ cursor'.run = next'.run
    ∧ next'.remaining < bound

private theorem Passed.append {items taken : List Statement} {width : Nat}
    {indented flush : List Line × Bytes} (h : Passed items width indented flush)
    (htaken : ∀ statement ∈ taken, statement.margin.code = width) :
    Passed (items ++ taken) width indented flush := by
  cases h with
  | mk before hitems hupper hgroup =>
    exact .mk before (by rw [← hitems, List.append_assoc]) hupper (hgroup.append htaken)

/-- Statements that were passed, with one more group. -/
theorem Tracks.next {items passed group below : List Statement} {results : List Counterparts}
    (hitems : passed ++ group ++ below = items)
    (hpassed : Grouped Statement.Regroups passed results) {line line' : Line} (lines : List Line)
    (hgroup : Statement.Regroups group ⟨line, lines ++ [line']⟩)
    (hbelow : ∀ statement ∈ below, statement.Splits) :
    Tracks items
      (leave (results.map Counterparts.indented).reverse line (below.map Statement.indentedLine))
      (leave (results.flatMap Counterparts.flush ++ lines).reverse line'
        (below.map Statement.flushLine)) := by
  refine .atEnd hitems (hpassed.append (.single hgroup)) ?_ ?_ hbelow
  · simp
  · simp

/-- A statement without marks in either of its lines is passed as a whole. -/
theorem runsOn_of_unmarked {items passed below : List Statement} {statement : Statement}
    {results : List Counterparts} (hitems : passed ++ [statement] ++ below = items)
    (hpassed : Grouped Statement.Regroups passed results)
    (hgroup : Statement.Regroups [statement] ⟨statement.indentedLine, [statement.flushLine]⟩)
    (hindented : Unmarked statement.indentedLine.body) (hflush : Unmarked statement.flushLine.body)
    (hbelow : ∀ statement ∈ below, statement.Splits) :
    RunsOn items (extent ((statement :: below).map Statement.flushLine))
      (enter (results.map Counterparts.indented).reverse statement.indentedLine
        (below.map Statement.indentedLine))
      (enter (results.flatMap Counterparts.flush).reverse statement.flushLine
        (below.map Statement.flushLine)) := by
  refine ⟨_, _, Tracks.next hitems hpassed [] hgroup hbelow, run_enter_of_unmarked hindented _ _,
    ?_, ?_⟩
  · rw [List.append_nil]
    exact run_enter_of_unmarked hflush _ _
  · simp only [remaining, leave, extent, List.map_cons, List.length_nil]
    omega

/-- The lines of a statement are entered. -/
theorem runsOn_of_enter {items passed below : List Statement} {statement : Statement}
    {results : List Counterparts} (hitems : passed ++ statement :: below = items)
    (hpassed : Grouped Statement.Regroups passed results) (hstatement : statement.Splits)
    (hbelow : ∀ statement ∈ below, statement.Splits) :
    RunsOn items (extent ((statement :: below).map Statement.flushLine))
      (enter (results.map Counterparts.indented).reverse statement.indentedLine
        (below.map Statement.indentedLine))
      (enter (results.flatMap Counterparts.flush).reverse statement.flushLine
        (below.map Statement.flushLine)) := by
  have hnext : passed ++ [statement] ++ below = items := by simpa using hitems
  cases hstatement with
  | @text indent body hindent hindented hflush =>
    have hplace := Passed.mk [] rfl hpassed (Statement.Opens.of_singleton statement hindent)
    rw [List.map_nil, List.append_nil, List.nil_append, passedPushes_nil] at hplace
    refine ⟨_, _, Tracks.inText body hnext hplace hbelow, ?_, ?_, ?_⟩
    · have hspaces : ∀ c ∈ spaces indent, c ≠ leftMark ∧ c ≠ rightMark ∧ c ≠ Byte.backslash
          ∧ c ≠ Byte.hash := by
        intro c hc
        rw [List.eq_of_mem_replicate hc]
        decide
      rw [hindented, run_of_plain hspaces rfl]
      simp [skip, enter, reverse_spaces]
    · rw [hflush]
      rfl
    · simp only [remaining, extent, List.map_cons, hflush]
      omega
  | @value source hinserts hsource hindented hflush =>
    refine runsOn_of_unmarked hnext hpassed ?_ ?_ ?_ hbelow
    · rw [hindented, hflush]
      exact .value hinserts
    · rw [hindented]
      exact unmarked_append_iff.2 ⟨unmarked_spaces _, Push.unmarked_inside hsource⟩
    · rw [hflush]
      exact Push.unmarked_line hsource _
  | code hsource hflushSource hindented hflush =>
    refine runsOn_of_unmarked hnext hpassed ?_ ?_ ?_ hbelow
    · rw [hindented, hflush]
      exact .code statement
    · rw [hindented]
      exact hsource
    · rw [hflush]
      exact hflushSource

/-- From the ends of lines, the next lines are entered. -/
theorem runsOn_of_atEnd {items passed below : List Statement} {statement : Statement}
    {results : List Counterparts} {line line' : Line} {above above' : List Line}
    (hitems : passed ++ statement :: below = items)
    (hpassed : Grouped Statement.Regroups passed results)
    (hindented : (results.map Counterparts.indented).reverse = line :: above)
    (hflush : (results.flatMap Counterparts.flush).reverse = line' :: above')
    (hstatement : statement.Splits) (hbelow : ∀ statement ∈ below, statement.Splits) :
    RunsOn items (leave above' line' ((statement :: below).map Statement.flushLine)).remaining
      (leave above line ((statement :: below).map Statement.indentedLine))
      (leave above' line' ((statement :: below).map Statement.flushLine)) := by
  rcases runsOn_of_enter hitems hpassed hstatement hbelow with
    ⟨next, next', htracks, hrun, hrun', hless⟩
  rw [hindented, ← run_leave_cons] at hrun
  rw [hflush, ← run_leave_cons] at hrun'
  refine ⟨next, next', htracks, hrun, hrun', ?_⟩
  have hbound : (leave above' line' ((statement :: below).map Statement.flushLine)).remaining
      = extent ((statement :: below).map Statement.flushLine) := Nat.zero_add _
  rw [hbound]
  exact hless

/-- Text that was passed ends its line. -/
theorem Passed.close_text {passed : List Statement} {width : Nat} {above above' : List Line}
    {before before' : Bytes} (h : Passed passed width (above, before) (above', before')) :
    ∃ results, Grouped Statement.Regroups passed results
      ∧ (results.map Counterparts.indented).reverse = ⟨width, true, before.reverse⟩ :: above
      ∧ (results.flatMap Counterparts.flush).reverse
        = ⟨width, true, before'.reverse⟩ :: above' := by
  cases h with
  | @mk upper group results indent pushes before hitems hupper hgroup =>
    have hclose := hgroup.close_text before'.reverse
    refine ⟨_, hitems ▸ hupper.append (.single hclose), ?_, ?_⟩
    · simp [passedPushes]
    · simp

/-- A value that is joined to text that was passed ends the line. -/
theorem Passed.close_value {passed taken : List Statement} {statement : Statement} {width : Nat}
    {above above' : List Line} {before before' source : Bytes}
    (h : Passed passed width (above, before) (above', before'))
    (htaken : ∀ other ∈ taken ++ [statement], other.margin.code = width)
    (hinserts : statement.Inserts source) :
    ∃ results, Grouped Statement.Regroups (passed ++ (taken ++ [statement])) results
      ∧ (results.map Counterparts.indented).reverse
        = ⟨width, true, before.reverse ++ Push.inside (.value source)⟩ :: above
      ∧ (results.flatMap Counterparts.flush).reverse
        = Push.line width (.value source) :: ⟨width, true, before'.reverse⟩ :: above' := by
  cases h with
  | @mk upper group results indent pushes before hitems hupper hgroup =>
    have hclose := (hgroup.append htaken).close_value ⟨statement, by simp, hinserts⟩ before'.reverse
    have hresults := hupper.append (.single hclose)
    rw [← List.append_assoc, hitems] at hresults
    refine ⟨_, hresults, ?_, ?_⟩
    · simp [passedPushes]
    · simp

/-- A mark joins the text to what is below it: more text, or a value that ends the lines. -/
theorem runsOn_of_rightMark {items passed below : List Statement} {width : Nat}
    {above above' : List Line} {before before' : Bytes} {rest : Bytes}
    (hitems : passed ++ below = items)
    (hpassed : Passed passed width (above, before) (above', before'))
    (hbelow : ∀ statement ∈ below, statement.Splits) :
    RunsOn items ((rightMark :: rest).length + extent (below.map Statement.flushLine))
      ⟨above, width, true, before, rightMark :: rest, below.map Statement.indentedLine⟩
      ⟨above', width, true, before', rightMark :: rest, below.map Statement.flushLine⟩ := by
  let cursor : Cursor :=
    ⟨above, width, true, before, rightMark :: rest, below.map Statement.indentedLine⟩
  let cursor' : Cursor :=
    ⟨above', width, true, before', rightMark :: rest, below.map Statement.flushLine⟩
  have hmove : Move cursor _ := .trimAfter rfl rfl
  have hmove' : Move cursor' _ := .trimAfter rfl rfl
  have hremaining := next_remaining_lt hmove'.next_eq
  have hahead := ahead_pullAhead hbelow width rest
  simp only [Cursor.trimAfter, cursor, cursor'] at hmove hmove' hremaining
  generalize pullAhead width rest (below.map Statement.indentedLine) = indented at hahead hmove
  generalize pullAhead width rest (below.map Statement.flushLine) = flush
    at hahead hmove' hremaining
  cases hahead with
  | @text taken later after hbelow' htaken =>
    subst hbelow'
    rw [← List.append_assoc] at hitems
    exact ⟨_, _, .inText after hitems (hpassed.append htaken)
      fun other hmem => hbelow other (List.mem_append_right _ hmem),
      run_of_move hmove, run_of_move hmove', hremaining⟩
  | @value taken later statement source hbelow' htaken hwidth hinserts hsource hflush =>
    subst hbelow'
    have hitems' : passed ++ (taken ++ [statement]) ++ later = items := by
      rw [← hitems]
      simp
    have hwidths : ∀ other ∈ taken ++ [statement], other.margin.code = width := by
      intro other hmem
      rcases List.mem_append.1 hmem with hmem | hmem
      · exact htaken other hmem
      · rw [List.mem_singleton.1 hmem, hwidth]
    rcases hpassed.close_value hwidths hinserts with ⟨results, hresults, habove, habove'⟩
    rw [← hflush] at habove'
    refine ⟨_, _, .atEnd hitems' hresults habove habove' fun other hmem =>
      hbelow other (List.mem_append_right _ (List.mem_cons_of_mem _ hmem)), ?_, ?_, ?_⟩
    · have hpass := @run_of_unmarked ⟨above, width, true, before,
        Push.inside (.value source), later.map Statement.indentedLine⟩
        (Push.unmarked_inside hsource)
      rw [run_of_move hmove, hpass, skip_all]
      rfl
    · have hbody : Unmarked statement.flushLine.body := by
        rw [hflush]
        exact Push.unmarked_line hsource _
      have hleave := run_leave_cons above' ⟨width, true, before'.reverse⟩ statement.flushLine
        (later.map Statement.flushLine)
      rw [leave, List.reverse_reverse, run_enter_of_unmarked hbody] at hleave
      rw [run_of_move hmove', hleave]
    · simp only [remaining, leave, extent, List.length_nil, List.length_cons] at hremaining ⊢
      omega

/-- Cursors in a text move on together. -/
theorem runsOn_of_inText {items passed below : List Statement} {width : Nat}
    {above above' : List Line} {before before' : Bytes} {c : UInt8} {rest : Bytes}
    (hitems : passed ++ below = items)
    (hpassed : Passed passed width (above, before) (above', before'))
    (hbelow : ∀ statement ∈ below, statement.Splits) :
    RunsOn items ((c :: rest).length + extent (below.map Statement.flushLine))
      ⟨above, width, true, before, c :: rest, below.map Statement.indentedLine⟩
      ⟨above', width, true, before', c :: rest, below.map Statement.flushLine⟩ := by
  let cursor : Cursor := ⟨above, width, true, before, c :: rest, below.map Statement.indentedLine⟩
  let cursor' : Cursor := ⟨above', width, true, before', c :: rest, below.map Statement.flushLine⟩
  have hmoves {next next' : Cursor} (hnext : Move cursor next) (hnext' : Move cursor' next')
      (htracks : Tracks items next next') : RunsOn items cursor'.remaining cursor cursor' :=
    ⟨next, next', htracks, run_of_move hnext, run_of_move hnext', next_remaining_lt hnext'.next_eq⟩
  by_cases hleft : c = leftMark
  · subst hleft
    have hplace : Passed passed width (pullBack width above before)
        (pullBack width above' before') := by
      cases hpassed with
      | mk before hitems hupper hgroup => exact Passed.pullBack hitems hupper hgroup
    exact hmoves (.trimBefore rfl rfl) (.trimBefore rfl rfl) (.inText rest hitems hplace hbelow)
  · by_cases hright : c = rightMark
    · subst hright
      exact runsOn_of_rightMark hitems hpassed hbelow
    · have hmove : Move cursor _ := .skip rfl hleft hright
      have hmove' : Move cursor' _ := .skip rfl hleft hright
      refine hmoves hmove hmove' (.inText _ hitems ?_ hbelow)
      cases hpassed with
      | mk before hitems hupper hgroup =>
        rw [← List.append_assoc]
        exact .mk _ hitems hupper hgroup

/-- Cursors that stand at the same place run to counterparts, or run on together. -/
theorem Tracks.step {items : List Statement} {cursor cursor' : Cursor}
    (h : Tracks items cursor cursor') :
    RunsTo items cursor cursor' ∨ RunsOn items cursor'.remaining cursor cursor' := by
  have hend {passed below : List Statement} {results : List Counterparts} {line line' : Line}
      {above above' : List Line} (hitems : passed ++ below = items)
      (hpassed : Grouped Statement.Regroups passed results)
      (hindented : (results.map Counterparts.indented).reverse = line :: above)
      (hflush : (results.flatMap Counterparts.flush).reverse = line' :: above')
      (hbelow : ∀ statement ∈ below, statement.Splits) :
      RunsTo items (leave above line (below.map Statement.indentedLine))
          (leave above' line' (below.map Statement.flushLine))
        ∨ RunsOn items (leave above' line' (below.map Statement.flushLine)).remaining
          (leave above line (below.map Statement.indentedLine))
          (leave above' line' (below.map Statement.flushLine)) := by
    cases below with
    | nil =>
      left
      rw [List.append_nil] at hitems
      subst hitems
      refine ⟨results, hpassed, ?_, ?_⟩
      · rw [List.map_nil, run_leave_nil, ← hindented, List.reverse_reverse]
      · rw [List.map_nil, run_leave_nil, ← hflush, List.reverse_reverse]
    | cons statement below =>
      rw [List.forall_mem_cons] at hbelow
      exact .inr (runsOn_of_atEnd hitems hpassed hindented hflush hbelow.1 hbelow.2)
  cases h with
  | atEnd hitems hpassed hindented hflush hbelow =>
    exact hend hitems hpassed hindented hflush hbelow
  | inText after hitems hpassed hbelow =>
    cases after with
    | nil =>
      rcases hpassed.close_text with ⟨results, hresults, hindented, hflush⟩
      have hleave := hend hitems hresults hindented hflush hbelow
      simp only [leave, List.reverse_reverse] at hleave
      exact hleave
    | cons c rest => exact .inr (runsOn_of_inText hitems hpassed hbelow)

/-- Cursors that stand at the same place run to counterparts. -/
theorem Tracks.runsTo {items : List Statement} {cursor cursor' : Cursor}
    (h : Tracks items cursor cursor') : RunsTo items cursor cursor' := by
  induction hremaining : cursor'.remaining using Nat.strongRecOn generalizing cursor cursor' with
  | ind remaining ih =>
    rcases h.step with hdone | ⟨next, next', htracks, hrun, hrun', hless⟩
    · exact hdone
    · rcases ih next'.remaining (hremaining ▸ hless) htracks rfl with
        ⟨results, hresults, hindented, hflush⟩
      exact ⟨results, hresults, hrun.trans hindented, hrun'.trans hflush⟩

end Cursor

/-- The lines that are left of statements with indentation and without it are counterparts,
group by group. -/
theorem exists_counterparts {statements : List Statement}
    (h : ∀ statement ∈ statements, statement.Splits) :
    ∃ results, Grouped Statement.Regroups statements results
      ∧ resolveMarks (statements.map Statement.indentedLine) = results.map Counterparts.indented
      ∧ resolveMarks (statements.map Statement.flushLine)
        = results.flatMap Counterparts.flush := by
  cases statements with
  | nil => exact ⟨[], .nil, rfl, rfl⟩
  | cons statement rest =>
    rw [List.forall_mem_cons] at h
    rcases Cursor.runsOn_of_enter (List.nil_append (statement :: rest)) .nil h.1 h.2 with
      ⟨next, next', htracks, hrun, hrun', -⟩
    rcases htracks.runsTo with ⟨results, hresults, hindented, hflush⟩
    exact ⟨results, hresults, hrun.trans hindented, hrun'.trans hflush⟩

/-! ## Lines without their indentation -/

/-- A line is another one without the indentation of its markup: of the text or of the value
that is pushed, or of a call. -/
inductive Line.Unindents : Line → Line → Prop
  | text (width indent : Nat) (body : Bytes) :
      Unindents ⟨width, true, spaces indent ++ body⟩ ⟨width, true, body⟩
  | value (width indent : Nat) (source : Bytes) :
      Unindents ⟨width, true, spaces indent ++ Push.inside (.value source)⟩
        (Push.line width (.value source))
  | code (statement : Statement) :
      Unindents ⟨statement.margin.code, false, statement.source⟩
        ⟨statement.margin.code, false, statement.flush.source⟩

namespace Statement.Regroups

variable {group : List Statement} {indented : Line} {flush : List Line}

private theorem flush_ne_nil (h : Regroups group ⟨indented, flush⟩) : flush ≠ [] := by
  cases h with
  | pushes _ hne => simpa using hne
  | code => simp

/-- A line with one counterpart differs from it in its indentation. -/
theorem unindents {line : Line} (h : Regroups group ⟨indented, [line]⟩) :
    Line.Unindents indented line := by
  generalize hresult : Counterparts.mk indented [line] = result at h
  cases h with
  | @pushes _ width indent pushes hpushes hne =>
    simp only [Counterparts.mk.injEq] at hresult
    obtain ⟨hindented, hflush⟩ := hresult
    rcases List.map_eq_singleton_iff.1 hflush.symm with ⟨push, hpush, hline⟩
    rw [hindented, ← hline, hpush, List.flatMap_singleton]
    cases push with
    | text body => exact .text width indent body
    | value source => exact .value width indent source
  | code statement =>
    simp only [Counterparts.mk.injEq, List.cons.injEq, and_true] at hresult
    rw [hresult.1, hresult.2]
    exact .code statement

/-- Statements without values behind indentation leave one line. -/
theorem exists_eq_singleton (h : Regroups group ⟨indented, flush⟩)
    (hvalues : ∀ statement ∈ group, ∀ source, ¬statement.Inserts source) :
    ∃ line, flush = [line] := by
  cases h with
  | @pushes _ width indent pushes hpushes hne =>
    have htext : ∀ push ∈ pushes, push.isText = true := by
      intro push hmem
      cases push with
      | text body => rfl
      | value source =>
        rcases hpushes.values source hmem with ⟨statement, hstatement, hsource⟩
        exact absurd hsource (hvalues statement hstatement source)
    cases pushes with
    | nil => exact absurd rfl hne
    | cons first rest =>
      cases rest with
      | nil => exact ⟨_, rfl⟩
      | cons second rest =>
        have hparted := hpushes.parted
        rw [List.isChain_cons_cons] at hparted
        exact absurd ⟨htext first (by simp), htext second (by simp)⟩ hparted.1
  | code statement => exact ⟨_, rfl⟩

end Statement.Regroups

section Lines

variable {statements : List Statement} {results : List Counterparts}
  (h : Grouped Statement.Regroups statements results)

include h

/-- No line is lost when lines are cut into their pieces. -/
theorem length_le_length_flush : results.length ≤ (results.flatMap Counterparts.flush).length := by
  induction h with
  | nil => simp
  | @cons group rest result results hgroup hrest ih =>
    have hpos := List.length_pos_iff.2 hgroup.flush_ne_nil
    rw [List.flatMap_cons, List.length_append, List.length_cons]
    omega

/-- Counterparts differ line by line in their indentation exactly if they are as many
lines. -/
theorem length_flush_eq_iff :
    (results.flatMap Counterparts.flush).length = results.length ↔
      List.Forall₂ Line.Unindents (results.map Counterparts.indented)
        (results.flatMap Counterparts.flush) := by
  constructor
  · intro hlength
    induction h with
    | nil => exact .nil
    | @cons group rest result results hgroup hrest ih =>
      obtain ⟨indented, flush⟩ := result
      have hpos := List.length_pos_iff.2 hgroup.flush_ne_nil
      have hle := length_le_length_flush hrest
      rw [List.flatMap_cons, List.length_append, List.length_cons] at hlength
      have hone : flush.length = 1 := by
        simp only at hlength
        omega
      rcases List.length_eq_one_iff.1 hone with ⟨line, rfl⟩
      exact .cons hgroup.unindents (ih (by simp only [List.length_singleton] at hlength; omega))
  · intro hlines
    rw [← hlines.length_eq, List.length_map]

/-- Without values behind indentation the lines differ in their indentation only. -/
theorem forall₂_unindents
    (hvalues : ∀ statement ∈ statements, ∀ source, ¬statement.Inserts source) :
    List.Forall₂ Line.Unindents (results.map Counterparts.indented)
      (results.flatMap Counterparts.flush) := by
  induction h with
  | nil => exact .nil
  | @cons group rest result results hgroup hrest ih =>
    obtain ⟨indented, flush⟩ := result
    rcases hgroup.exists_eq_singleton fun statement hmem =>
      hvalues statement (List.mem_append_left _ hmem) with ⟨line, rfl⟩
    exact .cons hgroup.unindents
      (ih fun statement hmem => hvalues statement (List.mem_append_right _ hmem))

end Lines

end TemplateCompiler
