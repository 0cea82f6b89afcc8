import TemplateCompiler.Proofs.Code.Balance
import TemplateCompiler.Proofs.Code.Decoding
import Mathlib.Algebra.Group.Nat.Defs

/-!
# Bytes that are inserted in code

Code is folded into literals, literals into literals, and each time it is written in escapes.
What stands in the code before that is then inserted in the literal, in its written form.  A
line feed becomes an escape in a literal and an escaped backslash with a letter in any further
one.

Main results:

- Theorem {lit}`Literal.Inserted.escape`: where no hash sign meets an opening brace, the
  written form of a text with something inserted is that of the text with its written form
  inserted.
- Theorem {lit}`trimmed_ne_of_inserted`: a trim pass takes an inserted line feed out only where
  it stands in one literal, and only with a mark.
- Theorem {lit}`inserted_intercalate`: an empty one of several joined lines is one more line
  feed.
-/

namespace TemplateCompiler

/-! ## Inserted text -/

namespace Literal

/-- Whether a text starts with no brace that a hash sign before it could meet. -/
def Opens (text : Bytes) : Prop :=
  ∃ c ∈ text.head?, c ≠ Byte.openBrace

/-- Whether a text ends in no hash sign that could meet a brace after it. -/
def Closes (text : Bytes) : Prop :=
  ∃ c ∈ text.getLast?, c ≠ Byte.hash

/-- What stands behind an opening text does not matter. -/
theorem Opens.append {first : Bytes} (h : Opens first) (second : Bytes) :
    Opens (first ++ second) := by
  rcases h with ⟨c, hc, hne⟩
  exact ⟨c, List.mem_head?_append_of_mem_head? hc, hne⟩

/-- What stands in front of a closing text does not matter. -/
theorem Closes.append {second : Bytes} (h : Closes second) (first : Bytes) :
    Closes (first ++ second) := by
  rcases h with ⟨c, hc, hne⟩
  exact ⟨c, List.mem_getLast?_append_of_mem_getLast? hc, hne⟩

private theorem Opens.escape {text : Bytes} (h : Opens text) : Opens (Literal.escape text) := by
  rcases h with ⟨c, hc, hne⟩
  cases text with
  | nil => cases hc
  | cons d rest =>
    obtain rfl : d = c := by simpa using hc
    rw [escape_cons]
    rcases escapeByte_cases d rest.head? with ⟨hwritten, -, -⟩ | ⟨e, hwritten, -⟩
    · exact ⟨d, by simp [hwritten], hne⟩
    · exact ⟨Byte.backslash, by simp [hwritten], by decide⟩

private theorem Closes.escape {text : Bytes} (h : Closes text) : Closes (Literal.escape text) := by
  rcases h with ⟨c, hc, hne⟩
  rcases List.getLast?_eq_some_iff.1 hc with ⟨front, rfl⟩
  rcases escape_suffix_escape front [c] with ⟨written, hwritten⟩
  rw [← hwritten]
  apply Closes.append
  rw [escape_cons, escape_nil, List.append_nil]
  rcases escapeByte_cases c none with ⟨hlast, -, -⟩ | ⟨d, hlast, hd⟩
  · exact ⟨c, by simp [hlast], hne⟩
  · have hall : (escapes.all fun pair => pair.2 == Byte.hash || pair.1 != Byte.hash) = true := by
      decide
    have hpair := List.all_eq_true.1 hall (d, c) hd
    exact ⟨d, by simp [hlast], by simpa [hne] using hpair⟩

/-- Escaping goes through an append when the first part ends in no hash sign. -/
theorem escape_append_of_closes {first : Bytes} (h : Closes first) (second : Bytes) :
    Literal.escape (first ++ second) = Literal.escape first ++ Literal.escape second := by
  induction first with
  | nil => simp [Closes] at h
  | cons c rest ih =>
    cases rest with
    | nil =>
      have hc : c ≠ Byte.hash := by simpa [Closes] using h
      have hnext : escapeByte c second.head? = escapeByte c none := by
        simp [escapeByte, hc]
      simp [escape_cons, hnext]
    | cons d others =>
      have hrest : Closes (d :: others) := by simpa [Closes] using h
      rw [List.cons_append, escape_cons, escape_cons, ih hrest, List.append_assoc]
      rfl

/-- Whether no hash sign meets an opening brace where two texts are joined, whatever stands
before them and behind. -/
def Seam (first second : Bytes) : Prop :=
  Closes first ∨ Opens second

/-- Escaping goes through an append at a seam. -/
theorem Seam.escape_append {first second : Bytes} (h : Seam first second) :
    Literal.escape (first ++ second) = Literal.escape first ++ Literal.escape second := by
  rcases h with hcloses | ⟨c, hc, hne⟩
  · exact escape_append_of_closes hcloses second
  · apply escape_append_of_head
    intro hbrace
    rw [Option.mem_def.1 hc, Option.some.injEq] at hbrace
    exact hne hbrace

/-- Whether the first of two texts is the second one with some bytes inserted. -/
def Inserted (extra longer shorter : Bytes) : Prop :=
  ∃ before after, Seam before after ∧ longer = before ++ extra ++ after
    ∧ shorter = before ++ after

namespace Inserted

variable {extra longer shorter : Bytes}

/-- An insertion stays one between the same texts. -/
theorem surround (h : Inserted extra longer shorter) (front back : Bytes) :
    Inserted extra (front ++ longer ++ back) (front ++ shorter ++ back) := by
  rcases h with ⟨before, after, hseam, rfl, rfl⟩
  refine ⟨front ++ before, after ++ back, ?_, by simp, by simp⟩
  exact hseam.imp (fun hcloses => hcloses.append front) (fun hopens => hopens.append back)

/-- The written form of what is inserted is inserted in the written form. -/
theorem escape (h : Inserted extra longer shorter) (hopens : Opens extra)
    (hcloses : Closes extra) :
    Inserted (Literal.escape extra) (Literal.escape longer) (Literal.escape shorter) := by
  rcases h with ⟨before, after, hseam, rfl, rfl⟩
  have hbehind : Seam (before ++ extra) after := .inl (hcloses.append before)
  have hfront : Seam before extra := .inr hopens
  refine ⟨Literal.escape before, Literal.escape after, ?_, ?_, hseam.escape_append⟩
  · exact hseam.imp Closes.escape Opens.escape
  · rw [hbehind.escape_append, hfront.escape_append]

/-- An insertion of something changes a text. -/
theorem ne (h : Inserted extra longer shorter) (hextra : extra ≠ []) : longer ≠ shorter := by
  rcases h with ⟨before, after, -, rfl, rfl⟩
  intro heq
  have hlength := congrArg List.length heq
  have hpos := List.length_pos_iff.2 hextra
  simp only [List.length_append] at hlength
  omega

end Inserted

end Literal

/-- A line feed as it is written in so many literals, each in the next one. -/
def lineFeedIn : Nat → Bytes
  | 0 => [Byte.lineFeed]
  | depth + 1 => Literal.escape (lineFeedIn depth)

theorem opens_lineFeedIn (depth : Nat) : Literal.Opens (lineFeedIn depth) := by
  induction depth with
  | zero => exact ⟨Byte.lineFeed, rfl, by decide⟩
  | succ depth ih => exact ih.escape

theorem closes_lineFeedIn (depth : Nat) : Literal.Closes (lineFeedIn depth) := by
  induction depth with
  | zero => exact ⟨Byte.lineFeed, rfl, by decide⟩
  | succ depth ih => exact ih.escape

private theorem Literal.escape_replicate_backslash (count : Nat) (rest : Bytes) :
    escape (List.replicate count Byte.backslash ++ rest)
      = List.replicate (2 * count) Byte.backslash ++ escape rest := by
  induction count with
  | zero => rfl
  | succ count ih =>
    have hdouble : 2 * (count + 1) = 2 * count + 1 + 1 := by omega
    rw [List.replicate_succ, List.cons_append, escape_cons, ih, hdouble, List.replicate_succ,
      List.replicate_succ]
    rfl

/-- In literals a line feed is a letter behind backslashes, twice as many in each literal. -/
theorem lineFeedIn_eq (depth : Nat) :
    lineFeedIn (depth + 1) = List.replicate (2 ^ depth) Byte.backslash ++ ascii "n" := by
  induction depth with
  | zero => rfl
  | succ depth ih =>
    rw [lineFeedIn, ih, Literal.escape_replicate_backslash, Nat.pow_succ,
      Nat.mul_comm (2 ^ depth)]
    rfl

/-- Only in the innermost literal a line feed is written as one escape. -/
theorem balance_lineFeedIn (depth : Nat) :
    balance (lineFeedIn (depth + 1)) = ((2 ^ depth : Nat) : Int) - 1 := by
  have hletter : balance (ascii "n") = -1 := by decide
  have hnone : isBlankLetter Byte.backslash = false := by decide
  have hslashes : balance (List.replicate (2 ^ depth) Byte.backslash) = (2 ^ depth : Nat) := by
    simp [balance, List.countP_replicate, hnone]
  rw [lineFeedIn_eq, balance_append, hletter, hslashes]
  rfl

theorem lineFeedIn_ne_nil (depth : Nat) : lineFeedIn depth ≠ [] := by
  rcases opens_lineFeedIn depth with ⟨c, hc, -⟩
  intro hnil
  rw [hnil] at hc
  cases hc

private theorem unmarked_lineFeedIn (depth : Nat) : Unmarked (lineFeedIn (depth + 1)) := by
  have hslashes : Unmarked (List.replicate (2 ^ depth) Byte.backslash) :=
    ⟨fun hmem => absurd (List.eq_of_mem_replicate hmem) (by decide),
      fun hmem => absurd (List.eq_of_mem_replicate hmem) (by decide)⟩
  rw [lineFeedIn_eq]
  exact unmarked_append_iff.2 ⟨hslashes, by decide⟩

/-- A trim pass takes an inserted line feed out only where it stands in one literal, and only
with a mark. -/
theorem trimmed_ne_of_inserted {depth : Nat} {longer shorter : Bytes}
    (h : Literal.Inserted (lineFeedIn (depth + 1)) longer shorter)
    (hkept : 0 < depth ∨ Unmarked shorter) : trimmed longer ≠ trimmed shorter := by
  intro heq
  have hne := h.ne (lineFeedIn_ne_nil _)
  rcases h with ⟨before, after, -, rfl, rfl⟩
  rcases hkept with hdepth | hunmarked
  · have hbalance := congrArg balance heq
    simp only [balance_trimmed, balance_append, balance_lineFeedIn] at hbalance
    have hpow : 2 ^ 1 ≤ 2 ^ depth := Nat.pow_le_pow_right (by decide) hdepth
    omega
  · have hlonger : Unmarked (before ++ lineFeedIn (depth + 1) ++ after) := by
      simp only [unmarked_append_iff] at hunmarked ⊢
      exact ⟨⟨hunmarked.1, unmarked_lineFeedIn depth⟩, hunmarked.2⟩
    rw [trimmed_of_unmarked hlonger, trimmed_of_unmarked hunmarked] at heq
    exact hne heq

/-! ## Joined lines -/

private theorem intercalate_append {separator : Bytes} {first second : List Bytes}
    (hfirst : first ≠ [])
    (hsecond : second ≠ []) :
    separator.intercalate (first ++ second)
      = separator.intercalate first ++ separator ++ separator.intercalate second := by
  induction first with
  | nil => exact absurd rfl hfirst
  | cons word rest ih =>
    cases rest with
    | nil =>
      rcases List.exists_cons_of_ne_nil hsecond with ⟨next, others, rfl⟩
      rw [List.singleton_append, List.intercalate_cons_cons, List.intercalate_singleton]
    | cons next others =>
      rw [List.cons_append, List.cons_append, List.intercalate_cons_cons,
        List.intercalate_cons_cons, ← List.cons_append, ih (by simp)]
      simp only [List.append_assoc]

/-- One of several joined words stands between the same bytes, whatever it is. -/
theorem exists_intercalate_cons (separator : Bytes) (first second : List Bytes) :
    ∃ front back, ∀ word, separator.intercalate (first ++ word :: second)
      = front ++ word ++ back := by
  refine ⟨first.flatMap (· ++ separator), second.flatMap (separator ++ ·), fun word => ?_⟩
  rw [intercalate_append_cons, List.append_assoc]

private theorem intercalate_nil_cons {separator : Bytes} {words : List Bytes} (h : words ≠ []) :
    separator.intercalate ([] :: words) = separator ++ separator.intercalate words := by
  rcases List.exists_cons_of_ne_nil h with ⟨word, rest, rfl⟩
  rw [List.intercalate_cons_cons, List.nil_append]

/-- An empty one of several joined lines is one more line feed. -/
theorem inserted_intercalate {opening closing : Bytes} (hopening : Literal.Closes opening)
    (hclosing : Literal.Opens closing) (first second : List Bytes) (h : first ++ second ≠ []) :
    Literal.Inserted [Byte.lineFeed]
      (opening ++ [Byte.lineFeed].intercalate (first ++ [] :: second) ++ closing)
      (opening ++ [Byte.lineFeed].intercalate (first ++ second) ++ closing) := by
  -- The line feed is put where no word stands on one side of it, since words may begin with a
  -- brace and end in a hash sign.
  by_cases hfirst : first = []
  · subst hfirst
    refine ⟨opening, [Byte.lineFeed].intercalate second ++ closing, .inl hopening, ?_, ?_⟩
    · have hsecond : second ≠ [] := h
      rw [List.nil_append, intercalate_nil_cons hsecond]
      simp only [List.append_assoc]
    · simp only [List.nil_append, List.append_assoc]
  · by_cases hsecond : second = []
    · subst hsecond
      refine ⟨opening ++ [Byte.lineFeed].intercalate first, closing, .inr hclosing, ?_, ?_⟩
      · rw [intercalate_append hfirst (List.cons_ne_nil _ _), List.intercalate_singleton]
        simp only [List.append_nil, List.append_assoc]
      · rw [List.append_nil]
    · have hends : Literal.Closes (opening ++ [Byte.lineFeed].intercalate first
          ++ [Byte.lineFeed]) := Literal.Closes.append ⟨Byte.lineFeed, rfl, by decide⟩ _
      refine ⟨_, [Byte.lineFeed].intercalate second ++ closing, .inl hends, ?_, ?_⟩
      · rw [intercalate_append hfirst (List.cons_ne_nil _ _), intercalate_nil_cons hsecond]
        simp only [List.append_assoc]
      · rw [intercalate_append hfirst hsecond]
        simp only [List.append_assoc]

/-- A push of a text with something inserted has its written form inserted. -/
theorem Statement.inserted_print {extra longer shorter : Bytes}
    (h : Literal.Inserted extra longer shorter) (hopens : Literal.Opens extra)
    (hcloses : Literal.Closes extra) (margin : Margin) :
    Literal.Inserted (Literal.escape extra) (Statement.mk margin (.pushText longer)).print
      (Statement.mk margin (.pushText shorter)).print := by
  have hindented := h.surround (spaces margin.markup) []
  rw [List.append_nil, List.append_nil] at hindented
  have hprinted := (hindented.escape hopens hcloses).surround (spaces margin.code ++ pushOpening)
    [Byte.quote, Byte.lineFeed]
  simpa only [print, source, Action.source, pushLiteral, List.append_assoc,
    List.singleton_append] using hprinted

end TemplateCompiler
