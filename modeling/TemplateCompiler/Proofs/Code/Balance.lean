import TemplateCompiler.Proofs.Code.Finishing

/-!
# Escapes are taken out whole

A blank that is written as an escape goes as a whole: with each backslash that a trim pass
takes out of the code goes one letter that stands for a blank.  So the number of backslashes
less the number of these letters stays as it is, and what is written of code with another
such balance is another text, wherever its marks are.

Main results:

- Theorem {lit}`Condenses.balance_eq`: what is deleted from a line is balanced.
- Theorem {lit}`balance_trimmed`: a trim pass keeps the balance of the code.
-/

namespace TemplateCompiler

/-- The number of backslashes in a text, less the number of letters that stand for a blank
behind one. -/
def balance (text : Bytes) : Int :=
  (text.count Byte.backslash : Int) - text.countP isBlankLetter

@[simp] theorem balance_append (first second : Bytes) :
    balance (first ++ second) = balance first + balance second := by
  simp only [balance, List.count_append, List.countP_append]
  omega

private theorem balance_cons (c : UInt8) (rest : Bytes) :
    balance (c :: rest) = balance [c] + balance rest :=
  balance_append [c] rest

private theorem balance_spaces (width : Nat) : balance (spaces width) = 0 := by
  have hslash : Byte.backslash ∉ spaces width := by
    intro hmem
    exact absurd (List.eq_of_mem_replicate hmem) (by decide)
  have hletter : ∀ c ∈ spaces width, ¬isBlankLetter c = true := by
    intro c hmem
    rw [List.eq_of_mem_replicate hmem]
    decide
  simp [balance, List.count_eq_zero.2 hslash, List.countP_eq_zero.2 hletter]

/-- What one deletion takes out is balanced. -/
theorem Deletes.balance_eq {literal : Bool} {s t : Bytes} (h : Deletes literal s t) :
    balance t = balance s := by
  cases h with
  | @mark c before after hc =>
    have hmark : balance [c] = 0 := by
      rcases hc with rfl | rfl <;> decide
    rw [balance_append, balance_append, balance_cons c, hmark, Int.zero_add]
  | @blank c before after hliteral hc =>
    have hblank : balance [c] = 0 := by
      simp only [isPlainBlank, Bool.or_eq_true, beq_iff_eq] at hc
      rcases hc with rfl | rfl <;> decide
    rw [balance_append, balance_append, balance_cons c, hblank, Int.zero_add]
  | @escape c before after hliteral hc =>
    have hescape : balance [Byte.backslash, c] = 0 := by
      have hall : ((ascii "ntr").all fun letter => balance [Byte.backslash, letter] == 0)
          = true := by
        decide
      have hmem : c ∈ ascii "ntr" := by simpa [isBlankLetter] using hc
      exact beq_iff_eq.1 (List.all_eq_true.1 hall c hmem)
    have hcons : Byte.backslash :: c :: after = [Byte.backslash, c] ++ after := rfl
    rw [hcons, balance_append, balance_append, balance_append, hescape, Int.zero_add]

/-- Condensing keeps the balance. -/
theorem Condenses.balance_eq {literal : Bool} {s t : Bytes} (h : Condenses literal s t) :
    balance t = balance s := by
  induction h with
  | refl => rfl
  | tail hcondense hdelete ih => exact hdelete.balance_eq.trans ih

/-- Gathering lines keeps the balance. -/
theorem Gathered.balance_eq {lines results : List Line} (h : Gathered lines results) :
    balance (results.flatMap Line.body) = balance (lines.flatMap Line.body) := by
  induction h with
  | nil => rfl
  | cons hgroup hrest ih =>
    rw [List.flatMap_cons, List.flatMap_append, balance_append, balance_append, ih,
      hgroup.body.balance_eq]

private theorem Line.balance_print (line : Line) : balance line.print = balance line.body := by
  have hopening : balance pushOpening = 0 := by decide
  have hquote : balance [Byte.quote] = 0 := by decide
  unfold print
  cases line.literal with
  | true =>
    rw [if_pos rfl, pushLiteral, balance_append, balance_append, balance_append, balance_spaces,
      hopening, hquote]
    omega
  | false =>
    rw [if_neg (by decide), balance_append, balance_spaces, Int.zero_add]

private theorem Listing.balance_flatten_chunksOf (closed : Bool) (lines : List Line) :
    balance (chunksOf closed lines).flatten = balance (lines.flatMap Line.body) := by
  have hfeed : balance [Byte.lineFeed] = 0 := by decide
  fun_induction chunksOf closed lines with
  | case1 => rfl
  | case2 line =>
    cases closed <;> simp [Line.balance_print, hfeed]
  | case3 line next rest ih =>
    rw [List.flatten_cons, List.flatMap_cons, balance_append, balance_append, balance_append, ih,
      Line.balance_print, hfeed]
    omega

/-- A trim pass keeps the balance of the code. -/
theorem balance_trimmed (code : Bytes) : balance (trimmed code) = balance code := by
  have hlines := (gathered_resolveMarks (Listing.parse code).lines).balance_eq
  have hcode := Listing.balance_flatten_chunksOf (Listing.parse code).closed
    (Listing.parse code).lines
  have hparsed := Listing.flatten_chunks_parse code
  rw [Listing.chunks] at hparsed
  rw [hparsed] at hcode
  rw [trimmed, trimmedChunks, Listing.chunks, Listing.balance_flatten_chunksOf, hlines, ← hcode]

end TemplateCompiler
