import Mathlib.Computability.StateTransition
import TemplateCompiler.Proofs.Blanks
import TemplateCompiler.Proofs.Fields

/-!
# Looking an item up in a list

An item is listed if it is the core of an entry of the list.  A search that walks through the
list by positions stops at the first such entry, or behind the last entry: it tries the empty
entry behind a comma at the end too, and a position one beyond the end ends it.

Main results:

- Theorem {lit}`ListSearch.stopped_mem_eval`: a search ends, with the answer for the entries
  that are ahead of it.
- Theorem {lit}`listContains_iff_isCore`: what is listed, and that every search for it ends.
-/

namespace TemplateCompiler

/-- A search through a list. -/
inductive ListSearch where
  /-- The next entry to look at starts at that position. -/
  | looking (start : Nat)
  /-- The search is over. -/
  | stopped (found : Bool)
deriving DecidableEq, Repr

namespace ListSearch

/-- One turn of a search. -/
def next (list item : Bytes) : ListSearch → Option ListSearch
  | .looking start =>
    if start ≤ list.length then
      let stop := fieldEnd Byte.comma list start
      if trim (list.extract start stop) = item then some (.stopped true)
      else some (.looking (stop + 1))
    else some (.stopped false)
  | .stopped _ => none

private theorem stopped_mem_eval_of_next {list item : Bytes} {start : Nat} {found : Bool}
    (h : next list item (.looking start) = some (.stopped found)) :
    .stopped found ∈ StateTransition.eval (next list item) (.looking start) :=
  StateTransition.mem_eval.2 ⟨.single h, rfl⟩

/-- A search ends, with the answer for the entries that are ahead of it. -/
theorem stopped_mem_eval {list : Bytes} {start : Nat} (item : Bytes) (h : start ≤ list.length) :
    .stopped ((fields Byte.comma (list.drop start)).any fun entry => trim entry == item)
      ∈ StateTransition.eval (next list item) (.looking start) := by
  induction hahead : list.length - start using Nat.strongRecOn generalizing start with
  | ind ahead ih =>
    rw [fields_drop h, List.any_cons]
    by_cases hfound : trim (list.extract start (fieldEnd Byte.comma list start)) = item
    · rw [beq_iff_eq.2 hfound, Bool.true_or]
      apply stopped_mem_eval_of_next
      simp only [next, h, hfound, if_true]
    · have hnext : next list item (.looking start)
          = some (.looking (fieldEnd Byte.comma list start + 1)) := by
        simp only [next, h, hfound, if_true, if_false]
      have hpassed := le_fieldEnd Byte.comma list start
      rw [beq_eq_false_iff_ne.2 hfound, Bool.false_or,
        StateTransition.reaches_eval (.single hnext)]
      split
      · next hlt => exact ih _ (by omega) hlt rfl
      · next hlast =>
        apply stopped_mem_eval_of_next
        rw [next, if_neg (by omega), List.any_nil]

end ListSearch

/-! ## Main result -/

/-- A list has one split into entries and each entry has one core, and an item is listed if and
only if it is the core of an entry.  So it holds no comma, and no blank at an end.  Every search
for an item ends with that answer. -/
theorem listContains_iff_isCore (list item : Bytes) :
    (∃! entries, IsSplit Byte.comma list entries)
      ∧ (∀ entry, ∃! core, IsCore entry core)
      ∧ (listContains list item = true
        ↔ ∃ entries, IsSplit Byte.comma list entries ∧ ∃ entry ∈ entries, IsCore entry item)
      ∧ (listContains list item = false
        ∨ Byte.comma ∉ item ∧ (∀ c ∈ item.head?, isBlank c = false)
          ∧ ∀ c ∈ item.getLast?, isBlank c = false)
      ∧ .stopped (listContains list item)
        ∈ StateTransition.eval (ListSearch.next list item) (.looking 0) := by
  have hiff : listContains list item = true
      ↔ ∃ entries, IsSplit Byte.comma list entries ∧ ∃ entry ∈ entries, IsCore entry item := by
    simp only [isSplit_iff, exists_eq_left, isCore_iff, listContains, List.any_eq_true, beq_iff_eq]
  refine ⟨?_, ?_, hiff, ?_, ?_⟩
  · simp only [isSplit_iff, existsUnique_eq]
  · simp only [isCore_iff, existsUnique_eq', implies_true]
  · cases hlisted : listContains list item with
    | false => exact .inl rfl
    | true =>
      rcases hiff.1 hlisted with ⟨entries, hsplit, entry, hentry, hcore⟩
      have hpart : item ⊆ entry := by
        rw [← hcore.trim_eq]
        exact trim_subset entry
      exact .inr ⟨fun hmem => hsplit.whole entry hentry (hpart hmem), hcore.head, hcore.last⟩
  · exact ListSearch.stopped_mem_eval item (Nat.zero_le _)

-- The entry behind the last comma counts, and so do inner blanks.
example : listContains (ascii "pre, a b\t,") [] = true
    ∧ listContains (ascii "pre, a b\t,") (ascii "a b") = true
    ∧ listContains (ascii "pre, a b\t,") (ascii " a b") = false := by
  decide

end TemplateCompiler
