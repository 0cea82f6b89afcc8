import TemplateCompiler.Proofs.Code.Gathering
import TemplateCompiler.Proofs.Code.Listing

/-!
# Finishing a trim pass

A trim pass takes code in pieces of any size, and reads it as lines only when it is finished.
What it then writes is made of these lines alone: marks and blanks are taken out, pushes of
literals are joined, and code without marks is written as it was given.

Main results:

- Theorem {lit}`TrimPass.finish_foldl_write`: what is written depends on the joined pieces
  only.
- Theorem {lit}`TrimPass.finish_gathers`: every line that is written is gathered from
  consecutive lines of the code.
- Theorem {lit}`TrimPass.flatten_finish_of_unmarked`: code without marks is written as it is.
-/

namespace TemplateCompiler

namespace TrimPass

/-- Pieces that are written to a pass are held as one text. -/
theorem pending_foldl_write (pass : TrimPass) (pieces : List Bytes) :
    (pieces.foldl write pass).pending = pass.pending ++ pieces.flatten := by
  induction pieces generalizing pass with
  | nil => simp
  | cons piece rest ih =>
    rw [List.foldl_cons, ih, pending_write, List.flatten_cons, List.append_assoc]

/-- What is written depends on the joined pieces only. -/
theorem finish_foldl_write (pieces : List Bytes) :
    (pieces.foldl write {}).finish.1 = trimmedChunks pieces.flatten := by
  rw [finish, pending_foldl_write]
  rfl

/-- Every line that is written is gathered from consecutive lines of the code: one line, or
several pushes of literals at one indentation.  Of their bodies only marks are left out, and in
literals also blanks.  The last line ends in a line feed if the code does. -/
theorem finish_gathers (pieces : List Bytes) :
    ∃ (groups : List (List Line)) (results : List Line),
      groups.flatten = (Listing.parse pieces.flatten).lines
        ∧ List.Forall₂ Line.Gathers groups results
        ∧ (pieces.foldl write {}).finish.1
          = Listing.chunksOf (pieces.flatten.getLast? == some Byte.lineFeed) results := by
  let listing := Listing.parse pieces.flatten
  rcases (gathered_resolveMarks listing.lines).exists_groups with ⟨groups, hflatten, hgathers⟩
  refine ⟨groups, resolveMarks listing.lines, hflatten, hgathers, ?_⟩
  rw [finish_foldl_write, trimmedChunks, Listing.chunks, ← Listing.closed_parse]

end TrimPass

/-! ## Code without marks -/

/-- A cursor passes over lines without marks. -/
theorem Cursor.run_enter_of_forall_unmarked {above : List Line} {line : Line} {below : List Line}
    (h : ∀ other ∈ line :: below, Unmarked other.body) :
    (Cursor.enter above line below).run = above.reverse ++ line :: below := by
  induction below generalizing above line with
  | nil =>
    rw [run_enter_of_unmarked (h line List.mem_cons_self), run_leave_nil, List.reverse_cons]
  | cons next rest ih =>
    rw [List.forall_mem_cons] at h
    rw [run_enter_of_unmarked h.1, run_leave_cons, ih h.2, List.reverse_cons, List.append_assoc,
      List.singleton_append]

/-- Lines without marks are left as they are. -/
theorem resolveMarks_of_unmarked {lines : List Line} (h : ∀ line ∈ lines, Unmarked line.body) :
    resolveMarks lines = lines := by
  cases lines with
  | nil => rfl
  | cons line below => exact Cursor.run_enter_of_forall_unmarked h

/-- Code without marks is written as it is. -/
theorem trimmed_of_unmarked {code : Bytes} (h : Unmarked code) : trimmed code = code := by
  have hlines : ∀ line ∈ (Listing.parse code).lines, Unmarked line.body := fun line hline =>
    h.of_subset (Listing.body_subset_of_mem_parse hline)
  rw [trimmed, trimmedChunks, resolveMarks_of_unmarked hlines]
  exact Listing.flatten_chunks_parse code

/-- Code without marks is written as it was given, in whatever pieces. -/
theorem TrimPass.flatten_finish_of_unmarked {pieces : List Bytes} (h : Unmarked pieces.flatten) :
    (pieces.foldl write {}).finish.1.flatten = pieces.flatten := by
  rw [finish_foldl_write]
  exact trimmed_of_unmarked h

/-- A push whose interpolation is never closed, cut in the middle, a line of blanks, an empty
literal, the opening of a push alone, and a backslash behind the last line feed. -/
theorem TrimPass.flatten_finish_of_open_interpolation :
    Unmarked [ascii "$o.push \"#\x7b \\", [], ascii "\"\n  \n\n$o.push \"\"\n",
        ascii " $o.push \"\n\\"].flatten
      ∧ ([ascii "$o.push \"#\x7b \\", [], ascii "\"\n  \n\n$o.push \"\"\n",
          ascii " $o.push \"\n\\"].foldl write {}).finish.1.flatten
        = ascii "$o.push \"#\x7b \\\"\n  \n\n$o.push \"\"\n $o.push \"\n\\" :=
  ⟨by decide, flatten_finish_of_unmarked (by decide)⟩

end TemplateCompiler
