import TemplateCompiler.Proofs.Code.Move

/-!
# What trim marks mean

The meaning of trim marks is given without any code: in a sequence of symbols, some
are blanks and some are marks.  A left mark takes the blanks away that end what was
kept so far, a right mark those that follow it, and no mark is kept.  The same
definition is read over the bytes of a document and over the atoms of a program.

Main results:

- Theorem {lit}`resolveFrom_map`: symbols that play the same roles are resolved in the
  same way.
-/

namespace TemplateCompiler

/-- What a symbol is for trimming. -/
inductive TrimRole where
  | solid
  | blank
  | leftMark
  | rightMark
deriving DecidableEq, Repr

/-- The role of a byte of a document. -/
def byteRole (c : UInt8) : TrimRole :=
  if c = leftMark then .leftMark
  else if c = rightMark then .rightMark
  else if isBlank c then .blank
  else .solid

theorem byteRole_eq_leftMark_iff (c : UInt8) : byteRole c = .leftMark ↔ c = leftMark := by
  unfold byteRole
  split
  · simp [*]
  · split
    · simp [*, rightMark_ne_leftMark]
    · split <;> simp [*]

theorem byteRole_eq_rightMark_iff (c : UInt8) : byteRole c = .rightMark ↔ c = rightMark := by
  unfold byteRole
  by_cases hleft : c = leftMark
  · simp [hleft, rightMark_ne_leftMark.symm]
  · rw [if_neg hleft]
    split
    · simp [*]
    · split <;> simp [*]

/-- A byte has the role of a blank exactly when it is one. -/
theorem byteRole_eq_blank_iff (c : UInt8) : byteRole c = .blank ↔ isBlank c = true := by
  have hleft : isBlank leftMark = false := by decide
  have hright : isBlank rightMark = false := by decide
  unfold byteRole
  split
  · simp [*]
  · split
    · simp [*]
    · split <;> simp [*]

/-! ## Resolving -/

section Resolving

variable {α β : Type} (role : α → TrimRole)

/-- Whether a symbol is a blank. -/
def isBlankSymbol (a : α) : Bool :=
  role a == .blank

/-- Resolve the marks among the symbols that are ahead.  The symbols that were kept
so far are given last one first. -/
def resolveFrom (kept : List α) : List α → List α
  | [] => kept.reverse
  | a :: rest =>
    match role a with
    | .leftMark => resolveFrom (kept.dropWhile (isBlankSymbol role)) rest
    | .rightMark => resolveFrom kept (rest.dropWhile (isBlankSymbol role))
    | .solid => resolveFrom (a :: kept) rest
    | .blank => resolveFrom (a :: kept) rest
termination_by rest => rest.length
decreasing_by
  · simp
  · have := (List.dropWhile_sublist (l := rest) (isBlankSymbol role)).length_le
    simp only [List.length_cons]
    omega
  · simp
  · simp

/-- A sequence of symbols with all marks resolved. -/
def resolved (symbols : List α) : List α :=
  resolveFrom role [] symbols

variable {role}

/-- Resolving only leaves symbols out. -/
theorem resolveFrom_sublist (kept rest : List α) :
    (resolveFrom role kept rest).Sublist (kept.reverse ++ rest) := by
  fun_induction resolveFrom role kept rest with
  | case1 kept => simp
  | case2 kept a rest hrole ih =>
    have hkept := List.reverse_sublist.2
      (List.dropWhile_sublist (l := kept) (isBlankSymbol role))
    exact ih.trans (hkept.append (List.sublist_cons_self a rest))
  | case3 kept a rest hrole ih =>
    have hrest := (List.dropWhile_sublist (l := rest) (isBlankSymbol role)).trans
      (List.sublist_cons_self a rest)
    exact ih.trans ((List.Sublist.refl _).append hrest)
  | case4 kept a rest hrole ih => simpa using ih
  | case5 kept a rest hrole ih => simpa using ih

/-- Symbols that play the same roles are resolved in the same way. -/
theorem resolveFrom_map {role' : β → TrimRole} {f : α → β} (h : ∀ a, role' (f a) = role a)
    (kept rest : List α) :
    (resolveFrom role kept rest).map f = resolveFrom role' (kept.map f) (rest.map f) := by
  have hblank : isBlankSymbol role' ∘ f = isBlankSymbol role := by
    funext a
    simp [isBlankSymbol, h]
  fun_induction resolveFrom role kept rest with
  | case1 kept => simp [resolveFrom]
  | case2 kept a rest hrole ih =>
    rw [ih, List.map_cons, resolveFrom]
    simp only [h, hrole]
    rw [List.dropWhile_map, hblank]
  | case3 kept a rest hrole ih =>
    rw [ih, List.map_cons, resolveFrom]
    simp only [h, hrole]
    rw [List.dropWhile_map, hblank]
  | case4 kept a rest hrole ih =>
    rw [ih, List.map_cons, List.map_cons, resolveFrom]
    simp only [h, hrole]
  | case5 kept a rest hrole ih =>
    rw [ih, List.map_cons, List.map_cons, resolveFrom]
    simp only [h, hrole]

end Resolving

end TemplateCompiler
