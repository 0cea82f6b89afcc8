import TemplateCompiler.Message

/-!
# Logged results

A step of the compiler writes messages to a log and then either has a result or
stops at a violation.  What was logged before a violation stays logged.

Main results:

- Theorem {lit}`Logged.bind_result_ok`: a step that follows a result decides the
  outcome of the whole.
- Theorem {lit}`Logged.bind_log`: logs are joined in order.
- Theorem {lit}`Logged.bind_assoc`: steps can be grouped in any way.
-/

namespace TemplateCompiler

/-- A log, and the result or violation that it led to. -/
structure Logged (α : Type) where
  /-- The messages, first to last. -/
  log : List Message
  /-- The result, or what stopped the run. -/
  result : Except Violation α

namespace Logged

variable {α β γ : Type}

/-- A result without any message. -/
protected def pure (a : α) : Logged α :=
  ⟨[], .ok a⟩

/-- Run one step after another; a violation stops the run. -/
protected def bind (x : Logged α) (f : α → Logged β) : Logged β :=
  match x.result with
  | .error violation => ⟨x.log, .error violation⟩
  | .ok a =>
    let y := f a
    ⟨x.log ++ y.log, y.result⟩

instance : Monad Logged where
  pure := Logged.pure
  bind := Logged.bind

/-- Write several warnings. -/
def warnAll (causes : List Warning) : Logged Unit :=
  ⟨causes.map .warning, .ok ()⟩

/-- Write one message. -/
def tell (message : Message) : Logged Unit :=
  ⟨[message], .ok ()⟩

/-- Stop at a violation. -/
def stop (violation : Violation) : Logged α :=
  ⟨[], .error violation⟩

/-! ## Running steps in order -/

@[simp] theorem pure_log (a : α) : (pure a : Logged α).log = [] := rfl

@[simp] theorem pure_result (a : α) : (pure a : Logged α).result = .ok a := rfl

/-- After a result, the next step decides the outcome. -/
theorem bind_result_ok {x : Logged α} {a : α} (h : x.result = .ok a) (f : α → Logged β) :
    (x >>= f).result = (f a).result := by
  simp [bind, Logged.bind, h]

/-- After a result, the log of the next step follows the log so far. -/
theorem bind_log {x : Logged α} {a : α} (h : x.result = .ok a) (f : α → Logged β) :
    (x >>= f).log = x.log ++ (f a).log := by
  simp [bind, Logged.bind, h]

/-- After a violation, no step runs. -/
theorem bind_of_error {x : Logged α} {violation : Violation} (h : x.result = .error violation)
    (f : α → Logged β) : x >>= f = ⟨x.log, .error violation⟩ := by
  simp [bind, Logged.bind, h]

/-- A logged result is its log and its outcome. -/
theorem eq_of_result {x : Logged α} {a : α} (h : x.result = .ok a) : x = ⟨x.log, .ok a⟩ := by
  rw [← h]

protected theorem id_map (x : Logged α) : id <$> x = x := by
  rcases x with ⟨log, violation | a⟩
  · rfl
  · change (⟨log ++ [], .ok a⟩ : Logged α) = ⟨log, .ok a⟩
    rw [List.append_nil]

protected theorem pure_bind (a : α) (f : α → Logged β) : pure a >>= f = f a := rfl

/-- Steps can be grouped in any way. -/
protected theorem bind_assoc (x : Logged α) (f : α → Logged β) (g : β → Logged γ) :
    x >>= f >>= g = x >>= fun a => f a >>= g := by
  rcases x with ⟨log, violation | a⟩
  · rfl
  · simp only [bind, Logged.bind]
    rcases f a with ⟨log', violation | b⟩
    · rfl
    · simp only [List.append_assoc]

instance : LawfulMonad Logged :=
  LawfulMonad.mk' Logged Logged.id_map Logged.pure_bind Logged.bind_assoc

/-- The bytes of a log. -/
def logBytes (messages : List Message) : Bytes :=
  messages.flatMap Message.line

end Logged

end TemplateCompiler
