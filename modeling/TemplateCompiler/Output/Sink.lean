import TemplateCompiler.Output.Buffered
import TemplateCompiler.Workspace

/-!
# Sinks

Compiled code goes to a sink, one chunk after another.  A sink is whatever takes the
chunks: it may hold them as one text, or write them to a device through a buffer.

Compiling into a sink is done in an order: a tree is rendered, its code is reported and held
by a trim pass, and only the end of the pass writes to the sink.  Run step by step on what
the sink holds, a violation leaves what was written before it.

Main results:

- Definition {lit}`Session.compileInto`: compiling writes the chunks of a tree to a
  sink, after all that is reported about the tree.
- Theorem {lit}`Sink.writeAll_text`: a text holds what was written to it, in order.
- Theorem {lit}`Session.run_deliver`: the sink is given the compiled chunks after all steps
  that a violation can stop.
-/

namespace TemplateCompiler

/-- A way to take chunks one after another, as what is held after each of them. -/
structure Sink (σ : Type) where
  write : σ → Bytes → σ

namespace Sink

/-- Write several chunks in order. -/
def writeAll {σ : Type} (sink : Sink σ) (held : σ) (chunks : List Bytes) : σ :=
  chunks.foldl sink.write held

/-- The sink that holds all chunks as one text. -/
def text : Sink Bytes :=
  ⟨fun content data => content ++ data⟩

/-- A text holds what was written to it, in order. -/
theorem writeAll_text (content : Bytes) (chunks : List Bytes) :
    text.writeAll content chunks = content ++ chunks.flatten := by
  induction chunks generalizing content with
  | nil => simp [writeAll]
  | cons chunk rest ih =>
    have hrest := ih (content ++ chunk)
    rw [List.flatten_cons, ← List.append_assoc, ← hrest]
    rfl

end Sink

namespace Transfer

/-- Go on with a write of data. -/
def write (transfer : Transfer) (data : Bytes) : Transfer :=
  let next := transfer.output.write transfer.device data
  { next with failures := transfer.failures ++ next.failures }

/-- Go on with a flush. -/
def flush (transfer : Transfer) : Transfer :=
  let next := transfer.output.flush transfer.device
  { next with failures := transfer.failures ++ next.failures }

end Transfer

/-- The sink that writes to a device through an output. -/
def Sink.file : Sink Transfer :=
  ⟨Transfer.write⟩

/-- Compile a tree into a sink. -/
def Session.compileInto {σ : Type} (session : Session) (sink : Sink σ) (held : σ)
    (above : Bool) (tree : Tree) : Logged σ := do
  let chunks ← session.compile above tree
  pure (sink.writeAll held chunks)

/-- The sink is given the chunks that the tree is compiled to, and nothing if compiling
stops. -/
theorem Session.result_compileInto {σ : Type} (session : Session) (sink : Sink σ) (held : σ)
    (above : Bool) (tree : Tree) :
    (session.compileInto sink held above tree).result
      = (session.compile above tree).result.map (sink.writeAll held) := by
  unfold compileInto
  cases hcompile : (session.compile above tree).result with
  | error violation =>
    rw [Logged.bind_of_error hcompile]
    rfl
  | ok chunks =>
    rw [Logged.bind_result_ok hcompile]
    rfl

/-! ## Writing while compiling -/

/-- Steps that change what a sink holds and write to the log.  A violation stops them, and
what was written before it stays written. -/
abbrev Writing (σ : Type) := ExceptT Violation (StateM (σ × List Message))

namespace Writing

variable {σ α β : Type}

/-- A step that only writes to the log. -/
def ofLogged (x : Logged α) : Writing σ α :=
  fun (held, log) => (x.result, held, log ++ x.log)

/-- Write a chunk to a sink. -/
def put (sink : Sink σ) (chunk : Bytes) : Writing σ Unit :=
  fun (held, log) => (.ok (), sink.write held chunk, log)

/-- After a logged result the next step goes on, and after a violation none does. -/
theorem run_ofLogged_bind (x : Logged α) (f : α → Writing σ β) (held : σ) (log : List Message) :
    (ofLogged x >>= f) (held, log) = match x.result with
      | .ok a => f a (held, log ++ x.log)
      | .error violation => (.error violation, held, log ++ x.log) := by
  rcases x with ⟨entries, violation | a⟩
  · rfl
  · rfl

/-- Chunks are written in order. -/
theorem run_forM_put (sink : Sink σ) (chunks : List Bytes) (held : σ) (log : List Message) :
    (chunks.forM (put sink)) (held, log) = (.ok (), sink.writeAll held chunks, log) := by
  induction chunks generalizing held with
  | nil => rfl
  | cons chunk rest ih => exact ih (sink.write held chunk)

end Writing

/-- Compile a tree into a sink.  A verbose session reports the size of the code before the
trim pass is finished. -/
def Session.deliver {σ : Type} (session : Session) (sink : Sink σ) (above : Bool) (tree : Tree) :
    Writing σ Unit := do
  let code ← Writing.ofLogged (tree.code above)
  if session.verbose then
    Writing.ofLogged (Logged.tell (.generated code.length session.options.format))
  (TrimPass.write {} code).finish.1.forM (Writing.put sink)

/-- The sink is given the compiled chunks, and is left as it is if compiling stops. -/
theorem Session.run_deliver {σ : Type} (session : Session) (sink : Sink σ) (above : Bool)
    (tree : Tree) (held : σ) (log : List Message) :
    session.deliver sink above tree (held, log)
      = match (session.compile above tree).result with
        | .ok chunks =>
          (.ok (), sink.writeAll held chunks, log ++ (session.compile above tree).log)
        | .error violation =>
          (.error violation, held, log ++ (session.compile above tree).log) := by
  rw [deliver, Writing.run_ofLogged_bind]
  cases hcode : (tree.code above).result with
  | error violation =>
    rw [compile, Logged.bind_of_error hcode]
  | ok code =>
    have hchunks : (TrimPass.write {} code).finish.1 = trimmedChunks code := rfl
    simp only [hchunks, compile, Logged.bind_result_ok hcode, Logged.bind_log hcode]
    cases session.verbose with
    | true =>
      have htell : (Logged.tell (.generated code.length session.options.format)).result
          = .ok () := rfl
      simp only [if_true, Writing.run_ofLogged_bind, htell, Logged.bind_result_ok htell,
        Logged.bind_log htell, Logged.pure_result, Logged.pure_log, List.append_nil,
        Writing.run_forM_put, List.append_assoc]
    | false =>
      simp only [Bool.false_eq_true, if_false, Logged.pure_result, Logged.pure_log,
        List.append_nil, Writing.run_forM_put]

/-- Compile the tree below a node into a sink. -/
def Workspace.deliver {σ : Type} (workspace : Workspace) (sink : Sink σ) (id : Nat) :
    Writing σ Unit :=
  match workspace.store.tree? id with
  | none => pure ()
  | some tree => workspace.session.deliver sink (workspace.store.isPreservedAbove id) tree

end TemplateCompiler
