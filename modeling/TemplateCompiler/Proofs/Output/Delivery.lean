import TemplateCompiler.Output.Sink

/-!
# What an output delivers

An output holds bytes back until its buffer is full and more is to come.  On an open
device that refuses no write, no byte is lost or moved: what the device has, with what the
buffer holds behind it, is all that was written, after every call and however little the
device takes at a time.  A device that takes nothing, closed or open, stays as it is, and
the buffer is still emptied, so every call comes to its end.

Main results:

- Theorem {lit}`BufferedOutput.pending_write`: how much is held back depends only on how
  much there was to hold.
- Theorem {lit}`Transfer.Carries.call` and {lit}`Transfer.Refused.call`: what one call keeps.
- Theorem {lit}`calls_deliver`: what any calls and the end of the output leave in the
  device.
-/

namespace TemplateCompiler

/-! ## One call -/

namespace BufferedOutput

/-- Of so many bytes, how many are passed on in full buffers; the rest is held back. -/
def passedOn (length : Nat) : Nat :=
  (length - 1) / bufferCapacity * bufferCapacity

private theorem length_fill {output : BufferedOutput} {data : Bytes}
    (h : output.room < data.length) :
    (output.fill data).pending.length = bufferCapacity := by
  have hfits := output.fits
  simp only [fill, room, List.length_append, List.length_take] at h ⊢
  omega

/-- A full buffer is the first part of what it was to take, and the rest is left. -/
theorem pending_fill_append {output : BufferedOutput} (data : Bytes) :
    (output.fill data).pending ++ data.drop output.room = output.pending ++ data := by
  rw [fill, List.append_assoc, List.take_append_drop]

private theorem overflows_of_le_room {output : BufferedOutput} {data : Bytes}
    (h : data.length ≤ output.room) :
    ((output.pending ++ data).length - 1) / bufferCapacity = 0 := by
  have hfits := output.fits
  have hpos := bufferCapacity_pos
  apply Nat.div_eq_of_lt
  simp only [room, List.length_append] at h ⊢
  omega

/-- Where the buffer overflows, one full buffer is passed on, and then what is passed on of
the rest. -/
private theorem overflows_of_room_lt {output : BufferedOutput} {data : Bytes}
    (h : output.room < data.length) :
    ((output.pending ++ data).length - 1) / bufferCapacity
      = ((data.drop output.room).length - 1) / bufferCapacity + 1 := by
  have hlength : (output.pending ++ data).length
      = bufferCapacity + (data.drop output.room).length := by
    rw [← pending_fill_append, List.length_append, length_fill h]
  have hrest : 0 < (data.drop output.room).length := by
    rw [List.length_drop]
    omega
  rw [hlength, Nat.add_sub_assoc hrest, Nat.add_div_left _ bufferCapacity_pos]

@[simp] theorem number_write (output : BufferedOutput) (device : Device) (data : Bytes) :
    (output.write device data).output.number = output.number := by
  fun_induction write output device data with
  | case1 output device data hfits => rfl
  | case2 output device data hfull flushed rest ih => exact ih

@[simp] theorem moved_write (output : BufferedOutput) (device : Device) (data : Bytes) :
    (output.write device data).output.moved = output.moved := by
  fun_induction write output device data with
  | case1 output device data hfits => rfl
  | case2 output device data hfull flushed rest ih => exact ih

private theorem fill_of_le {output : BufferedOutput} {data : Bytes}
    (h : data.length ≤ output.room) :
    (output.fill data).pending = output.pending ++ data := by
  simp only [fill, List.take_of_length_le h]

private theorem passedOn_of_le_room {output : BufferedOutput} {data : Bytes}
    (h : data.length ≤ output.room) : passedOn (output.pending ++ data).length = 0 := by
  rw [passedOn, overflows_of_le_room h, Nat.zero_mul]

private theorem passedOn_of_room_lt {output : BufferedOutput} {data : Bytes}
    (h : output.room < data.length) :
    passedOn (output.pending ++ data).length
      = bufferCapacity + passedOn (data.drop output.room).length := by
  rw [passedOn, overflows_of_room_lt h, Nat.succ_mul, Nat.add_comm, passedOn]

/-- What is held back after a write is what is left when all full buffers are passed on. -/
theorem pending_write (output : BufferedOutput) (device : Device) (data : Bytes) :
    (output.write device data).output.pending
      = (output.pending ++ data).drop (passedOn (output.pending ++ data).length) := by
  fun_induction write output device data with
  | case1 output device data hfits =>
    rw [passedOn_of_le_room hfits, List.drop_zero, fill_of_le hfits]
  | case2 output device data hfull flushed rest ih =>
    have hroom : output.room < data.length := by omega
    have hempty : flushed.output.pending = [] := rfl
    have hcut : (output.pending ++ data).drop bufferCapacity = data.drop output.room := by
      rw [← pending_fill_append, ← length_fill hroom, List.drop_left]
    rw [passedOn_of_room_lt hroom, ← List.drop_drop, hcut]
    simpa [hempty] using ih

/-- A flush never opens or closes the device. -/
theorem keeps_flush (output : BufferedOutput) (device : Device) :
    device.Keeps (output.flush device).device :=
  device.keeps_take output.number output.pending

/-- A write never opens or closes the device. -/
theorem keeps_write (output : BufferedOutput) (device : Device) (data : Bytes) :
    device.Keeps (output.write device data).device := by
  fun_induction write output device data with
  | case1 output device data hfits => exact .refl device
  | case2 output device data hfull flushed rest ih =>
    exact ((output.fill data).keeps_flush device).trans ih

/-- A flush adds what is held back to a device that refuses no write. -/
theorem flush_of_accepts {output : BufferedOutput} {device : Device}
    (h : device.accepts output.number = true) :
    device.Took (output.flush device).device output.pending
      ∧ (output.flush device).failures = [] :=
  Device.took_take h output.pending

/-- A write adds the full buffers to a device that refuses none, and reports nothing. -/
theorem write_of_accepts {output : BufferedOutput} {device : Device}
    (h : device.accepts output.number = true) (data : Bytes) :
    device.Took (output.write device data).device
        ((output.pending ++ data).take (passedOn (output.pending ++ data).length))
      ∧ (output.write device data).failures = [] := by
  fun_induction write output device data with
  | case1 output device data hfits =>
    rw [passedOn_of_le_room hfits, List.take_zero]
    exact ⟨.refl device, rfl⟩
  | case2 output device data hfull flushed rest ih =>
    have hroom : output.room < data.length := by omega
    have hfilled : (output.pending ++ data).take bufferCapacity = (output.fill data).pending := by
      rw [← pending_fill_append, ← length_fill hroom, List.take_left]
    have hcut : (output.pending ++ data).drop bufferCapacity = data.drop output.room := by
      rw [← pending_fill_append, ← length_fill hroom, List.drop_left]
    have hflush : device.Took flushed.device (output.fill data).pending
        ∧ flushed.failures = [] := flush_of_accepts h
    rcases ih (hflush.1.accepts h) with ⟨hrest, hfailures⟩
    refine ⟨?_, ?_⟩
    · rw [passedOn_of_room_lt hroom, List.take_add, hfilled, hcut]
      exact hflush.1.trans hrest
    · rw [hflush.2, hfailures]
      rfl

/-- A flush changes nothing in a device that refuses every write, and reports what it was to
write once. -/
theorem flush_of_refusal {output : BufferedOutput} {device : Device} {reason : Bytes}
    (h : device.refusal? output.number = some reason) :
    (output.flush device).device = device
      ∧ (output.flush device).failures
        = if output.pending = [] then [] else [⟨output.number, reason⟩] := by
  have htake := Device.take_of_refusal h output.pending
  exact ⟨congrArg Prod.fst htake, congrArg Prod.snd htake⟩

/-- A write changes nothing in a device that refuses every one, and reports each full buffer
once. -/
theorem write_of_refusal {output : BufferedOutput} {device : Device} {reason : Bytes}
    (h : device.refusal? output.number = some reason) (data : Bytes) :
    (output.write device data).device = device
      ∧ (output.write device data).failures
        = List.replicate (((output.pending ++ data).length - 1) / bufferCapacity)
          ⟨output.number, reason⟩ := by
  fun_induction write output device data with
  | case1 output device data hfits =>
    rw [overflows_of_le_room hfits]
    exact ⟨rfl, rfl⟩
  | case2 output device data hfull flushed rest ih =>
    have hroom : output.room < data.length := by omega
    have hfilled := length_fill hroom
    have hne : (output.fill data).pending ≠ [] := by
      intro hnil
      rw [hnil] at hfilled
      exact absurd hfilled (Nat.ne_of_lt bufferCapacity_pos)
    have hflush : flushed.device = device ∧ flushed.failures
        = if (output.fill data).pending = [] then [] else [⟨output.number, reason⟩] :=
      flush_of_refusal h
    rw [if_neg hne] at hflush
    have hrest : rest.device = flushed.device ∧ rest.failures
        = List.replicate (((data.drop output.room).length - 1) / bufferCapacity)
          ⟨output.number, reason⟩ := by
      refine ih ?_
      rw [hflush.1]
      exact h
    refine ⟨hrest.1.trans hflush.1, ?_⟩
    rw [hflush.2, hrest.2, overflows_of_room_lt hroom, List.replicate_succ]
    rfl

end BufferedOutput

/-! ## Any calls -/

/-- A call of an output. -/
inductive Call where
  | write (data : Bytes)
  | flush
deriving DecidableEq, Repr

/-- The data that a call writes, if it writes. -/
def Call.data? : Call → Option Bytes
  | .write data => some data
  | .flush => none

namespace Transfer

/-- Go on with a call. -/
def call (transfer : Transfer) : Call → Transfer
  | .write data => transfer.write data
  | .flush => transfer.flush

/-- Go on with several calls, in order. -/
def calls (transfer : Transfer) : List Call → Transfer
  | [] => transfer
  | call :: rest => (transfer.call call).calls rest

/-- End the output, and give back the device with all failures. -/
def finish (transfer : Transfer) : Device × List WriteFailure :=
  let ended := transfer.output.finish transfer.device
  (ended.1, transfer.failures ++ ended.2)

/-- Writing chunks to a file sink is calling its output with each of them. -/
theorem writeAll_file (transfer : Transfer) (chunks : List Bytes) :
    Sink.file.writeAll transfer chunks = transfer.calls (chunks.map .write) := by
  induction chunks generalizing transfer with
  | nil => rfl
  | cons chunk rest ih => exact ih (transfer.write chunk)

/-! ### Devices that take what they are given -/

/-- Whether an output owns a device that refuses none of its writes, and all bytes that were
given stand in the device or, behind these, in the buffer. -/
structure Carries (transfer : Transfer) (given : Bytes) : Prop where
  delivered : transfer.device.content ++ transfer.output.pending = given
  accepts : transfer.device.accepts transfer.output.number = true
  owned : transfer.output.moved = false
  failures : transfer.failures = []

namespace Carries

variable {transfer : Transfer} {given : Bytes}

/-- A write adds its data. -/
theorem write (h : transfer.Carries given) (data : Bytes) :
    (transfer.write data).Carries (given ++ data) := by
  have hwrite := BufferedOutput.write_of_accepts h.accepts data
  refine ⟨?_, ?_, ?_, ?_⟩
  · have hpending := BufferedOutput.pending_write transfer.output transfer.device data
    change (transfer.output.write transfer.device data).device.content
      ++ (transfer.output.write transfer.device data).output.pending = given ++ data
    rw [hwrite.1.content, hpending, List.append_assoc, List.take_append_drop, ← List.append_assoc,
      h.delivered]
  · change (transfer.output.write transfer.device data).device.accepts
      (transfer.output.write transfer.device data).output.number = true
    rw [BufferedOutput.number_write]
    exact hwrite.1.accepts h.accepts
  · exact (BufferedOutput.moved_write _ _ data).trans h.owned
  · change transfer.failures ++ (transfer.output.write transfer.device data).failures = []
    rw [h.failures, hwrite.2]
    rfl

/-- A flush adds nothing. -/
theorem flush (h : transfer.Carries given) : transfer.flush.Carries given := by
  have hflush := BufferedOutput.flush_of_accepts h.accepts
  refine ⟨?_, ?_, h.owned, ?_⟩
  · change (transfer.output.flush transfer.device).device.content ++ [] = given
    rw [hflush.1.content, List.append_nil, h.delivered]
  · exact hflush.1.accepts h.accepts
  · change transfer.failures ++ (transfer.output.flush transfer.device).failures = []
    rw [h.failures, hflush.2]
    rfl

/-- A call adds its data. -/
theorem call (h : transfer.Carries given) (call : Call) :
    (transfer.call call).Carries (given ++ call.data?.getD []) := by
  cases call with
  | write data => exact h.write data
  | flush =>
    rw [Call.data?, Option.getD_none, List.append_nil]
    exact h.flush

/-- Any calls add their data, in order. -/
theorem calls (h : transfer.Carries given) (calls : List Call) :
    (transfer.calls calls).Carries (given ++ (calls.filterMap Call.data?).flatten) := by
  induction calls generalizing transfer given with
  | nil =>
    rw [List.filterMap_nil, List.flatten_nil, List.append_nil]
    exact h
  | cons call rest ih =>
    have hrest := ih (h.call call)
    cases call with
    | write data =>
      rw [Call.data?, Option.getD_some, List.append_assoc] at hrest
      exact hrest
    | flush =>
      rw [Call.data?, Option.getD_none, List.append_nil] at hrest
      exact hrest

/-- The end of the output leaves all bytes in the device, and closes it. -/
theorem finish (h : transfer.Carries given) :
    transfer.finish.1.content = given ∧ transfer.finish.1.isOpen = false
      ∧ transfer.finish.2 = [] := by
  rcases BufferedOutput.flush_of_accepts h.accepts with ⟨htook, hfailures⟩
  have hnumber : transfer.device.number = transfer.output.number := by
    have haccepts := h.accepts
    simp only [Device.accepts, Device.isOpenAs, Bool.and_eq_true, beq_iff_eq] at haccepts
    exact haccepts.1.1.2
  have hended : transfer.finish
      = ((transfer.output.flush transfer.device).device.close transfer.output.number,
        transfer.failures ++ (transfer.output.flush transfer.device).failures) := by
    simp [Transfer.finish, BufferedOutput.finish, h.owned]
  rw [hended, Device.close, if_pos (htook.number.trans hnumber)]
  refine ⟨htook.content.trans h.delivered, rfl, ?_⟩
  rw [h.failures, hfailures]
  rfl

/-- A device holds the chunks that were written to its file as a text holds them. -/
theorem content_finish_writeAll (h : transfer.Carries given) (chunks : List Bytes) :
    (Sink.file.writeAll transfer chunks).finish.1.content
      = given ++ Sink.text.writeAll [] chunks := by
  have hdata : (chunks.map Call.write).filterMap Call.data? = chunks := by
    rw [List.filterMap_map]
    exact List.filterMap_some
  rw [writeAll_file, (h.calls _).finish.1, hdata, Sink.writeAll_text, List.nil_append]

end Carries

/-! ### Devices that take nothing -/

/-- Whether the device of an output is as it was, and refuses every write from it. -/
structure Refused (transfer : Transfer) (before : Device) (reason : Bytes) : Prop where
  device : transfer.device = before
  refusal : before.refusal? transfer.output.number = some reason

namespace Refused

variable {transfer : Transfer} {before : Device} {reason : Bytes}

/-- A call changes nothing in the device. -/
theorem call (h : transfer.Refused before reason) (call : Call) :
    (transfer.call call).Refused before reason := by
  have hrefusal := h.refusal
  rw [← h.device] at hrefusal
  cases call with
  | write data =>
    have hwrite := BufferedOutput.write_of_refusal hrefusal data
    refine ⟨hwrite.1.trans h.device, ?_⟩
    change before.refusal? (transfer.output.write transfer.device data).output.number = some reason
    rw [BufferedOutput.number_write]
    exact h.refusal
  | flush => exact ⟨(BufferedOutput.flush_of_refusal hrefusal).1.trans h.device, h.refusal⟩

/-- Any calls change nothing in the device. -/
theorem calls (h : transfer.Refused before reason) (calls : List Call) :
    (transfer.calls calls).Refused before reason := by
  induction calls generalizing transfer with
  | nil => exact h
  | cons call rest ih => exact ih (h.call call)

/-- A write reports each full buffer once. -/
theorem length_failures_write (h : transfer.Refused before reason) (data : Bytes) :
    (transfer.write data).failures.length
      = transfer.failures.length
        + ((transfer.output.pending ++ data).length - 1) / bufferCapacity := by
  have hrefusal := h.refusal
  rw [← h.device] at hrefusal
  have hwrite := BufferedOutput.write_of_refusal hrefusal data
  change (transfer.failures ++ (transfer.output.write transfer.device data).failures).length = _
  rw [hwrite.2, List.length_append, List.length_replicate]

/-- The end of the output changes nothing in the device either, but may close it. -/
theorem content_finish (h : transfer.Refused before reason) :
    transfer.finish.1.content = before.content := by
  have hflush : (transfer.output.flush transfer.device).device = before :=
    (h.call .flush).device
  change (transfer.output.finish transfer.device).1.content = before.content
  unfold BufferedOutput.finish
  split
  · rw [h.device]
  · simp only []
    rw [hflush, Device.close]
    split <;> rfl

end Refused

/-- An output that was just made for a number. -/
def start (device : Device) (number : Int) : Transfer :=
  { output := { number }, device }

end Transfer

/-- A new output of a device after some calls. -/
def Device.serve (device : Device) (number : Int) (calls : List Call) : Transfer :=
  (Transfer.start device number).calls calls

/-- Any calls of an output on an open device that refuses no write leave what was written in the
device and, behind that, in the buffer, which never overflows; the end of the output leaves all
of it in the device, which is what a text would hold.  A device that refuses every write, be it
open or not, is left as it is, and a write to it gives up each full buffer once. -/
theorem calls_deliver (device : Device) (number : Int) (calls : List Call) :
    (device.serve number calls).output.pending.length ≤ bufferCapacity
      ∧ (device.accepts number = true →
        (device.serve number calls).device.content ++ (device.serve number calls).output.pending
            = device.content ++ (calls.filterMap Call.data?).flatten
          ∧ (device.serve number calls).finish.1.content
            = device.content ++ Sink.text.writeAll [] (calls.filterMap Call.data?)
          ∧ (device.serve number calls).finish.1.isOpen = false
          ∧ (device.serve number calls).finish.2 = []
          ∧ ∀ (session : Session) (above : Bool) (tree : Tree),
            (session.compileInto .file (.start device number) above tree).result.map
                (fun transfer => transfer.finish.1.content)
              = (session.compileInto .text [] above tree).result.map (device.content ++ ·))
      ∧ (device.refuses number = true →
        (device.serve number calls).device = device
          ∧ (device.serve number calls).finish.1.content = device.content
          ∧ ∀ data, ((device.serve number calls).write data).failures.length
            = (device.serve number calls).failures.length
              + (((device.serve number calls).output.pending ++ data).length - 1)
                / bufferCapacity) := by
  refine ⟨BufferedOutput.fits _, fun haccepts => ?_, fun hrefuses => ?_⟩
  · have hstart : (Transfer.start device number).Carries device.content :=
      ⟨List.append_nil _, haccepts, rfl, rfl⟩
    have hcalls := hstart.calls calls
    have hended := hcalls.finish
    refine ⟨hcalls.delivered, ?_, hended.2.1, hended.2.2, fun session above tree => ?_⟩
    · rw [Device.serve, hended.1, Sink.writeAll_text, List.nil_append]
    · rw [Session.result_compileInto, Session.result_compileInto]
      cases (session.compile above tree).result with
      | error violation => rfl
      | ok chunks => exact congrArg Except.ok (hstart.content_finish_writeAll chunks)
  · rcases Option.isSome_iff_exists.1 hrefuses with ⟨reason, hrefusal⟩
    have hstart : (Transfer.start device number).Refused device reason := ⟨rfl, hrefusal⟩
    have hcalls := hstart.calls calls
    exact ⟨hcalls.device, hcalls.content_finish, hcalls.length_failures_write⟩

/-- An output that is flushed when its buffer is exactly full, on a device that takes three
bytes first, on one that is not open and on one that is open but has no space left. -/
theorem calls_deliver_in_portions :
    (Device.serve { number := 100, answers := [.portion ⟨3, by decide⟩] } 100
          [.write (spaces 5000), .write (spaces 3192), .flush, .write []]).finish.1.content
        = spaces 8192
      ∧ (Device.serve { number := 100, content := ascii "x", isOpen := false } 100
          [.write (spaces 5000), .write (spaces 3192), .flush, .write []]).finish.1.content
        = ascii "x"
      ∧ (Device.serve
            { number := 100, content := ascii "x", usual := .refused (ascii "No space left") } 100
          [.write (spaces 5000), .write (spaces 3192), .flush, .write []]).finish.1.content
        = ascii "x" := by
  have hspaces : spaces 5000 ++ spaces 3192 = spaces 8192 := List.replicate_append_replicate
  refine ⟨?_, ?_, ?_⟩
  · have hdelivered := (calls_deliver { number := 100, answers := [.portion ⟨3, by decide⟩] } 100
      [.write (spaces 5000), .write (spaces 3192), .flush, .write []]).2.1 (by decide)
    rw [hdelivered.2.1, Sink.writeAll_text]
    simpa only [Call.data?, List.filterMap_cons, List.filterMap_nil, List.flatten_cons,
      List.flatten_nil, List.append_nil, List.nil_append] using hspaces
  · exact ((calls_deliver _ 100 _).2.2 (by decide)).2.1
  · exact ((calls_deliver _ 100 _).2.2 (by decide)).2.1

end TemplateCompiler
