import TemplateCompiler.Message

/-!
# Buffered output

Generated code goes to a device through a buffer, so that small pieces make no
writes of their own.  A device that is open takes what it is given, in one write or
in several, or refuses a write; what it does not take is lost, and reported.  An
output may hand its device over to another one, and only the last owner closes it.

Main results:

- Theorem {lit}`Device.keeps_take`: writing never opens or closes a device.
- Theorem {lit}`Device.took_take`: a device that refuses no write takes all that it is
  given, in order.
- Theorem {lit}`Device.take_of_refusal`: a device that refuses every write stays as it is.
-/

namespace TemplateCompiler

/-! ## Devices -/

/-- What becomes of a write to an open device. -/
inductive WriteAnswer where
  /-- All data is taken. -/
  | all
  /-- At most so many bytes are taken. -/
  | portion (count : {count : Nat // 0 < count})
  /-- Nothing is taken, for a reason that the system gives. -/
  | refused (reason : Bytes)
deriving DecidableEq, Repr

/-- Whether a write takes any of its data. -/
def WriteAnswer.takes : WriteAnswer → Bool
  | .all | .portion _ => true
  | .refused _ => false

/-- A file that is open under a number. -/
structure Device where
  number : Int
  content : Bytes := []
  isOpen : Bool := true
  /-- What becomes of the next writes. -/
  answers : List WriteAnswer := []
  /-- What becomes of the writes after these. -/
  usual : WriteAnswer := .all
deriving DecidableEq, Repr

/-- A write of which a device took nothing. -/
structure WriteFailure where
  /-- The number that was written to. -/
  number : Int
  /-- The reason that the system gave. -/
  cause : Bytes
deriving DecidableEq, Repr

/-- The reason for which a write to a number is refused under which nothing is open. -/
def notOpen : Bytes := ascii "Bad file descriptor"

namespace Device

/-- Whether the device is open under a number. -/
def isOpenAs (device : Device) (number : Int) : Bool :=
  device.isOpen && device.number == number

/-- Whether all that is written to a number reaches the device. -/
def accepts (device : Device) (number : Int) : Bool :=
  device.isOpenAs number && device.usual.takes && device.answers.all WriteAnswer.takes

/-- The reason for which every write to a number is refused, if every one is. -/
def refusal? (device : Device) (number : Int) : Option Bytes :=
  if device.isOpenAs number then
    match device.answers, device.usual with
    | [], .refused reason => some reason
    | _, _ => none
  else some notOpen

/-- Whether nothing that is written to a number reaches the device. -/
def refuses (device : Device) (number : Int) : Bool :=
  (device.refusal? number).isSome

/-- What becomes of one write to a number, and the device for the next one. -/
def answer (device : Device) (number : Int) : WriteAnswer × Device :=
  if device.isOpenAs number then
    (device.answers.headD device.usual, { device with answers := device.answers.tail })
  else (.refused notOpen, device)

/-- The device with some data added to its content. -/
def receive (device : Device) (data : Bytes) : Device :=
  { device with content := device.content ++ data }

/-- Write to a number until all data is taken.  A write that takes nothing ends this,
and what is left is lost.  Writing nothing always succeeds. -/
def take (device : Device) (number : Int) (data : Bytes) : Device × List WriteFailure :=
  match data with
  | [] => (device, [])
  | c :: rest =>
    match device.answer number with
    | (.refused reason, after) => (after, [⟨number, reason⟩])
    | (.all, after) => (after.receive (c :: rest), [])
    | (.portion count, after) =>
      (after.receive ((c :: rest).take count)).take number ((c :: rest).drop count)
termination_by data.length
decreasing_by
  have := count.property
  simp only [List.length_drop, List.length_cons]
  omega

/-- Close a number, which is no fault if nothing is open under it. -/
def close (device : Device) (number : Int) : Device :=
  if device.number = number then { device with isOpen := false } else device

/-- What a write leaves of a device but for its content. -/
structure Keeps (device after : Device) : Prop where
  number : after.number = device.number
  isOpen : after.isOpen = device.isOpen
  usual : after.usual = device.usual
  answers : after.answers ⊆ device.answers

namespace Keeps

variable {device middle after : Device}

theorem refl (device : Device) : device.Keeps device :=
  ⟨rfl, rfl, rfl, List.Subset.refl _⟩

theorem trans (hfirst : device.Keeps middle) (hsecond : middle.Keeps after) :
    device.Keeps after where
  number := hsecond.number.trans hfirst.number
  isOpen := hsecond.isOpen.trans hfirst.isOpen
  usual := hsecond.usual.trans hfirst.usual
  answers := List.Subset.trans hsecond.answers hfirst.answers

/-- A write leaves the device open under the same numbers. -/
theorem isOpenAs (h : device.Keeps after) (number : Int) :
    after.isOpenAs number = device.isOpenAs number := by
  rw [Device.isOpenAs, Device.isOpenAs, h.isOpen, h.number]

/-- A device that refused no write goes on so. -/
theorem accepts (h : device.Keeps after) {number : Int} (haccepts : device.accepts number = true) :
    after.accepts number = true := by
  simp only [Device.accepts, Bool.and_eq_true, List.all_eq_true] at haccepts ⊢
  rw [h.isOpenAs, h.usual]
  exact ⟨haccepts.1, fun answer hanswer => haccepts.2 answer (h.answers hanswer)⟩

/-- Data that is added to the content changes nothing else. -/
theorem receive (h : device.Keeps after) (data : Bytes) : device.Keeps (after.receive data) :=
  ⟨h.number, h.isOpen, h.usual, h.answers⟩

end Keeps

/-- An answer only takes the place of the next one. -/
theorem keeps_of_answer {device after : Device} {number : Int} {given : WriteAnswer}
    (h : device.answer number = (given, after)) : device.Keeps after := by
  unfold answer at h
  split at h
  · cases h
    exact ⟨rfl, rfl, rfl, fun _ => List.mem_of_mem_tail⟩
  · cases h
    exact .refl device

/-- Writing never opens or closes a device. -/
theorem keeps_take (device : Device) (number : Int) (data : Bytes) :
    device.Keeps (device.take number data).1 := by
  fun_induction take device number data with
  | case1 device => exact .refl device
  | case2 device c rest reason after hanswer => exact keeps_of_answer hanswer
  | case3 device c rest after hanswer => exact (keeps_of_answer hanswer).receive _
  | case4 device c rest count after hanswer ih =>
    exact ((keeps_of_answer hanswer).receive _).trans ih

/-- What becomes of a device that takes some data. -/
structure Took (device after : Device) (data : Bytes) : Prop extends device.Keeps after where
  content : after.content = device.content ++ data

namespace Took

variable {device middle after : Device} {first second : Bytes}

theorem refl (device : Device) : device.Took device [] :=
  ⟨.refl device, (List.append_nil _).symm⟩

theorem trans (hfirst : device.Took middle first) (hsecond : middle.Took after second) :
    device.Took after (first ++ second) where
  toKeeps := hfirst.toKeeps.trans hsecond.toKeeps
  content := by rw [hsecond.content, hfirst.content, List.append_assoc]

end Took

/-- A write to a device that refuses none takes data, and adds nothing else. -/
theorem takes_of_accepts {device after : Device} {number : Int} {given : WriteAnswer}
    (h : device.accepts number = true) (hanswer : device.answer number = (given, after)) :
    given.takes = true ∧ after.content = device.content := by
  simp only [accepts, Bool.and_eq_true, List.all_eq_true] at h
  rcases h with ⟨⟨hopen, husual⟩, hanswers⟩
  rw [answer, if_pos hopen] at hanswer
  cases hanswer
  refine ⟨?_, rfl⟩
  cases hlist : device.answers with
  | nil => exact husual
  | cons first more =>
    rw [hlist] at hanswers
    exact hanswers first (List.mem_cons_self ..)

/-- A device that refuses no write takes all that it is given, in order and without a
failure. -/
theorem took_take {device : Device} {number : Int} (h : device.accepts number = true)
    (data : Bytes) :
    device.Took (device.take number data).1 data ∧ (device.take number data).2 = [] := by
  suffices hcontent : (device.take number data).1.content = device.content ++ data
      ∧ (device.take number data).2 = [] from
    ⟨⟨device.keeps_take number data, hcontent.1⟩, hcontent.2⟩
  fun_induction take device number data with
  | case1 device => exact ⟨(List.append_nil _).symm, rfl⟩
  | case2 device c rest reason after hanswer => cases (takes_of_accepts h hanswer).1
  | case3 device c rest after hanswer =>
    exact ⟨congrArg (· ++ (c :: rest)) (takes_of_accepts h hanswer).2, rfl⟩
  | case4 device c rest count after hanswer ih =>
    rcases ih (((keeps_of_answer hanswer).receive _).accepts h) with ⟨hrest, hfailures⟩
    refine ⟨hrest.trans ?_, hfailures⟩
    change after.content ++ (c :: rest).take count ++ (c :: rest).drop count = _
    rw [(takes_of_accepts h hanswer).2, List.append_assoc, List.take_append_drop]

/-- A write to a device that refuses every one is refused, and the device stays as it
is. -/
theorem answer_of_refusal {device : Device} {number : Int} {reason : Bytes}
    (h : device.refusal? number = some reason) :
    device.answer number = (.refused reason, device) := by
  obtain ⟨_, content, isOpen, answers, usual⟩ := device
  unfold refusal? at h
  unfold answer
  split at h
  · next hopen =>
    rw [if_pos hopen]
    split at h
    · next hanswers husual =>
      cases h
      cases hanswers
      cases husual
      rfl
    · cases h
  · next hclosed =>
    cases h
    exact if_neg hclosed

/-- A device that refuses every write takes nothing, and any data is reported as lost
once. -/
theorem take_of_refusal {device : Device} {number : Int} {reason : Bytes}
    (h : device.refusal? number = some reason) (data : Bytes) :
    device.take number data = (device, if data = [] then [] else [⟨number, reason⟩]) := by
  cases data with
  | nil => simp [take]
  | cons c rest => simp [take, answer_of_refusal h]

end Device

/-- The line that reports a failed write. -/
def WriteFailure.line (failure : WriteFailure) : Bytes :=
  errorMark ++ ascii "Couldn't write generated code to file descriptor "
    ++ ascii (toString failure.number) ++ ascii "!\n"

/-- The line that gives the reason of a failed write. -/
def WriteFailure.reason (failure : WriteFailure) : Bytes :=
  ascii "\twrite: " ++ failure.cause ++ ascii "\n"

/-! ## Buffers -/

/-- How many bytes an output holds back. -/
def bufferCapacity : Nat := 4096

theorem bufferCapacity_pos : 0 < bufferCapacity := by
  decide

/-- An output with its buffer. -/
structure BufferedOutput where
  /-- The number of the device. -/
  number : Int
  /-- The bytes that are held back. -/
  pending : Bytes := []
  /-- Whether the device was handed over. -/
  moved : Bool := false
  /-- The buffer never holds more than its capacity. -/
  fits : pending.length ≤ bufferCapacity := by exact Nat.zero_le _

/-- An output and its device after an operation, and the writes that failed. -/
structure Transfer where
  output : BufferedOutput
  device : Device
  failures : List WriteFailure := []

namespace BufferedOutput

/-- The bytes that the buffer still has room for. -/
def room (output : BufferedOutput) : Nat :=
  bufferCapacity - output.pending.length

/-- Hold back as much of some data as there is room for. -/
def fill (output : BufferedOutput) (data : Bytes) : BufferedOutput where
  number := output.number
  pending := output.pending ++ data.take output.room
  moved := output.moved
  fits := by
    have := output.fits
    simp only [List.length_append, List.length_take, room]
    omega

/-- Write what is held back.  What the device does not take is dropped. -/
def flush (output : BufferedOutput) (device : Device) : Transfer :=
  let (device, failures) := device.take output.number output.pending
  { output := { number := output.number, moved := output.moved }, device, failures }

@[simp] theorem pending_flush (output : BufferedOutput) (device : Device) :
    (output.flush device).output.pending = [] := rfl

/-- Write data: it is held back where there is room, and a full buffer is flushed
when more is to come. -/
def write (output : BufferedOutput) (device : Device) (data : Bytes) : Transfer :=
  if data.length ≤ output.room then { output := output.fill data, device }
  else
    let flushed := (output.fill data).flush device
    let rest := flushed.output.write flushed.device (data.drop output.room)
    { rest with failures := flushed.failures ++ rest.failures }
termination_by (data.length, output.pending.length)
decreasing_by
  by_cases hroom : output.room = 0
  · have hfull : 0 < output.pending.length := by
      have := bufferCapacity_pos
      simp only [room] at hroom
      omega
    rw [hroom, List.drop_zero]
    exact Prod.Lex.right _ (by simpa using hfull)
  · apply Prod.Lex.left
    simp only [List.length_drop]
    omega

/-- Write several pieces of data in order. -/
def writeAll (output : BufferedOutput) (device : Device) : List Bytes → Transfer
  | [] => { output, device }
  | data :: more =>
    let first := output.write device data
    let rest := first.output.writeAll first.device more
    { rest with failures := first.failures ++ rest.failures }

/-- Hand the device over to a new output.  What the old one holds back stays with
it. -/
def handOver (output : BufferedOutput) : BufferedOutput × BufferedOutput :=
  ({ output with moved := true }, { number := output.number })

/-- End an output: one that still owns its device flushes and closes it. -/
def finish (output : BufferedOutput) (device : Device) : Device × List WriteFailure :=
  if output.moved then (device, [])
  else
    let flushed := output.flush device
    (flushed.device.close output.number, flushed.failures)

end BufferedOutput

/-- Write pieces of data to a device through an output of its own. -/
def Device.save (device : Device) (chunks : List Bytes) : Device × List WriteFailure :=
  let output : BufferedOutput := { number := device.number }
  let written := output.writeAll device chunks
  let (closed, failures) := written.output.finish written.device
  (closed, written.failures ++ failures)

end TemplateCompiler
