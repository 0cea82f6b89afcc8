import TemplateCompiler.Proofs.Output.HandOver

/-!
# The owner of a device

Outputs that share a device may be written to, flushed, ended and asked to hand the device
over, in any order.  Only one of them owns the device at a time: the first one, and then
whichever output it was handed over to last.  The end of the owner is the one step that
closes the device, and an output that handed it over once leaves it alone when it ends.  None
of this depends on whether the device takes what is written to it.

Main results:

- Theorems {lit}`Pool.owns_handOver` and {lit}`Pool.owns_destroy`: who owns the device after a
  step that changes its owner.
- Theorem {lit}`Pool.step_cases`: what an allowed step does.
- Theorem {lit}`Pool.isOpen_step`: the end of the owner is the only step that closes the device.
- Theorem {lit}`Pool.Kept.run`: what the steps of a run keep.
- Theorem {lit}`Pool.isFormer_of_handOver_mem`: an output that handed the device over never
  owns it again.
- Theorem {lit}`device_has_one_owner`: the device is open while it has an owner, and is closed
  once, by the end of that owner.
-/

namespace TemplateCompiler

namespace Pool

/-! ## Runs -/

/-- Whether an output owns the device: it is not destroyed, and did not hand it over. -/
def owns (pool : Pool) (id : Nat) : Bool :=
  (pool.output? id).any fun output => !output.moved

/-- Whether a step is one on an output that is there, and hands the device over only from
its owner. -/
def allows (pool : Pool) : Step → Bool
  | .create _ => false
  | .write id _ | .flush id | .destroy id => (pool.output? id).isSome
  | .handOver id => pool.owns id

/-- Run several steps. -/
def run (pool : Pool) : List Step → Pool
  | [] => pool
  | step :: rest => (pool.step step).1.run rest

/-- Whether each of several steps is allowed where it is taken. -/
def allowsAll (pool : Pool) : List Step → Bool
  | [] => true
  | step :: rest => pool.allows step && (pool.step step).1.allowsAll rest

/-- The pool with its device open. -/
def reopened (pool : Pool) : Pool :=
  { pool with device := { pool.device with isOpen := true } }

/-- Whether a step closes the device: taken while the device is open, it leaves it closed. -/
def closes (pool : Pool) (step : Step) : Bool :=
  !(pool.reopened.step step).1.device.isOpen

/-- How often the device is closed in a run, also where it was closed before. -/
def closings (pool : Pool) : List Step → Nat
  | [] => 0
  | step :: rest => (pool.closes step).toNat + (pool.step step).1.closings rest

/-- A step that ends the owner of the device. -/
def endsOwner (pool : Pool) : Step → Bool
  | .destroy id => pool.owns id
  | _ => false

/-- A run can be cut into two. -/
theorem run_append (pool : Pool) (first second : List Step) :
    pool.run (first ++ second) = (pool.run first).run second := by
  induction first generalizing pool with
  | nil => rfl
  | cons step rest ih => exact ih (pool.step step).1

/-- The steps of a run are allowed when those of both of its parts are. -/
theorem allowsAll_append (pool : Pool) (first second : List Step) :
    pool.allowsAll (first ++ second)
      = (pool.allowsAll first && (pool.run first).allowsAll second) := by
  induction first generalizing pool with
  | nil => rfl
  | cons step rest ih =>
    rw [List.cons_append, allowsAll, allowsAll, ih (pool.step step).1, Bool.and_assoc]
    rfl

/-- An output owns the device if it is there with its flag not set. -/
theorem owns_iff {pool : Pool} {id : Nat} :
    pool.owns id = true ↔ ∃ output, pool.output? id = some output ∧ output.moved = false := by
  simp [owns, Option.any_eq_true]

private theorem lt_size_of_output? {pool : Pool} {id : Nat} {output : BufferedOutput}
    (h : pool.output? id = some output) : id < pool.outputs.size := by
  refine Nat.lt_of_not_le fun hle => ?_
  rw [output?, Array.getElem?_eq_none hle] at h
  cases h

/-- No step takes a number back that was given to an output. -/
theorem size_step (pool : Pool) (step : Step) :
    pool.outputs.size ≤ (pool.step step).1.outputs.size := by
  cases step with
  | create number => simp [Pool.step]
  | write id data | flush id =>
    simp only [Pool.step]
    split <;> simp [settle]
  | handOver id =>
    simp only [Pool.step]
    split <;> simp
  | destroy id =>
    simp only [Pool.step, destroy]
    split <;> simp

/-- A slot that is changed has its new output, and the others have theirs. -/
theorem output?_set {pool : Pool} {id : Nat} {output : BufferedOutput}
    (h : pool.output? id = some output) (device : Device) (slot : Option BufferedOutput)
    (other : Nat) :
    output? ⟨device, pool.outputs.setIfInBounds id slot⟩ other
      = if other = id then slot else pool.output? other := by
  have hlt := lt_size_of_output? h
  by_cases heq : other = id
  · subst heq
    simp [output?, hlt]
  · rw [if_neg heq, output?, output?, Array.getElem?_setIfInBounds_ne (Ne.symm heq)]

private theorem output?_push (pool : Pool) (device : Device) (output : BufferedOutput)
    (other : Nat) :
    output? ⟨device, pool.outputs.push (some output)⟩ other
      = if other = pool.outputs.size then some output else pool.output? other := by
  rw [output?, output?, Array.getElem?_push]
  split <;> rfl

end Pool

/-- The end of an output on a device leaves it open only if it was handed over. -/
theorem BufferedOutput.finish_device (output : BufferedOutput) (device : Device)
    (h : output.number = device.number) :
    (output.finish device).1.number = device.number
      ∧ (output.finish device).1.isOpen = (device.isOpen && output.moved) := by
  have hflush := output.keeps_flush device
  unfold finish
  cases output.moved with
  | true => simp
  | false =>
    have hnumber : (output.flush device).device.number = output.number :=
      hflush.number.trans h.symm
    simp only [Bool.false_eq_true, if_false]
    rw [Device.close, if_pos hnumber]
    exact ⟨hflush.number, (Bool.and_false _).symm⟩

namespace Pool

/-! ## One step -/

/-- Whether all outputs of a pool write to its device. -/
def IsShared (pool : Pool) : Prop :=
  ∀ id output, pool.output? id = some output → output.number = pool.device.number

/-- A write or a flush leaves every output the owner that it was. -/
theorem owns_settle {pool : Pool} {id : Nat} {output : BufferedOutput}
    (h : pool.output? id = some output) {transfer : Transfer}
    (hmoved : transfer.output.moved = output.moved) (other : Nat) :
    (pool.settle id transfer).1.owns other = pool.owns other := by
  rw [owns, settle, output?_set h]
  split
  · next heq =>
    rw [heq, owns, h]
    simp [hmoved]
  · rfl

private theorem isShared_settle {pool : Pool} (hshared : pool.IsShared) {id : Nat}
    {output : BufferedOutput} (h : pool.output? id = some output) {transfer : Transfer}
    (hnumber : transfer.output.number = output.number)
    (hdevice : pool.device.Keeps transfer.device) : (pool.settle id transfer).1.IsShared := by
  intro other found hfound
  rw [settle, output?_set h] at hfound
  rw [settle, hdevice.number]
  split at hfound
  · cases hfound
    exact hnumber.trans (hshared id output h)
  · exact hshared other found hfound

/-- When an output hands the device over, its flag is set and a new output is made. -/
theorem output?_handOver {pool : Pool} {id : Nat} {output : BufferedOutput}
    (h : pool.output? id = some output) (other : Nat) :
    (pool.step (.handOver id)).1.output? other
      = if other = pool.outputs.size then some output.handOver.2
        else if other = id then some output.handOver.1 else pool.output? other := by
  have hpush := output?_push ⟨pool.device, pool.outputs.setIfInBounds id (some output.handOver.1)⟩
    pool.device output.handOver.2 other
  rw [output?_set h, Array.size_setIfInBounds] at hpush
  simp only [step, h]
  exact hpush

/-- The output that is made when the device is handed over owns it, and the old one does
not. -/
theorem owns_handOver {pool : Pool} {id : Nat} (h : pool.owns id = true) (other : Nat) :
    (pool.step (.handOver id)).1.owns other
      = (other == pool.outputs.size || (other != id && pool.owns other)) := by
  rcases owns_iff.1 h with ⟨output, houtput, -⟩
  rw [owns, output?_handOver houtput]
  by_cases hnew : other = pool.outputs.size
  · simp [hnew, BufferedOutput.handOver]
  · rw [if_neg hnew, beq_false_of_ne hnew, Bool.false_or]
    by_cases hold : other = id
    · simp [hold, BufferedOutput.handOver]
    · simp [hold, owns]

/-- An output that is ended does not own the device, and the others are what they were. -/
theorem owns_destroy (pool : Pool) (id other : Nat) :
    (pool.destroy id).1.owns other = (other != id && pool.owns other) := by
  by_cases heq : other = id
  · subst heq
    simp [owns, output?_destroy]
  · simp [owns, output?_destroy_of_ne pool heq, heq]

/-- Handing the device over does nothing to it. -/
theorem device_handOver (pool : Pool) (id : Nat) :
    (pool.step (.handOver id)).1.device = pool.device := by
  simp only [step]
  split <;> rfl

private theorem isShared_handOver {pool : Pool} (hshared : pool.IsShared) {id : Nat}
    (h : pool.owns id = true) : (pool.step (.handOver id)).1.IsShared := by
  rcases owns_iff.1 h with ⟨output, houtput, -⟩
  have hnumber := hshared id output houtput
  intro other found hfound
  rw [output?_handOver houtput] at hfound
  rw [device_handOver]
  split at hfound
  · cases hfound
    exact hnumber
  · split at hfound
    · cases hfound
      exact hnumber
    · exact hshared other found hfound

private theorem isShared_destroy {pool : Pool} (hshared : pool.IsShared) (id : Nat) :
    (pool.destroy id).1.IsShared := by
  intro other found hfound
  have hother : pool.output? other = some found := by
    by_cases heq : other = id
    · rw [heq, output?_destroy] at hfound
      cases hfound
    · rwa [output?_destroy_of_ne pool heq] at hfound
  have hnumber := hshared other found hother
  cases houtput : pool.output? id with
  | none =>
    unfold destroy
    rw [houtput]
    exact hnumber
  | some output =>
    rw [(destroy_eq houtput).1, (output.finish_device pool.device (hshared id output houtput)).1]
    exact hnumber

private theorem endsOwner_iff {pool : Pool} {step : Step} :
    pool.endsOwner step = true ↔ ∃ id, step = .destroy id ∧ pool.owns id = true := by
  cases step <;> simp [endsOwner]

/-- What an allowed step does: it settles an output, which goes on under its number and with its
flag while the device stays open or closed, or it hands the device over from its owner, or it
ends an output. -/
theorem step_cases {pool : Pool} {step : Step} (hallowed : pool.allows step = true) :
    (∃ id output transfer, pool.output? id = some output
        ∧ (pool.step step).1 = (pool.settle id transfer).1
        ∧ transfer.output.number = output.number ∧ transfer.output.moved = output.moved
        ∧ pool.device.Keeps transfer.device ∧ pool.endsOwner step = false)
      ∨ (∃ id, step = .handOver id ∧ pool.owns id = true)
      ∨ ∃ id output, step = .destroy id ∧ pool.output? id = some output := by
  cases step with
  | create number => cases hallowed
  | write id data =>
    rcases Option.isSome_iff_exists.1 hallowed with ⟨output, houtput⟩
    refine .inl ⟨id, output, output.write pool.device data, houtput, ?_,
      BufferedOutput.number_write .., BufferedOutput.moved_write ..,
      output.keeps_write pool.device data, rfl⟩
    simp only [Pool.step, houtput]
  | flush id =>
    rcases Option.isSome_iff_exists.1 hallowed with ⟨output, houtput⟩
    refine .inl ⟨id, output, output.flush pool.device, houtput, ?_, rfl, rfl,
      output.keeps_flush pool.device, rfl⟩
    simp only [Pool.step, houtput]
  | handOver id => exact .inr (.inl ⟨id, rfl, hallowed⟩)
  | destroy id =>
    rcases Option.isSome_iff_exists.1 hallowed with ⟨output, houtput⟩
    exact .inr (.inr ⟨id, output, rfl, houtput⟩)

/-- Outputs go on sharing the device. -/
theorem IsShared.step {pool : Pool} (hshared : pool.IsShared) {step : Step}
    (hallowed : pool.allows step = true) : (pool.step step).1.IsShared := by
  rcases step_cases hallowed with ⟨id, output, transfer, houtput, hstep, hnumber, -, hkeeps, -⟩
    | ⟨id, rfl, howns⟩ | ⟨id, output, rfl, -⟩
  · rw [hstep]
    exact isShared_settle hshared houtput hnumber hkeeps
  · exact isShared_handOver hshared howns
  · exact isShared_destroy hshared id

/-- Only the end of the owner closes the device. -/
theorem isOpen_step {pool : Pool} (hshared : pool.IsShared) {step : Step}
    (hallowed : pool.allows step = true) :
    (pool.step step).1.device.isOpen = (pool.device.isOpen && !pool.endsOwner step) := by
  rcases step_cases hallowed with ⟨id, output, transfer, -, hstep, -, -, hkeeps, hends⟩
    | ⟨id, rfl, -⟩ | ⟨id, output, rfl, houtput⟩
  · rw [hstep, hends, Bool.not_false, Bool.and_true]
    exact hkeeps.isOpen
  · rw [device_handOver]
    exact (Bool.and_true _).symm
  · have hended := (output.finish_device pool.device (hshared id output houtput)).2
    simp [Pool.step, (destroy_eq houtput).1, hended, endsOwner, owns, houtput]

private theorem isOpen_step_of_not_endsOwner {pool : Pool} (hshared : pool.IsShared) {step : Step}
    (hallowed : pool.allows step = true) (hends : pool.endsOwner step = false) :
    (pool.step step).1.device.isOpen = pool.device.isOpen := by
  rw [isOpen_step hshared hallowed, hends, Bool.not_false, Bool.and_true]

/-- A step closes the device when it ends the owner. -/
theorem closes_eq {pool : Pool} (hshared : pool.IsShared) {step : Step}
    (hallowed : pool.allows step = true) : pool.closes step = pool.endsOwner step := by
  have hreopened : pool.reopened.IsShared := hshared
  have hstep : pool.reopened.allows step = true := by
    cases step <;> exact hallowed
  have hends : pool.reopened.endsOwner step = pool.endsOwner step := by
    cases step <;> rfl
  rw [closes, isOpen_step hreopened hstep, hends]
  simp [reopened]

/-! ## Any run -/

/-- Whether the outputs of a pool share its device, which has at most one owner among them
and is open while it has one. -/
structure Kept (pool : Pool) : Prop where
  shared : pool.IsShared
  unique : ∀ id other, pool.owns id = true → pool.owns other = true → id = other
  isOpen_iff : pool.device.isOpen = true ↔ ∃ id, pool.owns id = true

namespace Kept

variable {pool : Pool}

/-- A new output on an open device owns it. -/
theorem start {device : Device} {number : Int} (h : device.isOpenAs number = true) :
    (Pool.step { device } (.create number)).1.Kept := by
  simp only [Device.isOpenAs, Bool.and_eq_true, beq_iff_eq] at h
  have hlookup (id : Nat) : (Pool.step { device } (.create number)).1.output? id
      = if id = 0 then some { number } else none := by
    refine (output?_push { device } device { number } id).trans ?_
    simp [output?]
  have howns (id : Nat) : (Pool.step { device } (.create number)).1.owns id = (id == 0) := by
    rw [owns, hlookup]
    by_cases hid : id = 0 <;> simp [hid]
  refine ⟨?_, ?_, ?_⟩
  · intro id output houtput
    rw [hlookup] at houtput
    split at houtput
    · cases houtput
      exact h.2.symm
    · cases houtput
  · intro id other hid hother
    rw [howns, beq_iff_eq] at hid hother
    rw [hid, hother]
  · exact ⟨fun _ => ⟨0, howns 0⟩, fun _ => h.1⟩

/-- A step that changes no owner and leaves the device open or closed keeps all this. -/
theorem of_owns_eq (h : pool.Kept) {next : Pool} (hshared : next.IsShared)
    (howns : ∀ id, next.owns id = pool.owns id)
    (hopen : next.device.isOpen = pool.device.isOpen) : next.Kept := by
  refine ⟨hshared, fun id other hid hother => ?_, ?_⟩
  · rw [howns] at hid hother
    exact h.unique id other hid hother
  · simp only [howns, hopen]
    exact h.isOpen_iff

/-- The old owner was the only one, so the new output is the only one when the device is handed
over. -/
theorem owns_handOver_eq (h : pool.Kept) {id : Nat} (hallowed : pool.owns id = true)
    (other : Nat) :
    (pool.step (.handOver id)).1.owns other = (other == pool.outputs.size) := by
  rw [owns_handOver hallowed]
  cases hother : pool.owns other with
  | false => rw [Bool.and_false, Bool.or_false]
  | true =>
    have heq := h.unique other id hother hallowed
    simp [heq]

/-- Handing the device over keeps one owner. -/
theorem handOver (h : pool.Kept) {id : Nat} (hallowed : pool.owns id = true) :
    (pool.step (.handOver id)).1.Kept := by
  have hopen : (pool.step (.handOver id)).1.device.isOpen = pool.device.isOpen :=
    isOpen_step_of_not_endsOwner h.shared hallowed rfl
  have howns := h.owns_handOver_eq hallowed
  refine ⟨isShared_handOver h.shared hallowed, fun first second hfirst hsecond => ?_, ?_⟩
  · rw [howns, beq_iff_eq] at hfirst hsecond
    rw [hfirst, hsecond]
  · rw [hopen]
    exact ⟨fun _ => ⟨pool.outputs.size, by simp [howns]⟩, fun _ => h.isOpen_iff.2 ⟨id, hallowed⟩⟩

/-- The end of an output leaves one owner, or none and the device closed. -/
theorem destroy (h : pool.Kept) {id : Nat} (hallowed : pool.allows (.destroy id) = true) :
    (pool.destroy id).1.Kept := by
  have hshared := isShared_destroy h.shared id
  have hopen : (pool.destroy id).1.device.isOpen = (pool.device.isOpen && !pool.owns id) :=
    isOpen_step h.shared hallowed
  cases howner : pool.owns id with
  | false =>
    rw [howner, Bool.not_false, Bool.and_true] at hopen
    refine h.of_owns_eq hshared (fun other => ?_) hopen
    rw [owns_destroy]
    by_cases heq : other = id
    · rw [heq, howner, Bool.and_false]
    · simp [heq]
  | true =>
    rw [howner, Bool.not_true, Bool.and_false] at hopen
    have hnone (other : Nat) : (pool.destroy id).1.owns other = false := by
      rw [owns_destroy]
      cases hother : pool.owns other with
      | false => exact Bool.and_false _
      | true => simp [h.unique other id hother howner]
    refine ⟨hshared, fun first second hfirst => ?_, ?_⟩
    · rw [hnone] at hfirst
      cases hfirst
    · simp [hnone, hopen]

/-- An allowed step leaves at most one owner, and the device open exactly if there is one. -/
theorem step (h : pool.Kept) {step : Step} (hallowed : pool.allows step = true) :
    (pool.step step).1.Kept := by
  rcases step_cases hallowed with ⟨id, output, transfer, houtput, hstep, -, hmoved, -, hends⟩
    | ⟨id, rfl, howns⟩ | ⟨id, output, rfl, -⟩
  · refine h.of_owns_eq (h.shared.step hallowed) (fun other => ?_)
      (isOpen_step_of_not_endsOwner h.shared hallowed hends)
    rw [hstep, owns_settle houtput hmoved]
  · exact h.handOver howns
  · exact h.destroy hallowed

/-- After any allowed steps there is at most one owner, and the device was closed if there is
none left. -/
theorem run (h : pool.Kept) {steps : List Step} (hallowed : pool.allowsAll steps = true) :
    (pool.run steps).Kept
      ∧ pool.closings steps + (pool.run steps).device.isOpen.toNat = pool.device.isOpen.toNat := by
  induction steps generalizing pool with
  | nil => exact ⟨h, Nat.zero_add _⟩
  | cons first rest ih =>
    simp only [allowsAll, Bool.and_eq_true] at hallowed
    rcases hallowed with ⟨hfirst, hrest⟩
    rcases ih (h.step hfirst) hrest with ⟨hkept, hcount⟩
    have hopen := isOpen_step h.shared hfirst
    have hends : pool.endsOwner first = true → pool.device.isOpen = true := by
      intro hends
      rcases endsOwner_iff.1 hends with ⟨id, -, howns⟩
      exact h.isOpen_iff.2 ⟨id, howns⟩
    refine ⟨hkept, ?_⟩
    rw [closings, Pool.run, Nat.add_assoc, hcount, closes_eq h.shared hfirst, hopen]
    cases hender : pool.endsOwner first with
    | false => simp
    | true => simp [hends hender]

end Kept

/-! ## Outputs that handed the device over -/

/-- Whether an output was made, and does not own the device any more. -/
structure IsFormer (pool : Pool) (id : Nat) : Prop where
  made : id < pool.outputs.size
  owns : pool.owns id = false

private theorem lt_size_of_owns {pool : Pool} {id : Nat} (h : pool.owns id = true) :
    id < pool.outputs.size := by
  rcases owns_iff.1 h with ⟨output, houtput, -⟩
  exact lt_size_of_output? houtput

/-- The output that hands the device over does not own it any more. -/
theorem isFormer_handOver {pool : Pool} {id : Nat} (h : pool.owns id = true) :
    (pool.step (.handOver id)).1.IsFormer id := by
  have hlt := lt_size_of_owns h
  refine ⟨Nat.lt_of_lt_of_le hlt (size_step pool (.handOver id)), ?_⟩
  rw [owns_handOver h, beq_false_of_ne (Nat.ne_of_lt hlt), bne_self_eq_false]
  rfl

/-- The end of an output that does not own the device leaves the device as it is. -/
theorem destroy_of_not_owns {pool : Pool} {id : Nat} (h : pool.owns id = false) :
    (pool.destroy id).1.device = pool.device ∧ (pool.destroy id).2 = [] := by
  refine pool.destroy_of_moved fun output houtput => ?_
  rw [Pool.owns, houtput, Option.any_some, Bool.not_eq_false'] at h
  exact h

namespace IsFormer

variable {pool : Pool} {id : Nat}

/-- No step gives the device back to an output. -/
theorem step (h : pool.IsFormer id) {step : Step} (hallowed : pool.allows step = true) :
    (pool.step step).1.IsFormer id := by
  refine ⟨Nat.lt_of_lt_of_le h.made (size_step pool step), ?_⟩
  rcases step_cases hallowed with ⟨other, output, transfer, houtput, hstep, -, hmoved, -, -⟩
    | ⟨other, rfl, howns⟩ | ⟨other, output, rfl, -⟩
  · rw [hstep, owns_settle houtput hmoved, h.owns]
  · rw [owns_handOver howns, beq_false_of_ne (Nat.ne_of_lt h.made), h.owns, Bool.and_false]
    rfl
  · rw [Pool.step, owns_destroy, h.owns, Bool.and_false]

/-- No run gives the device back to an output. -/
theorem run (h : pool.IsFormer id) {steps : List Step} (hallowed : pool.allowsAll steps = true) :
    (pool.run steps).IsFormer id := by
  induction steps generalizing pool with
  | nil => exact h
  | cons first rest ih =>
    simp only [allowsAll, Bool.and_eq_true] at hallowed
    exact ih (h.step hallowed.1) hallowed.2

end IsFormer

/-- An output that hands the device over in a run does not own it at the end of the run. -/
theorem isFormer_of_handOver_mem {pool : Pool} {steps : List Step}
    (hallowed : pool.allowsAll steps = true) {id : Nat} (h : .handOver id ∈ steps) :
    (pool.run steps).IsFormer id := by
  rcases List.append_of_mem h with ⟨before, after, rfl⟩
  rw [allowsAll_append, allowsAll, Bool.and_eq_true, Bool.and_eq_true] at hallowed
  rcases hallowed with ⟨-, howns, hafter⟩
  rw [run_append]
  exact (isFormer_handOver howns).run hafter

end Pool

/-- The outputs of an open device, after any steps that hand it over only from its owner and
whether or not the device takes what is written: at most one of them owns it, it is open exactly
while one does, and it was closed once if none does any more and not at all before.  The step
that closes it is the end of the owner.  When the owner hands the device over, the device stays
as it is, the owner stays with its flag set, and the new output is the only owner.  The end of an
output that does not own the device leaves it and its content as they are, and no output owns it
again that handed it over once. -/
theorem device_has_one_owner (device : Device) (number : Int) (steps : List Pool.Step)
    (hopen : device.isOpenAs number = true)
    (hallowed : (Pool.step { device } (.create number)).1.allowsAll steps = true) :
    let start := (Pool.step { device } (.create number)).1
    let pool := start.run steps
    (∀ id other, pool.owns id = true → pool.owns other = true → id = other)
      ∧ (pool.device.isOpen = true ↔ ∃ id, pool.owns id = true)
      ∧ start.closings steps = (if pool.device.isOpen then 0 else 1)
      ∧ (∀ step, pool.allows step = true →
        (pool.closes step = true ↔ ∃ id, step = .destroy id ∧ pool.owns id = true)
          ∧ (pool.step step).1.device.isOpen = (pool.device.isOpen && !pool.closes step))
      ∧ (∀ id, pool.owns id = true →
        (pool.step (.handOver id)).1.device = pool.device
          ∧ ((pool.step (.handOver id)).1.output? id).map BufferedOutput.moved = some true
          ∧ ∀ other, (pool.step (.handOver id)).1.owns other = (other == pool.outputs.size))
      ∧ (∀ id, .handOver id ∈ steps → pool.owns id = false)
      ∧ ∀ id, pool.owns id = false →
        (pool.step (.destroy id)).1.device = pool.device ∧ (pool.step (.destroy id)).2 = [] := by
  intro start pool
  have hstart : start.Kept := .start hopen
  rcases hstart.run hallowed with ⟨hkept, hcount⟩
  have hdevice : start.device.isOpen = true := by
    simp only [Device.isOpenAs, Bool.and_eq_true] at hopen
    exact hopen.1
  refine ⟨hkept.unique, hkept.isOpen_iff, ?_, fun step hstep => ⟨?_, ?_⟩,
    fun id howns => ⟨pool.device_handOver id, ?_, hkept.owns_handOver_eq howns⟩,
    fun id hmem => (Pool.isFormer_of_handOver_mem hallowed hmem).owns,
    fun id howns => Pool.destroy_of_not_owns howns⟩
  · rw [hdevice] at hcount
    change start.closings steps + pool.device.isOpen.toNat = 1 at hcount
    cases hclosed : pool.device.isOpen <;> simpa [hclosed] using hcount
  · rw [Pool.closes_eq hkept.shared hstep, Pool.endsOwner_iff]
  · rw [Pool.closes_eq hkept.shared hstep, Pool.isOpen_step hkept.shared hstep]
  · rcases Pool.owns_iff.1 howns with ⟨output, houtput, -⟩
    have hne := Nat.ne_of_lt (Pool.lt_size_of_owns howns)
    rw [Pool.output?_handOver houtput, if_neg hne, if_pos rfl]
    rfl

/-- A device whose first write is refused, and that is handed over.  The first output may end
while the new one goes on; or it is still written to after the end of the new one, which closes
the device. -/
theorem device_has_one_owner_of_late_write :
    let start := (Pool.step
      { device := { number := 100, answers := [.refused (ascii "No space left")] } }
      (.create 100)).1
    let steps := [.write 0 (ascii "a"), .flush 0, .handOver 0, .write 1 (ascii "b")]
    let late := [.destroy 1, .write 0 (ascii "c"), .destroy 0]
    start.allowsAll (steps ++ late) = true ∧ start.closings (steps ++ late) = 1
      ∧ ((start.run steps).step (.destroy 0)).1.device = (start.run steps).device := by
  intro start steps late
  have hrun : start.allowsAll (steps ++ late) = true
      ∧ (start.run (steps ++ late)).device.isOpen = false := by
    simp [start, steps, late, Pool.allowsAll, Pool.allows, Pool.run, Pool.step, Pool.owns,
      Pool.output?, Pool.settle, Pool.destroy, BufferedOutput.write, BufferedOutput.fill,
      BufferedOutput.room, bufferCapacity, BufferedOutput.flush, BufferedOutput.handOver,
      BufferedOutput.finish, Device.take, Device.answer, Device.isOpenAs, Device.receive,
      Device.close, ascii]
  have hsteps : start.allowsAll steps = true := by
    have hlate := hrun.1
    rw [Pool.allowsAll_append, Bool.and_eq_true] at hlate
    exact hlate.1
  have hearly := device_has_one_owner _ 100 steps rfl hsteps
  have hended := device_has_one_owner _ 100 (steps ++ late) rfl hrun.1
  refine ⟨hrun.1, ?_, ?_⟩
  · rw [hended.2.2.1, hrun.2, if_neg Bool.false_ne_true]
  · have howns := hearly.2.2.2.2.2.1 0 (by simp [steps])
    rw [(hearly.2.2.2.2.2.2 0 howns).1]

end TemplateCompiler
