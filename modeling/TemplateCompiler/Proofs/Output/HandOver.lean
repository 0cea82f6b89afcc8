import TemplateCompiler.Output.Pool
import TemplateCompiler.Proofs.Output.Delivery
import Mathlib.Data.List.ReduceOption

/-!
# What a shared device receives

An output that hands its device over keeps the bytes that it holds back, and its end
does not write them: only the newest output is ever flushed and closed.  So the device
receives what was written exactly if every output had nothing to flush when it handed
the device over.

Main results:

- Theorem {lit}`Pool.Holds.turn` and {lit}`Pool.Holds.turns`: what the turns of the newest
  output keep.
- Theorem {lit}`Pool.Holds.destroyEach`: in whatever order the outputs end, the device
  ends with the newest one.
- Theorem {lit}`turns_deliver`: what any turns and the end of all outputs leave in the
  device, and when that is all that was written.
-/

namespace TemplateCompiler

/-! ## Turns of the newest output -/

/-- A turn of the newest output: a call, or handing its device over to a new one. -/
inductive Turn where
  | call (call : Call)
  | handOver
deriving DecidableEq, Repr

namespace Turn

/-- The step that a turn of an output is. -/
def step (id : Nat) : Turn → Pool.Step
  | .call (.write data) => .write id data
  | .call .flush => .flush id
  | .handOver => .handOver id

/-- The data that a turn writes, if it writes. -/
def data? : Turn → Option Bytes
  | .call made => made.data?
  | .handOver => none

/-- What becomes of the bytes that are held back before a turn and of its data. -/
structure Split where
  /-- The bytes that the device receives. -/
  passed : Bytes := []
  /-- The bytes that the newest output then holds back. -/
  held : Bytes := []
  /-- The bytes that stay with the output that handed the device over. -/
  lost : Bytes := []

/-- A write passes on the full buffers, a flush all that is held back, and handing the
device over nothing. -/
def split (held : Bytes) : Turn → Split
  | .call (.write data) =>
    let count := BufferedOutput.passedOn (held ++ data).length
    { passed := (held ++ data).take count, held := (held ++ data).drop count }
  | .call .flush => { passed := held }
  | .handOver => { lost := held }

/-- What the device receives in some turns and the end of all outputs. -/
def delivered (held : Bytes) : List Turn → Bytes
  | [] => held
  | turn :: rest => (turn.split held).passed ++ delivered (turn.split held).held rest

/-- No byte is changed or moved by a turn. -/
theorem sublist_split (held : Bytes) (turn : Turn) :
    ((turn.split held).passed ++ (turn.split held).held).Sublist
      (held ++ turn.data?.getD []) := by
  cases turn with
  | call made =>
    cases made with
    | write data =>
      rw [split, List.take_append_drop]
      exact List.Sublist.refl _
    | flush => exact List.Sublist.refl _
  | handOver => exact List.nil_sublist _

/-- Every byte is passed on, held back or lost. -/
theorem length_split (held : Bytes) (turn : Turn) :
    (turn.split held).passed.length + (turn.split held).held.length
        + (turn.split held).lost.length
      = held.length + (turn.data?.getD []).length := by
  cases turn with
  | call made =>
    cases made with
    | write data =>
      simp only [split, data?, Call.data?, Option.getD_some, List.length_nil, Nat.add_zero]
      rw [← List.length_append, List.take_append_drop, List.length_append]
    | flush => rfl
  | handOver => simp [split, data?]

/-- The data of some turns begins with that of the first one. -/
theorem flatten_filterMap_data?_cons (turn : Turn) (rest : List Turn) :
    ((turn :: rest).filterMap data?).flatten
      = turn.data?.getD [] ++ (rest.filterMap data?).flatten := by
  cases hdata : turn.data? <;> simp [hdata]

/-- What the device receives is what was written, less some of it. -/
theorem delivered_sublist (held : Bytes) (turns : List Turn) :
    (delivered held turns).Sublist (held ++ (turns.filterMap data?).flatten) := by
  induction turns generalizing held with
  | nil => simp [delivered]
  | cons turn rest ih =>
    have hrest := (List.Sublist.refl (turn.split held).passed).append (ih (turn.split held).held)
    have hturn := (sublist_split held turn).append
      (List.Sublist.refl (rest.filterMap data?).flatten)
    rw [flatten_filterMap_data?_cons, ← List.append_assoc]
    rw [List.append_assoc] at hturn
    exact hrest.trans hturn

end Turn

namespace Pool

/-- The number of the newest output. -/
def newest (pool : Pool) : Nat :=
  pool.outputs.size - 1

/-- Run several turns, each of the output that is the newest one then. -/
def turns (pool : Pool) : List Turn → Pool × List WriteFailure
  | [] => (pool, [])
  | turn :: rest =>
    let next := pool.step (turn.step pool.newest)
    let last := next.1.turns rest
    (last.1, next.2 ++ last.2)

/-- The bytes that outputs hold back although they handed their device over. -/
def leftBehind (pool : Pool) : Bytes :=
  (pool.outputs.toList.reduceOption.filter BufferedOutput.moved).flatMap BufferedOutput.pending

end Pool

/-- The outputs of a device after some turns, the first of them of a new output. -/
def Device.share (device : Device) (number : Int) (turns : List Turn) :
    Pool × List WriteFailure :=
  (Pool.step { device } (.create number)).1.turns turns

/-! ## What turns keep -/

namespace Pool

/-- A call through an output goes on from the output and the device. -/
theorem step_call {pool : Pool} {id : Nat} {output : BufferedOutput}
    (h : pool.output? id = some output) (call : Call) :
    pool.step ((Turn.call call).step id)
      = pool.settle id ((Transfer.mk output pool.device []).call call) := by
  cases call with
  | write data =>
    simp only [Turn.step, Pool.step, h]
    rfl
  | flush =>
    simp only [Turn.step, Pool.step, h]
    rfl

private theorem step_handOver {pool : Pool} {id : Nat} {output : BufferedOutput}
    (h : pool.output? id = some output) :
    pool.step (Turn.handOver.step id)
      = ({ pool with
            outputs := (pool.outputs.setIfInBounds id (some output.handOver.1)).push
              (some output.handOver.2) }, []) := by
  simp only [Turn.step, Pool.step, h]

/-- Whether the newest output of a pool owns a device that is open for it, and all older
ones have handed the device over. -/
structure Holds (pool : Pool) (older : List BufferedOutput) (current : BufferedOutput) :
    Prop where
  outputs : pool.outputs.toList = (older ++ [current]).map some
  moved : ∀ output ∈ older, output.moved = true
  owned : current.moved = false
  accepts : pool.device.accepts current.number = true

namespace Holds

variable {pool : Pool} {older : List BufferedOutput} {current : BufferedOutput}

theorem size (h : pool.Holds older current) : pool.outputs.size = older.length + 1 := by
  rw [← Array.length_toList, h.outputs]
  simp

private theorem newest_eq (h : pool.Holds older current) : pool.newest = older.length := by
  rw [newest, h.size]
  rfl

private theorem output?_eq (h : pool.Holds older current) (id : Nat) :
    pool.output? id = (older ++ [current])[id]? := by
  rw [output?, ← Array.getElem?_toList, h.outputs, List.getElem?_map]
  cases (older ++ [current])[id]? <;> rfl

/-- The newest output is there. -/
theorem output?_newest (h : pool.Holds older current) :
    pool.output? pool.newest = some current := by
  rw [h.output?_eq, h.newest_eq]
  simp

/-- Any other output of the pool has handed the device over. -/
theorem moved_of_ne (h : pool.Holds older current) {id : Nat} (hid : id ≠ pool.newest)
    {output : BufferedOutput} (houtput : pool.output? id = some output) :
    output.moved = true := by
  rw [h.newest_eq] at hid
  rw [h.output?_eq] at houtput
  rcases Nat.lt_or_ge id older.length with hlt | hge
  · rw [List.getElem?_append_left hlt] at houtput
    exact h.moved output (List.mem_of_getElem? houtput)
  · have hnone : (older ++ [current])[id]? = none := by
      apply List.getElem?_eq_none
      rw [List.length_append, List.length_singleton]
      omega
    rw [hnone] at houtput
    cases houtput

/-- The bytes left behind are those that the older outputs hold back. -/
theorem leftBehind_eq (h : pool.Holds older current) :
    pool.leftBehind = older.flatMap BufferedOutput.pending := by
  have hsome : pool.outputs.toList.reduceOption = older ++ [current] := by
    rw [h.outputs, List.reduceOption, List.filterMap_map]
    exact List.filterMap_some
  have holder : older.filter BufferedOutput.moved = older := List.filter_eq_self.2 h.moved
  have hcurrent : [current].filter BufferedOutput.moved = [] := by
    simp [h.owned]
  rw [leftBehind, hsome, List.filter_append, holder, hcurrent, List.append_nil]

/-- What a call leaves takes the place of the newest output. -/
theorem settle (h : pool.Holds older current) {transfer : Transfer} {given : Bytes}
    (hcarries : transfer.Carries given) :
    (pool.settle pool.newest transfer).1.Holds older transfer.output := by
  refine ⟨?_, h.moved, hcarries.owned, hcarries.accepts⟩
  simp [Pool.settle, h.outputs, h.newest_eq]

/-- A call passes on and holds back what it is said to. -/
theorem call (h : pool.Holds older current) (made : Call) :
    ∃ next, (pool.step ((Turn.call made).step pool.newest)).1.Holds older next
      ∧ (pool.step ((Turn.call made).step pool.newest)).1.device.content
        = pool.device.content ++ ((Turn.call made).split current.pending).passed
      ∧ next.pending = ((Turn.call made).split current.pending).held
      ∧ (pool.step ((Turn.call made).step pool.newest)).2 = [] := by
  have hcarries : (Transfer.mk current pool.device []).Carries
      (pool.device.content ++ current.pending) := ⟨rfl, h.accepts, h.owned, rfl⟩
  have hcall := hcarries.call made
  rw [step_call h.output?_newest]
  refine ⟨_, h.settle hcall, ?_, ?_, hcall.failures⟩
  · cases made with
    | write data => exact (BufferedOutput.write_of_accepts h.accepts data).1.content
    | flush => exact (BufferedOutput.flush_of_accepts h.accepts).1.content
  · cases made with
    | write data => exact BufferedOutput.pending_write current pool.device data
    | flush => rfl

/-- When the device is handed over, the newest output joins the older ones. -/
theorem handOver (h : pool.Holds older current) :
    (pool.step (Turn.handOver.step pool.newest)).1.Holds
      (older ++ [current.handOver.1]) current.handOver.2 := by
  have hmoved : ∀ output ∈ older ++ [current.handOver.1], output.moved = true := by
    intro output hmem
    rcases List.mem_append.1 hmem with holder | hlast
    · exact h.moved output holder
    · rw [List.mem_singleton.1 hlast]
      rfl
  rw [step_handOver h.output?_newest]
  refine ⟨?_, hmoved, rfl, h.accepts⟩
  simp [h.outputs, h.newest_eq]

/-- A turn passes on, holds back and leaves behind what it is said to. -/
theorem turn (h : pool.Holds older current) (turn : Turn) :
    ∃ left next, (pool.step (turn.step pool.newest)).1.Holds (older ++ left) next
      ∧ (pool.step (turn.step pool.newest)).1.device.content
        = pool.device.content ++ (turn.split current.pending).passed
      ∧ next.pending = (turn.split current.pending).held
      ∧ left.flatMap BufferedOutput.pending = (turn.split current.pending).lost
      ∧ (pool.step (turn.step pool.newest)).2 = [] := by
  cases turn with
  | call made =>
    rcases h.call made with ⟨next, hnext, hcontent, hpending, hfailures⟩
    refine ⟨[], next, ?_, hcontent, hpending, ?_, hfailures⟩
    · rw [List.append_nil]
      exact hnext
    · cases made <;> rfl
  | handOver =>
    refine ⟨[current.handOver.1], current.handOver.2, h.handOver, ?_, rfl, ?_, ?_⟩
    · rw [step_handOver h.output?_newest]
      exact (List.append_nil _).symm
    · simp [BufferedOutput.handOver, Turn.split]
    · rw [step_handOver h.output?_newest]

/-- After any turns, the device and the newest output have what is delivered, and the rest
stands in the outputs that handed the device over. -/
theorem turns (h : pool.Holds older current) (turns : List Turn) :
    ∃ left last, (pool.turns turns).1.Holds (older ++ left) last
      ∧ (pool.turns turns).1.device.content ++ last.pending
        = pool.device.content ++ Turn.delivered current.pending turns
      ∧ (Turn.delivered current.pending turns).length
          + (left.flatMap BufferedOutput.pending).length
        = current.pending.length + (turns.filterMap Turn.data?).flatten.length
      ∧ (pool.turns turns).2 = [] := by
  induction turns generalizing pool older current with
  | nil =>
    refine ⟨[], current, ?_, rfl, rfl, rfl⟩
    rw [List.append_nil]
    exact h
  | cons turn rest ih =>
    rcases h.turn turn with ⟨left, next, hnext, hcontent, hpending, hleft, hfailures⟩
    rcases ih hnext with ⟨more, last, hlast, hdelivered, hlength, hmore⟩
    rw [hpending] at hdelivered hlength
    refine ⟨left ++ more, last, ?_, ?_, ?_, ?_⟩
    · rw [← List.append_assoc]
      exact hlast
    · rw [Turn.delivered, ← List.append_assoc, ← hcontent]
      exact hdelivered
    · have hsplit := turn.length_split current.pending
      rw [Turn.flatten_filterMap_data?_cons, Turn.delivered, List.flatMap_append, hleft]
      simp only [List.length_append]
      omega
    · rw [Pool.turns, hfailures, hmore]
      rfl

end Holds

/-! ## The end of all outputs -/

/-- The end of an output leaves the others as they are. -/
theorem output?_destroy_of_ne (pool : Pool) {id other : Nat} (h : other ≠ id) :
    (pool.destroy id).1.output? other = pool.output? other := by
  unfold destroy
  split
  · rfl
  · rw [output?, output?, Array.getElem?_setIfInBounds_ne h.symm]

/-- The end of an output that is there does to the device what that output does. -/
theorem destroy_eq {pool : Pool} {id : Nat} {output : BufferedOutput}
    (h : pool.output? id = some output) :
    (pool.destroy id).1.device = (output.finish pool.device).1
      ∧ (pool.destroy id).2 = (output.finish pool.device).2 := by
  unfold destroy
  rw [h]
  exact ⟨rfl, rfl⟩

/-- The end of an output that handed the device over changes nothing in the device. -/
theorem destroy_of_moved (pool : Pool) {id : Nat}
    (h : ∀ output, pool.output? id = some output → output.moved = true) :
    (pool.destroy id).1.device = pool.device ∧ (pool.destroy id).2 = [] := by
  cases houtput : pool.output? id with
  | none =>
    unfold destroy
    rw [houtput]
    exact ⟨rfl, rfl⟩
  | some output =>
    have hfinish : output.finish pool.device = (pool.device, []) := by
      rw [BufferedOutput.finish, if_pos (h output houtput)]
    rw [(destroy_eq houtput).1, (destroy_eq houtput).2, hfinish]
    exact ⟨rfl, rfl⟩

private theorem destroyEach_cons (pool : Pool) (id : Nat) (rest : List Nat) :
    pool.destroyEach (id :: rest)
      = (((pool.destroy id).1.destroyEach rest).1,
        (pool.destroy id).2 ++ ((pool.destroy id).1.destroyEach rest).2) := rfl

private theorem destroyEach_append (pool : Pool) (first second : List Nat) :
    pool.destroyEach (first ++ second)
      = (((pool.destroyEach first).1.destroyEach second).1,
        (pool.destroyEach first).2 ++ ((pool.destroyEach first).1.destroyEach second).2) := by
  induction first generalizing pool with
  | nil => rfl
  | cons id rest ih =>
    rw [List.cons_append, destroyEach_cons, destroyEach_cons, ih, List.append_assoc]

private theorem output?_destroyEach_of_notMem (pool : Pool) {order : List Nat} {other : Nat}
    (h : other ∉ order) : (pool.destroyEach order).1.output? other = pool.output? other := by
  induction order generalizing pool with
  | nil => rfl
  | cons id rest ih =>
    rw [List.mem_cons, not_or] at h
    exact (ih _ h.2).trans (pool.output?_destroy_of_ne h.1)

/-- The end of outputs that handed the device over changes nothing in the device. -/
theorem destroyEach_of_moved (pool : Pool) {order : List Nat}
    (h : ∀ id ∈ order, ∀ output, pool.output? id = some output → output.moved = true) :
    (pool.destroyEach order).1.device = pool.device ∧ (pool.destroyEach order).2 = [] := by
  induction order generalizing pool with
  | nil => exact ⟨rfl, rfl⟩
  | cons id rest ih =>
    have hfirst := pool.destroy_of_moved (h id (List.mem_cons_self ..))
    have hrest : ∀ other ∈ rest, ∀ output, (pool.destroy id).1.output? other = some output →
        output.moved = true := by
      intro other hother output houtput
      by_cases heq : other = id
      · rw [heq, output?_destroy] at houtput
        cases houtput
      · rw [output?_destroy_of_ne pool heq] at houtput
        exact h other (List.mem_cons_of_mem id hother) output houtput
    rcases ih _ hrest with ⟨hdevice, hfailures⟩
    refine ⟨hdevice.trans hfirst.1, ?_⟩
    rw [destroyEach_cons, hfirst.2, hfailures]
    rfl

namespace Holds

variable {pool : Pool} {older : List BufferedOutput} {current : BufferedOutput}

/-- In whatever order the outputs of a pool end, the device ends with the newest one. -/
theorem destroyEach (h : pool.Holds older current) {order : List Nat} (hnodup : order.Nodup)
    (hnewest : pool.newest ∈ order) :
    (pool.destroyEach order).1.device = (current.finish pool.device).1
      ∧ (pool.destroyEach order).2 = (current.finish pool.device).2 := by
  rcases List.append_of_mem hnewest with ⟨front, back, rfl⟩
  have hsplit := List.perm_middle.nodup_iff.1 hnodup
  rw [List.nodup_cons, List.mem_append, not_or] at hsplit
  rcases hsplit with ⟨⟨hfront, hback⟩, -⟩
  have hbefore := pool.destroyEach_of_moved fun id hid output houtput =>
    h.moved_of_ne (ne_of_mem_of_not_mem hid hfront) houtput
  have hcurrent : (pool.destroyEach front).1.output? pool.newest = some current :=
    (pool.output?_destroyEach_of_notMem hfront).trans h.output?_newest
  have hended := destroy_eq hcurrent
  rw [hbefore.1] at hended
  -- The newest output is gone, and what is left of the others was moved before.
  have hrest : ∀ id ∈ back, ∀ output,
      ((pool.destroyEach front).1.destroy pool.newest).1.output? id = some output →
        output.moved = true := by
    intro id hid output houtput
    have hne := ne_of_mem_of_not_mem hid hback
    have hapart : id ∉ front := fun hfirst =>
      (List.nodup_append.1 hnodup).2.2 id hfirst id (List.mem_cons_of_mem _ hid) rfl
    rw [output?_destroy_of_ne _ hne, output?_destroyEach_of_notMem pool hapart] at houtput
    exact h.moved_of_ne hne houtput
  have hafter := destroyEach_of_moved _ hrest
  rw [destroyEach_append, destroyEach_cons, hafter.1, hafter.2, hended.1, hended.2, hbefore.2]
  exact ⟨rfl, List.append_nil _⟩

end Holds

end Pool

/-! ## Main result -/

/-- However an open device is written to, flushed and handed over, and in whatever order its
outputs end, it closes with the bytes that the turns deliver: what was written, in order, less
the bytes that stayed with outputs that handed it over.  So it has all that was written exactly
if no output holds bytes back that handed it over. -/
theorem turns_deliver (device : Device) (number : Int) (turns : List Turn) (order : List Nat)
    (haccepts : device.accepts number = true)
    (horder : order.Perm (List.range (device.share number turns).1.outputs.size)) :
    ((device.share number turns).1.destroyEach order).1.device.content
        = device.content ++ Turn.delivered [] turns
      ∧ (Turn.delivered [] turns).Sublist (turns.filterMap Turn.data?).flatten
      ∧ (Turn.delivered [] turns).length + (device.share number turns).1.leftBehind.length
        = (turns.filterMap Turn.data?).flatten.length
      ∧ (((device.share number turns).1.destroyEach order).1.device.content
          = device.content ++ (turns.filterMap Turn.data?).flatten
        ↔ (device.share number turns).1.leftBehind = [])
      ∧ ((device.share number turns).1.destroyEach order).1.device.isOpen = false
      ∧ (device.share number turns).2 = []
      ∧ ((device.share number turns).1.destroyEach order).2 = [] := by
  have hstart : (Pool.step { device } (.create number)).1.Holds [] { number } :=
    ⟨rfl, by simp, rfl, haccepts⟩
  rcases hstart.turns turns with ⟨older, last, hlast, hdelivered, hlength, hfailures⟩
  have hshare : (Pool.step { device } (.create number)).1.turns turns
      = device.share number turns := rfl
  rw [hshare] at hlast hdelivered hfailures
  have hnewest : (device.share number turns).1.newest ∈ order := by
    rw [horder.mem_iff, List.mem_range, hlast.newest_eq, hlast.size]
    exact Nat.lt_succ_self _
  rcases hlast.destroyEach (horder.nodup_iff.2 List.nodup_range) hnewest with ⟨hdevice, hended⟩
  have hcarries : (Transfer.mk last (device.share number turns).1.device []).Carries
      (device.content ++ Turn.delivered [] turns) :=
    ⟨hdelivered, hlast.accepts, hlast.owned, rfl⟩
  rcases hcarries.finish with ⟨hcontent, hclosed, hreported⟩
  have hsublist := Turn.delivered_sublist [] turns
  have hbehind : (Turn.delivered [] turns).length + (device.share number turns).1.leftBehind.length
      = (turns.filterMap Turn.data?).flatten.length := by
    rw [hlast.leftBehind_eq, List.nil_append]
    exact hlength.trans (Nat.zero_add _)
  refine ⟨?_, hsublist, hbehind, ?_, ?_, hfailures, hended.trans hreported⟩
  · rw [hdevice]
    exact hcontent
  · rw [hdevice]
    refine ⟨fun hall => ?_, fun hnone => ?_⟩
    · have heq := List.append_cancel_left (hcontent.symm.trans hall)
      rw [← heq] at hbehind
      exact List.length_eq_zero_iff.1 (by omega)
    · rw [hnone, List.length_nil, Nat.add_zero] at hbehind
      exact hcontent.trans (congrArg _ (hsublist.eq_of_length hbehind))
  · rw [hdevice]
    exact hclosed

/-- Three bytes that are held back when the device is handed over never reach it. -/
theorem turns_deliver_of_held_bytes :
    (((Device.mk 100 [] true [] .all).share 100
        [.call (.write (ascii "abc")), .handOver, .call (.write (ascii "d"))]).1.destroyEach
          [1, 0]).1.device.content = ascii "d"
      ∧ (((Device.mk 100 [] true [] .all).share 100
        [.call (.write (ascii "abc")), .handOver, .call (.write (ascii "d"))]).1.destroyEach
          [1, 0]).1.device.content ≠ ascii "abcd" := by
  have hsize : ((Device.mk 100 [] true [] .all).share 100 [.call (.write (ascii "abc")),
      .handOver, .call (.write (ascii "d"))]).1.outputs.size = 2 := by
    decide
  have hdeliver := turns_deliver (Device.mk 100 [] true [] .all) 100
    [.call (.write (ascii "abc")), .handOver, .call (.write (ascii "d"))] [1, 0] (by decide)
    (by rw [hsize]; decide)
  rw [hdeliver.1]
  decide

end TemplateCompiler
