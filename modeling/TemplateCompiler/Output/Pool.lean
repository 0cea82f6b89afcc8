import TemplateCompiler.Output.Buffered

/-!
# Outputs on one device

Several outputs may share a device, because one hands it over to the next.  A pool
numbers its outputs in the order of their making and runs steps on them.

Main results:

- Theorem {lit}`Pool.output?_destroy`: a destroyed output is gone.
-/

namespace TemplateCompiler

/-- A device and the outputs that were made for it; a destroyed one is gone. -/
structure Pool where
  device : Device
  outputs : Array (Option BufferedOutput) := #[]

namespace Pool

/-- A step on the outputs of a pool. -/
inductive Step where
  /-- Make an output on a number. -/
  | create (number : Int)
  /-- Write through an output. -/
  | write (id : Nat) (data : Bytes)
  /-- Flush an output. -/
  | flush (id : Nat)
  /-- Hand the device of an output over to a new one. -/
  | handOver (id : Nat)
  /-- End an output. -/
  | destroy (id : Nat)
deriving DecidableEq, Repr

/-- The output of a number, if it is not destroyed. -/
def output? (pool : Pool) (id : Nat) : Option BufferedOutput :=
  pool.outputs[id]?.join

/-- Take over what an operation left of an output. -/
def settle (pool : Pool) (id : Nat) (transfer : Transfer) : Pool × List WriteFailure :=
  ({ device := transfer.device
     outputs := pool.outputs.setIfInBounds id (some transfer.output) }, transfer.failures)

/-- End an output. -/
def destroy (pool : Pool) (id : Nat) : Pool × List WriteFailure :=
  match pool.output? id with
  | none => (pool, [])
  | some output =>
    let (device, failures) := output.finish pool.device
    ({ device, outputs := pool.outputs.setIfInBounds id none }, failures)

/-- Run one step.  A step on an output that is gone does nothing. -/
def step (pool : Pool) : Step → Pool × List WriteFailure
  | .create number => ({ pool with outputs := pool.outputs.push (some { number }) }, [])
  | .write id data =>
    match pool.output? id with
    | none => (pool, [])
    | some output => pool.settle id (output.write pool.device data)
  | .flush id =>
    match pool.output? id with
    | none => (pool, [])
    | some output => pool.settle id (output.flush pool.device)
  | .handOver id =>
    match pool.output? id with
    | none => (pool, [])
    | some output =>
      let (old, new) := output.handOver
      ({ pool with outputs := (pool.outputs.setIfInBounds id (some old)).push (some new) }, [])
  | .destroy id => pool.destroy id

/-- End some outputs, in order. -/
def destroyEach (pool : Pool) : List Nat → Pool × List WriteFailure
  | [] => (pool, [])
  | id :: rest =>
    let (ended, failures) := pool.destroy id
    let (last, more) := ended.destroyEach rest
    (last, failures ++ more)

/-- End all outputs, in the order of their making. -/
def destroyAll (pool : Pool) : Pool × List WriteFailure :=
  pool.destroyEach (List.range pool.outputs.size)

/-- A destroyed output is gone. -/
theorem output?_destroy (pool : Pool) (id : Nat) : (pool.destroy id).1.output? id = none := by
  unfold destroy
  split
  · assumption
  · by_cases h : id < pool.outputs.size <;> simp [output?, h]

end Pool

end TemplateCompiler
