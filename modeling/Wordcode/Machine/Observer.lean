import Wordcode.Opcode

namespace Wordcode

/-! # Observing a run

An observer is told about instructions, calls and returns as they happen, and may stop the run by
refusing an event. Its configuration says which events it wants.
-/

/-- Which instructions are reported. -/
inductive StepMode
  | all
  | none
  /-- One out of every so many. -/
  | sampled
  deriving DecidableEq, Repr, Inhabited

/-- The number of a step mode. -/
def StepMode.number : StepMode → Nat
  | all => 0
  | none => 1
  | sampled => 2

/-- What an observer wants to be told about. -/
structure ObserverConfig where
  mode : StepMode := .all
  /-- For sampling, the number of instructions per report. -/
  interval : Int := 1000
  calls : Bool := true
  returns : Bool := true
  deriving DecidableEq, Repr, Inhabited

/-- A sampling interval below one counts as one. -/
def ObserverConfig.normalize (c : ObserverConfig) : ObserverConfig :=
  if c.mode = .sampled && c.interval ≤ 0 then { c with interval := 1 } else c

/-- Something that happens in a run. -/
inductive Event
  /-- An instruction is about to be executed. -/
  | step (function : String) (offset : Nat) (op : Opcode) (arg stack depth : Nat)
  /-- A function is about to run in a new frame at the given depth. -/
  | call (function : String) (arguments keywords depth : Nat)
  /-- A function has returned a value, which is given as text. -/
  | leave (function value : String) (depth : Nat)
  deriving DecidableEq, Repr, Inhabited

/-- How many events of each kind were reported. -/
structure EventCounts where
  steps : Nat := 0
  calls : Nat := 0
  leaves : Nat := 0
  deriving DecidableEq, Repr, Inhabited

/-- Counts one more event. -/
def EventCounts.add (c : EventCounts) : Event → EventCounts
  | .step .. => { c with steps := c.steps + 1 }
  | .call .. => { c with calls := c.calls + 1 }
  | .leave .. => { c with leaves := c.leaves + 1 }

/-- An observer. -/
structure Observer where
  config : ObserverConfig := {}
  /-- Whether the run goes on after an event; the counts include it. -/
  accepts : Event → EventCounts → Bool := fun _ _ => true

end Wordcode
