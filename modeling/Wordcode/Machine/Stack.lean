import Wordcode.Value

namespace Wordcode

/-! # The operand stack

Each frame has a stack of values. Instructions take their operands from its top and leave their
results there; an instruction that needs more operands than there are underflows.
-/

/-- An operand stack, top first. -/
abbrev Stack := List Value

namespace Stack

/-- A stack underflow. -/
def underflow {α : Type} (message : String) : Except Failure α :=
  .error (.raise .stackUnderflow message)

/-- Adds values, the first one first. -/
def pushAll (s : Stack) (values : List Value) : Stack := values.reverse ++ s

/-- Takes the top. -/
def pop : Stack → Except Failure (Value × Stack)
  | [] => underflow "pop from empty operand stack"
  | v :: s => .ok (v, s)

/-- The value a number of places below the top. -/
def peek (s : Stack) (depth : Int) : Except Failure Value :=
  match if 0 ≤ depth then s[depth.toNat]? else none with
  | some v => .ok v
  | none => underflow s!"peek at depth {depth} of operand stack holding {s.length} values"

/-- Takes a number of values from the top and returns them deepest first. -/
def popMany (s : Stack) (count : Int) : Except Failure (List Value × Stack) :=
  if 0 ≤ count && count ≤ s.length then
    .ok ((s.take count.toNat).reverse, s.drop count.toNat)
  else underflow s!"pop of {count} values from operand stack holding {s.length}"

/-- Replaces the value a number of places below the top. -/
def replace (s : Stack) (depth : Int) (v : Value) : Except Failure Stack :=
  if 0 ≤ depth && depth < s.length then .ok (s.set depth.toNat v)
  else underflow s!"set at depth {depth} of operand stack holding {s.length} values"

/-- As many values as were added can be taken again, in their order. -/
theorem popMany_pushAll (s : Stack) (values : List Value) :
    popMany (pushAll s values) values.length = .ok (values, s) := by
  have fits : (values.length : Int) ≤ (values.reverse ++ s).length := by
    rw [List.length_append, List.length_reverse]
    omega
  simp only [popMany, pushAll, fits]
  simp

end Stack

end Wordcode
