namespace Wordcode

/-! # Ranges

A range stands for the integers from a start, in steps, up to but not including a stop. All
arithmetic is modulo 2^64, so the length of a range that spans more than half of the integers comes
out wrong, possibly negative.
-/

/-- A range of integers with a step other than zero. -/
structure Range where
  start : Int64
  stop : Int64
  step : Int64
  deriving DecidableEq, Repr, Inhabited

namespace Range

/-- The number of integers in a range. -/
def length (r : Range) : Int64 :=
  if 0 < r.step then
    if r.stop ≤ r.start then 0 else (r.stop - r.start + r.step - 1) / r.step
  else
    if r.start ≤ r.stop then 0 else (r.start - r.stop - r.step - 1) / -r.step

/-- The integer at position `i`. -/
def nth (r : Range) (i : Int64) : Int64 :=
  r.start + i * r.step

/-- Whether an integer occurs. -/
def contains (r : Range) (v : Int64) : Bool :=
  let within := if 0 < r.step then decide (r.start ≤ v) && decide (v < r.stop)
    else decide (v ≤ r.start) && decide (r.stop < v)
  within && (v - r.start) % r.step == 0

/-- Two ranges are equal when they stand for the same integers. -/
def equals (a b : Range) : Bool :=
  let n := a.length
  n == b.length && (n == 0 || (a.start == b.start && (n == 1 || a.step == b.step)))

/-- The way a range is written; a step of one is left out. -/
def render (r : Range) : String :=
  if r.step = 1 then s!"range({r.start.toInt}, {r.stop.toInt})"
  else s!"range({r.start.toInt}, {r.stop.toInt}, {r.step.toInt})"

/-- The integers of a range; there is no result when the length is negative. -/
def toList? (r : Range) : Option (List Int64) :=
  if r.length < 0 then none
  else some ((List.range r.length.toInt.toNat).map fun i => r.nth (Int64.ofNat i))

end Range

end Wordcode
