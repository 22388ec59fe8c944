import Wordcode.Store.Convert

namespace Wordcode

/-! # Slices

A slice selects positions of a sequence: from a start, in steps, before a stop. Bounds may be
missing, count from the end and lie outside of the sequence. Positions are computed as words.
-/

namespace Slice

/-- The step of a slice; a missing one is one, and zero is refused. -/
def stepOf (step : Value) : Except Failure { n : Int64 // n ≠ 0 } := do
  if step.isNone then return ⟨1, by decide⟩
  let n ← indexOf step "slice"
  if h : n = 0 then throw (.raise .value "slice step cannot be zero") else return ⟨n, h⟩

/-- A bound of a slice: a negative one counts from the end, and one outside goes to the end of the
sequence on its side. -/
def boundOf (bound : Value) (fallback lower upper length : Int64) : Except Failure Int64 := do
  if bound.isNone then return fallback
  let v ← indexOf bound "slice"
  if v < 0 then return max lower (v + length)
  else return min v upper

/-- Whether a position comes strictly before a stop in the direction of a step. -/
def before (step stop i : Int64) : Bool :=
  if 0 < step then decide (i < stop) else decide (stop < i)

/-- Whether a step from a position reaches the stop or goes past it. -/
def isLast (step stop i : Int64) : Bool :=
  if 0 < step then decide (stop - i ≤ step) else decide (step ≤ stop - i)

/-- A step that does not reach the stop stays in the range of words. -/
theorem add_step_of_before {step stop i : Int64} (hbefore : before step stop i = true)
    (hlast : isLast step stop i = false) :
    (i + step).toInt = i.toInt + step.toInt ∧ before step stop (i + step) = true := by
  have hi := i.le_toInt
  have hi' := i.toInt_lt
  have hstop := stop.le_toInt
  have hstop' := stop.toInt_lt
  unfold before isLast at *
  simp only [Int64.lt_iff_toInt_lt, Int64.le_iff_toInt_le, Int64.toInt_zero, Int64.toInt_sub,
    Int64.toInt_add, Int.bmod_def] at *
  split at hbefore
  · simp only [*, ite_true, decide_eq_true_eq, decide_eq_false_iff_not] at *
    omega
  · simp only [*, ite_false, decide_eq_true_eq, decide_eq_false_iff_not] at *
    omega

/-- A step that does not reach the stop comes nearer to it. -/
theorem distance_add_step_lt {step stop i : Int64} (hstep : step ≠ 0)
    (hbefore : before step stop i = true) (hlast : isLast step stop i = false) :
    (stop.toInt - (i + step).toInt).natAbs < (stop.toInt - i.toInt).natAbs := by
  have hstep := Word.toInt_ne_zero hstep
  obtain ⟨hnext, hbefore'⟩ := add_step_of_before hbefore hlast
  unfold before at hbefore hbefore'
  simp only [Int64.lt_iff_toInt_lt, Int64.toInt_zero] at hbefore hbefore'
  split at hbefore
  · simp only [*, ite_true, decide_eq_true_eq] at *
    omega
  · simp only [*, ite_false, decide_eq_true_eq] at *
    omega

/-- The positions `i`, `i + step`, … strictly before `stop` in the direction of `step`, after those
seen so far. The last one is known before the step behind it is made, so that a huge step does not
leave the range of words. -/
def walk (step : { n : Int64 // n ≠ 0 }) (stop i : Int64) (seen : Array Int64) : Array Int64 :=
  if before step stop i then
    if isLast step stop i then seen.push i else walk step stop (i + step) (seen.push i)
  else seen
termination_by (stop.toInt - i.toInt).natAbs
decreasing_by
  next hbefore hlast => exact distance_add_step_lt step.2 hbefore (by simpa using hlast)

/-- The positions that a slice selects in a sequence of a given length, as words. -/
def positions (start stop step : Value) (length : Int64) : Except Failure (List Int64) := do
  let step ← stepOf step
  if 0 < step.val then
    let first ← boundOf start 0 0 length length
    let last ← boundOf stop length 0 length length
    return (walk step last first #[]).toList
  else
    let first ← boundOf start (length - 1) (-1) (length - 1) length
    let last ← boundOf stop (-1) (-1) (length - 1) length
    return (walk step last first #[]).toList

/-- The positions that a slice selects in a sequence of a given length. -/
def indices (start stop step : Value) (length : Int) : Except Failure (List Int) :=
  return (← positions start stop step (Int64.ofInt length)).map Int64.toInt

/-- The selected items of a list. -/
def select {α : Type} (items : List α) (start stop step : Value) : Except Failure (List α) := do
  let positions ← indices start stop step items.length
  let table := items.toArray
  return positions.filterMap fun i => table[i.toNat]?

/-- A bound of a contiguous slice, moved into the sequence. -/
def clamp (bound : Value) (fallback length : Nat) : Except Failure Nat := do
  if bound.isNone then return fallback
  let v ← indexOf bound "slice"
  let v := if v < 0 then max 0 (v + Int64.ofNat length) else v
  return (min v (Int64.ofNat length)).toInt.toNat

/-- Whether a slice is contiguous, with a step of one. -/
def isContiguous (step : Value) : Bool := step.isNone || step.int? == some 1

/-- The items after assigning values through a slice. A contiguous slice is replaced as a whole and
may change the length; any other slice needs one value for each selected position. -/
def assign (items : List Value) (start stop step : Value) (values : List Value) :
    Except Failure (List Value) := do
  let n ← if step.isNone then pure 1 else indexOf step "slice"
  if n = 1 then
    let first ← clamp start 0 items.length
    let last ← clamp stop items.length items.length
    let last := max first last
    return items.take first ++ values ++ items.drop last
  else
    let positions ← indices start stop step items.length
    if values.length ≠ positions.length then
      throw (.raise .value (s!"attempt to assign sequence of size {values.length} " ++
        s!"to extended slice of size {positions.length}"))
    return ((positions.zip values).foldl (fun (xs : Array Value) (i, v) =>
      xs.setIfInBounds i.toNat v) items.toArray).toList

/-- The items without the selected ones. -/
def delete (items : List Value) (start stop step : Value) : Except Failure (List Value) := do
  let positions ← indices start stop step items.length
  return (items.zipIdx.filter fun (_, i) => !positions.contains (i : Int)).map (·.1)

end Slice

end Wordcode
