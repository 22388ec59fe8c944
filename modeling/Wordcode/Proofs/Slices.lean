import Mathlib
import Wordcode.Proofs.Progressions
import Wordcode.Store.Slice

namespace Wordcode

/-! # The positions that a slice selects

A slice is resolved with sums and differences of words. The positions are those of a progression of
exact integers all the same, because no sum and no difference leaves the range of words.

* `Slice.exactFirst` and `Slice.exactLast` are the resolved bounds on exact integers.
* `Slice.WalksExactly` says of every operation of a walk that it does not wrap around.
* `Slice.selects_indices` is the main result.
-/

/-- What a bound or the step of a slice can be: `None`, or an integer or a truth value. -/
def Value.IsBound (v : Value) : Prop := v.isNone = true ∨ ∃ n, v.int? = some n

/-- A bound is missing or stands for a word. -/
theorem Value.IsBound.elim {v : Value} (h : v.IsBound) :
    v.isNone = true ∧ v.int? = Option.none ∨
      ∃ n, v.isNone = false ∧ v.int? = some n ∧ ∀ what, indexOf v what = .ok n := by
  rcases h with hnone | ⟨n, hn⟩
  · exact .inl ⟨hnone, by cases v <;> simp_all [isNone, int?]⟩
  · exact .inr ⟨n, by cases v <;> simp_all [isNone, int?], hn, fun what => by rw [indexOf, hn]⟩

/-! ## Indices -/

/-- A negative word and a length have an exact sum. -/
theorem toInt_add_length {v length : Int64} (hlength : 0 ≤ length.toInt) (hv : v.toInt < 0) :
    (v + length).toInt = v.toInt + length.toInt := by
  have hlow := v.le_toInt
  have hhigh := length.toInt_lt
  rw [Int64.toInt_add, Int.bmod_def]
  omega

/-- An index may count from the end, and must then lie in the sequence. -/
theorem resolveIndex_eq (index : Int64) {length : Int64} (hlength : 0 ≤ length.toInt)
    (what : String) {i : Int}
    (hi : i = if index.toInt < 0 then index.toInt + length.toInt else index.toInt) :
    resolveIndex index length what = if 0 ≤ i ∧ i < length.toInt then .ok i.toNat
      else .error (.raise .index s!"{what} index out of range") := by
  have hword : (if index < 0 then index + length else index).toInt = i := by
    rw [hi, apply_ite Int64.toInt]
    exact if_ctx_congr Word.toInt_neg_iff.symm (toInt_add_length hlength) fun _ => rfl
  unfold resolveIndex
  dsimp only
  generalize (if index < 0 then index + length else index) = j at hword ⊢
  subst hword
  simp only [Int64.lt_iff_toInt_lt, Int64.le_iff_toInt_le, Int64.toInt_zero, Bool.or_eq_true,
    decide_eq_true_eq]
  rw [← ite_not]
  simp only [not_or, not_lt, not_le]

namespace Slice

/-! ## Bounds -/

/-- A bound on exact integers: a negative one counts from the end, and one outside of the given ends
is moved to the nearer of them. -/
def exactBound (bound : Value) (missing lower upper length : Int) : Int :=
  match bound.int? with
  | none => missing
  | some v => max lower (min upper (if v.toInt < 0 then v.toInt + length else v.toInt))

/-- Where a selection starts. -/
def exactFirst (start : Value) (step length : Int) : Int :=
  if 0 < step then exactBound start 0 0 length length
  else exactBound start (length - 1) (-1) (length - 1) length

/-- What a selection stops before. -/
def exactLast (stop : Value) (step length : Int) : Int :=
  if 0 < step then exactBound stop length 0 length length
  else exactBound stop (-1) (-1) (length - 1) length

theorem toInt_max (x y : Int64) : (max x y).toInt = max x.toInt y.toInt := by
  change (if x ≤ y then y else x).toInt = _
  rw [apply_ite Int64.toInt, max_def]
  simp only [Int64.le_iff_toInt_le]

theorem toInt_min (x y : Int64) : (min x y).toInt = min x.toInt y.toInt := by
  change (if x ≤ y then x else y).toInt = _
  rw [apply_ite Int64.toInt, min_def]
  simp only [Int64.le_iff_toInt_le]

/-- A bound is resolved without wrapping around, for ends as a slice has them. -/
theorem boundOf_eq {bound : Value} (hbound : bound.IsBound) (missing lower upper : Int64)
    {length : Int64} (hlength : 0 ≤ length.toInt) (hlower : lower.toInt ≤ 0)
    (hends : lower.toInt ≤ upper.toInt) (hupper : length.toInt - 1 ≤ upper.toInt) :
    ∃ b, boundOf bound missing lower upper length = .ok b ∧
      b.toInt = exactBound bound missing.toInt lower.toInt upper.toInt length.toInt := by
  rcases hbound.elim with ⟨hnone, hint⟩ | ⟨v, hsome, hint, hindex⟩
  · refine ⟨missing, ?_, by rw [exactBound, hint]⟩
    simp [boundOf, hnone, pure, Except.pure]
  · rw [exactBound, hint]
    simp only [boundOf, hsome, hindex, bind, Except.bind, pure, Except.pure,
      ← Word.toInt_neg_iff (n := v)]
    -- a negative bound counts from the end, and neither sum leaves the words
    by_cases hneg : v.toInt < 0
    · refine ⟨max lower (v + length), by simp [hneg], ?_⟩
      rw [toInt_max, toInt_add_length hlength hneg]
      simp only [hneg, if_true]
      omega
    · refine ⟨min v upper, by simp [hneg], ?_⟩
      rw [toInt_min]
      simp only [hneg, if_false]
      omega

/-! ## Walks -/

variable {step : { n : Int64 // n ≠ 0 }} {stop i : Int64}

/-- No sum and no difference that a walk computes wraps around, from a position to the end. The
cases are those of the walk, so that it also comes to an end. -/
inductive WalksExactly (step stop : Int64) : Int64 → Prop
  /-- There is nothing to do at the stop and behind it. -/
  | beyond {i : Int64} (hbefore : before step stop i = false) : WalksExactly step stop i
  /-- The distance to the stop decides that this is the last position. -/
  | last {i : Int64} (hbefore : before step stop i = true)
      (hdistance : (stop - i).toInt = stop.toInt - i.toInt) (hlast : isLast step stop i = true) :
      WalksExactly step stop i
  /-- The walk goes on behind the next step. -/
  | next {i : Int64} (hbefore : before step stop i = true)
      (hdistance : (stop - i).toInt = stop.toInt - i.toInt) (hlast : isLast step stop i = false)
      (hstep : (i + step).toInt = i.toInt + step.toInt)
      (hrest : WalksExactly step stop (i + step)) : WalksExactly step stop i

theorem before_iff :
    before step.1 stop i = true ↔
      0 < step.1.toInt ∧ i.toInt < stop.toInt ∨ step.1.toInt < 0 ∧ stop.toInt < i.toInt := by
  have hstep := Word.toInt_ne_zero step.2
  unfold before
  simp only [Int64.lt_iff_toInt_lt, Int64.toInt_zero]
  grind

/-- A walk over less than half of all words is exact. -/
theorem walksExactly (hfits : |stop.toInt - i.toInt| < 2 ^ 63) : WalksExactly step.1 stop i := by
  induction hfar : (stop.toInt - i.toInt).natAbs using Nat.strong_induction_on generalizing i with
  | _ far ih =>
      have hdistance : (stop - i).toInt = stop.toInt - i.toInt := by
        rw [Int64.toInt_sub, Int.bmod_def]
        rw [abs_lt] at hfits
        omega
      cases hbefore : before step.1 stop i with
      | false => exact .beyond hbefore
      | true =>
          cases hlast : isLast step.1 stop i with
          | true => exact .last hbefore hdistance hlast
          | false =>
              -- The next position is not behind the stop, hence nearer to it than this one.
              have hnearer := distance_add_step_lt step.2 hbefore hlast
              refine .next hbefore hdistance hlast (add_step_of_before hbefore hlast).1
                (ih _ (hfar ▸ hnearer) ?_ rfl)
              rw [Int.abs_eq_natAbs] at hfits ⊢
              omega

/-- An exact walk finds the integers of a progression. -/
theorem walk_of_walksExactly (hexact : WalksExactly step.1 stop i) (seen : Array Int64) :
    (walk step stop i seen).toList.map Int64.toInt =
      seen.toList.map Int64.toInt ++ progression step.1.toInt stop.toInt i.toInt := by
  -- the walk stops before the addition that could overflow
  induction hexact generalizing seen with
  | beyond hbefore =>
      have hbeyond := mt before_iff.mpr (Bool.eq_false_iff.mp hbefore)
      rw [walk, progression, if_neg hbeyond]
      simp [hbefore]
  | @last i hbefore hdistance hlast =>
      have hend : ¬ (0 < step.1.toInt ∧ i.toInt + step.1.toInt < stop.toInt ∨
          step.1.toInt < 0 ∧ stop.toInt < i.toInt + step.1.toInt) := by
        simp only [isLast, Int64.lt_iff_toInt_lt, Int64.le_iff_toInt_le, Int64.toInt_zero,
          hdistance] at hlast
        grind
      rw [walk, progression, if_pos (before_iff.mp hbefore), progression, if_neg hend]
      simp [hbefore, hlast]
  | next hbefore hdistance hlast hstep hrest ih =>
      rw [walk, progression, if_pos (before_iff.mp hbefore), ← hstep]
      simp [hbefore, hlast, ih]

/-! ## Positions -/

/-- Everything that is computed while the positions in a sequence are selected, without wrapping
around: the last position when it is a bound, negative bounds as counted from the end, and the walk
between the resolved bounds. -/
structure SelectsExactly (start stop : Value) (step : { n : Int64 // n ≠ 0 }) (length : Int64)
    (selected : List Int64) : Prop where
  ends : step.1 < 0 → (length - 1).toInt = length.toInt - 1
  bounds : ∀ bound ∈ [start, stop], ∀ v, bound.int? = some v → v < 0 →
    (v + length).toInt = v.toInt + length.toInt
  walks : ∃ first last : Int64, first.toInt = exactFirst start step.1.toInt length.toInt ∧
    last.toInt = exactLast stop step.1.toInt length.toInt ∧ WalksExactly step.1 last first ∧
    selected = (walk step last first #[]).toList

theorem exactBound_bounds {bound : Value} {missing lower upper length : Int}
    (hmissing : lower ≤ missing ∧ missing ≤ upper) :
    lower ≤ exactBound bound missing lower upper length ∧
      exactBound bound missing lower upper length ≤ upper := by
  unfold exactBound
  split <;> omega

/-- The resolved bounds lie in the sequence or next to it: behind it when the step is positive, and
before it when the step is negative. -/
theorem exactBounds_mem (start stop : Value) (step : Int) {length : Int} (hlength : 0 ≤ length) :
    (0 < step → (0 ≤ exactFirst start step length ∧ exactFirst start step length ≤ length) ∧
      0 ≤ exactLast stop step length ∧ exactLast stop step length ≤ length) ∧
    (¬ 0 < step → (-1 ≤ exactFirst start step length ∧ exactFirst start step length ≤ length - 1) ∧
      -1 ≤ exactLast stop step length ∧ exactLast stop step length ≤ length - 1) := by
  unfold exactFirst exactLast
  constructor
  · intro hpos
    rw [if_pos hpos, if_pos hpos]
    exact ⟨exactBound_bounds (by omega), exactBound_bounds (by omega)⟩
  · intro hneg
    rw [if_neg hneg, if_neg hneg]
    exact ⟨exactBound_bounds (by omega), exactBound_bounds (by omega)⟩

/-- The last position before the end of a sequence. -/
theorem toInt_length_sub_one {length : Int64} (hlength : 0 ≤ length.toInt) :
    (length - 1).toInt = length.toInt - 1 := by
  have hlt := length.toInt_lt
  rw [Int64.toInt_sub, Int64.toInt_one, Int.bmod_def]
  omega

/-- A selection walks between the exact bounds. -/
theorem positions_eq_walk {start stop stepValue : Value} {length : Int64} (hstart : start.IsBound)
    (hstop : stop.IsBound) (hlength : 0 ≤ length.toInt) (hstep : stepOf stepValue = .ok step) :
    ∃ first last : Int64,
      positions start stop stepValue length = .ok (walk step last first #[]).toList ∧
        first.toInt = exactFirst start step.1.toInt length.toInt ∧
        last.toInt = exactLast stop step.1.toInt length.toInt := by
  have hends := toInt_length_sub_one hlength
  have hpos : 0 < step.1 ↔ 0 < step.1.toInt := by simp [Int64.lt_iff_toInt_lt]
  simp only [positions, hstep, bind, Except.bind, pure, Except.pure, exactFirst, exactLast, ← hpos]
  -- the defaults and the limits of both bounds depend on the direction
  by_cases h : 0 < step.1
  · obtain ⟨first, hfirst, hfirst'⟩ := boundOf_eq hstart 0 0 length hlength (by simp) (by simpa)
      (by omega)
    obtain ⟨last, hlast, hlast'⟩ := boundOf_eq hstop length 0 length hlength (by simp) (by simpa)
      (by omega)
    exact ⟨first, last, by simp [h, hfirst, hlast], by simp [h, hfirst'], by simp [h, hlast']⟩
  · obtain ⟨first, hfirst, hfirst'⟩ := boundOf_eq hstart (length - 1) (-1) (length - 1) hlength
      (by simp) (by simpa [hends]) (by omega)
    obtain ⟨last, hlast, hlast'⟩ := boundOf_eq hstop (-1) (-1) (length - 1) hlength
      (by simp) (by simpa [hends]) (by omega)
    refine ⟨first, last, by simp [h, hfirst, hlast], ?_, ?_⟩
    · simp [h, hfirst', hends]
    · simp [h, hlast', hends]

theorem exists_selected {start stop stepValue : Value} {length : Int64} (hstart : start.IsBound)
    (hstop : stop.IsBound) (hlength : 0 ≤ length.toInt) (hstep : stepOf stepValue = .ok step) :
    ∃ selected, positions start stop stepValue length = .ok selected ∧
      SelectsExactly start stop step length selected := by
  obtain ⟨first, last, hwalk, hfirst, hlast⟩ := positions_eq_walk hstart hstop hlength hstep
  have hmem := exactBounds_mem start stop step.1.toInt hlength
  have hfits : |last.toInt - first.toInt| < 2 ^ 63 := by
    have hlt := length.toInt_lt
    rw [abs_lt, hfirst, hlast]
    omega
  refine ⟨_, hwalk, fun _ => toInt_length_sub_one hlength, fun _ _ v _ hneg => ?_,
    first, last, hfirst, hlast, walksExactly hfits, rfl⟩
  exact toInt_add_length hlength (Word.toInt_neg_iff.mpr hneg)

/-! ## The selection -/

/-- The step of a slice as an exact integer; a missing one is one. -/
def exactStep (step : Value) : Int :=
  match step.int? with
  | none => 1
  | some n => n.toInt

theorem stepOf_of_zero {stepValue : Value} (hbound : stepValue.IsBound)
    (hzero : exactStep stepValue = 0) :
    stepOf stepValue = .error (.raise .value "slice step cannot be zero") := by
  unfold exactStep at hzero
  rcases hbound.elim with ⟨-, hint⟩ | ⟨n, hsome, hint, hindex⟩
  · simp [hint] at hzero
  · obtain rfl : n = 0 := by simpa [hint, ← Int64.toInt_inj] using hzero
    simp only [stepOf, hsome, hindex, bind, Except.bind]
    rfl

theorem stepOf_of_ne_zero {stepValue : Value} (hbound : stepValue.IsBound)
    (hstep : exactStep stepValue ≠ 0) :
    ∃ step, stepOf stepValue = .ok step ∧ step.1.toInt = exactStep stepValue := by
  unfold exactStep at hstep ⊢
  rcases hbound.elim with ⟨hnone, hint⟩ | ⟨n, hsome, hint, hindex⟩
  · exact ⟨⟨1, by decide⟩, by simp [stepOf, hnone, pure, Except.pure], by simp [hint]⟩
  · have hne : n ≠ 0 := by simpa [hint, ← Int64.toInt_inj] using hstep
    refine ⟨⟨n, hne⟩, ?_, by simp [hint]⟩
    simp [stepOf, hindex, hsome, hne, bind, Except.bind, pure, Except.pure]

/-- The selected positions of a sequence are positions in it. -/
theorem progression_mem_bounds {start stop : Value} {step length : Int} (hlength : 0 ≤ length)
    {i : Int} (hi : i ∈ progression step (exactLast stop step length)
      (exactFirst start step length)) : 0 ≤ i ∧ i < length := by
  have hmem := exactBounds_mem start stop step hlength
  have hrange := (mem_progression.mp hi).1
  omega

/-- A slice without a step of zero selects the positions from its exact first bound, in steps,
strictly before its exact last bound. All of them are positions of the sequence, none is selected
twice, and no operation wraps around on the way. A step of zero is a value fault. -/
theorem selects_indices (start stop step : Value) (length : Int) (hlength : 0 ≤ length)
    (hword : length < 2 ^ 63) (hstart : start.IsBound) (hstop : stop.IsBound)
    (hstep : step.IsBound) :
    (exactStep step = 0 →
      indices start stop step length = .error (.raise .value "slice step cannot be zero")) ∧
    (exactStep step ≠ 0 →
      ∃ selected, indices start stop step length = .ok selected ∧
        selected = progression (exactStep step) (exactLast stop (exactStep step) length)
          (exactFirst start (exactStep step) length) ∧
        (∀ i ∈ selected, 0 ≤ i ∧ i < length) ∧ selected.Nodup ∧
        ∃ words nonzero, positions start stop step (Int64.ofInt length) = .ok words ∧
          words.map Int64.toInt = selected ∧ stepOf step = .ok nonzero ∧
          SelectsExactly start stop nonzero (Int64.ofInt length) words) := by
  constructor
  · intro hzero
    simp [indices, positions, stepOf_of_zero hstep hzero, bind, Except.bind]
  · intro hne
    have hlength' : (Int64.ofInt length).toInt = length :=
      Int64.toInt_ofInt_of_le (by omega) hword
    obtain ⟨nonzero, hnonzero, hvalue⟩ := stepOf_of_ne_zero hstep hne
    obtain ⟨words, hwords, hexact⟩ := exists_selected hstart hstop (hlength'.symm ▸ hlength)
      hnonzero
    obtain ⟨first, last, hfirst, hlast, hwalks, hwalk⟩ := hexact.walks
    -- the words selected are the integers of the exact progression
    have hprogression : words.map Int64.toInt = progression (exactStep step)
        (exactLast stop (exactStep step) length) (exactFirst start (exactStep step) length) := by
      rw [hwalk, walk_of_walksExactly hwalks, hfirst, hlast, hvalue, hlength']
      simp
    refine ⟨words.map Int64.toInt, by simp [indices, hwords, bind, Except.bind, pure, Except.pure],
      hprogression, ?_, ?_, words, nonzero, hwords, rfl, hnonzero, hexact⟩
    · rw [hprogression]
      exact fun i hi => progression_mem_bounds hlength hi
    · rw [hprogression]
      exact nodup_progression hne

/-- The least step selects one position from behind the end, without leaving the range of words. -/
theorem selects_indices_leastStep :
    indices (.int 10) .none (.int Int64.minValue) 3 = .ok [2] ∧
      ∃ words nonzero, words.map Int64.toInt = [2] ∧
        SelectsExactly (.int 10) .none nonzero (Int64.ofInt 3) words := by
  have hselects := (selects_indices (.int 10) .none (.int Int64.minValue) 3 (by decide) (by decide)
    (.inr ⟨10, rfl⟩) (.inl rfl) (.inr ⟨Int64.minValue, rfl⟩)).2 (by decide)
  obtain ⟨selected, hindices, hprogression, -, -, words, nonzero, -, hwords, -, hexact⟩ := hselects
  have htwo : selected = [2] := hprogression.trans (by cbv)
  exact ⟨htwo ▸ hindices, words, nonzero, htwo ▸ hwords, hexact⟩

end Slice

end Wordcode
