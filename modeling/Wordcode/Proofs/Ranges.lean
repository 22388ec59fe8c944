import Mathlib
import Wordcode.Machine.Iteration
import Wordcode.Proofs.Progressions
import Wordcode.Proofs.Sequence
import Wordcode.Proofs.Slices

namespace Wordcode

/-! # Ranges as sequences

A range stands for a progression of integers. Its length, its items, its members and its equality
are four computations on words, which agree with the progression when the first of them does.

* `Range.sequence` is the progression.
* `Range.Consistent` says that all computations see it, and `Range.Fits` that the computation of the
  length stays in the range of words.
* `Range.consistent_iff_fits` is the main result: this is the same.
-/

namespace Range

variable {r : Range}

/-- The integers that a range stands for. -/
def sequence (r : Range) : List Int := progression r.step.toInt r.stop.toInt r.start.toInt

/-- How far the stop lies ahead of the start, in the direction of the step. -/
def span (r : Range) : Int := distance r.step.toInt r.stop.toInt r.start.toInt

/-- The computation of the length stays in the range of words, or the range has one integer at
most. -/
def Fits (r : Range) : Prop := r.span ≤ 1 ∨ r.span + |r.step.toInt| ≤ 2 ^ 63

/-! ## Lengths -/

theorem span_lt : r.span < 2 ^ 64 := by
  have h := r.start.le_toInt
  have h' := r.start.toInt_lt
  have hs := r.stop.le_toInt
  have hs' := r.stop.toInt_lt
  unfold span distance
  split <;> omega

theorem abs_step_le : |r.step.toInt| ≤ 2 ^ 63 := by
  have h := r.step.le_toInt
  have h' := r.step.toInt_lt
  rw [abs_le]
  omega

/-- Both directions compute the length in the same way. -/
theorem length_eq (hstep : r.step ≠ 0) :
    r.length = if 0 < r.span then
      Int64.ofInt (r.span + |r.step.toInt| - 1) / Int64.ofInt |r.step.toInt| else 0 := by
  have hstep := Word.toInt_ne_zero hstep
  unfold length span distance
  simp only [Int64.lt_iff_toInt_lt, Int64.le_iff_toInt_le, Int64.toInt_zero]
  by_cases hpos : 0 < r.step.toInt
  · simp only [hpos, if_true, abs_of_pos hpos, Int64.ofInt_sub, Int64.ofInt_add, Int64.ofInt_toInt]
    rw [← ite_not]
    simp only [not_le, sub_pos]
    rfl
  · rw [abs_of_neg (by omega), ← sub_eq_add_neg]
    simp only [hpos, if_false, Int64.ofInt_sub, Int64.ofInt_neg, Int64.ofInt_toInt]
    rw [← ite_not]
    simp only [not_le, sub_pos]
    rfl

/-- A quotient of words within the range of words. -/
theorem toInt_ofInt_div {x y : Int} (hx : 0 ≤ x) (hx' : x < 2 ^ 63) (hy : 0 < y)
    (hy' : y < 2 ^ 63) : (Int64.ofInt x / Int64.ofInt y).toInt = x / y := by
  have hle : x / y ≤ x := Int.ediv_le_self y hx
  have hpos : 0 ≤ x / y := Int.ediv_nonneg hx hy.le
  rw [Int64.toInt_div, Int64.toInt_ofInt_of_le (by omega) hx',
    Int64.toInt_ofInt_of_le (by omega) hy', Int.tdiv_eq_ediv_of_nonneg hx]
  exact Int.bmod_eq_of_le (by omega) (by omega)

/-- The quotient is right when its dividend is a word. With a distance of one, dividend and divisor
are the same, whatever becomes of them. -/
theorem toInt_quotient {d s : Int} (hd : 0 < d) (hs : 0 < s) (hs' : s ≤ 2 ^ 63)
    (hfits : d ≤ 1 ∨ d + s ≤ 2 ^ 63) :
    (Int64.ofInt (d + s - 1) / Int64.ofInt s).toInt = (d + s - 1) / s := by
  rcases hs'.lt_or_eq with hs' | rfl
  · exact toInt_ofInt_div (by omega) (by omega) hs hs'
  · obtain rfl : d = 1 := by omega
    decide

theorem tdiv_nonpos {n s : Int} (hn : n ≤ 0) (hs : 0 ≤ s) : n.tdiv s ≤ 0 := by
  have hsign := Int.tdiv_nonneg (Int.neg_nonneg_of_nonpos hn) hs
  rw [Int.neg_tdiv] at hsign
  omega

/-- A dividend that is smaller by the divisor at least has a smaller quotient. -/
theorem tdiv_lt_ediv {m n s : Int} (hs : 0 < s) (hsm : s ≤ m) (hfar : n + s ≤ m) :
    n.tdiv s < m / s := by
  rcases le_or_gt 0 n with hpos | hneg
  · have hmore : (n + 1 * s) / s ≤ m / s := Int.ediv_le_ediv hs (by omega)
    rw [Int.add_mul_ediv_right n 1 hs.ne'] at hmore
    rw [Int.tdiv_eq_ediv_of_nonneg hpos]
    omega
  · have hone : 1 ≤ m / s := (Int.le_ediv_iff_mul_le hs).mpr (by omega)
    have hsign := tdiv_nonpos hneg.le hs.le
    omega

/-- The quotient is wrong when its dividend is reduced. -/
theorem toInt_quotient_ne {d s : Int} (hd : 1 < d) (hd' : d < 2 ^ 64) (hs : 0 < s)
    (hs' : s ≤ 2 ^ 63) (hfits : 2 ^ 63 < d + s) :
    (Int64.ofInt (d + s - 1) / Int64.ofInt s).toInt ≠ (d + s - 1) / s := by
  -- the span does not fit a word, so the numerator has wrapped around to a negative one
  have hreduced : (Int64.ofInt (d + s - 1)).toInt = d + s - 1 - 2 ^ 64 := by
    rw [Int64.toInt_ofInt]
    change (d + s - 1).bmod (2 ^ 64) = _
    rw [Int.bmod_def]
    omega
  rw [Int64.toInt_div, hreduced]
  generalize hn : d + s - 1 - 2 ^ 64 = n
  rcases hs'.lt_or_eq with hs' | rfl
  · have hdivisor : (Int64.ofInt s).toInt = s := Int64.toInt_ofInt_of_le (by omega) hs'
    have hword : (n.tdiv s).bmod (2 ^ 64) = n.tdiv s := by
      have hle := Int.natAbs_tdiv_le_natAbs n s
      have hsign := fun hn : n ≤ 0 => tdiv_nonpos hn hs.le
      exact Int.bmod_eq_of_le (by omega) (by omega)
    rw [hdivisor, hword]
    exact (tdiv_lt_ediv hs (by omega) (by omega)).ne
  · -- The largest divisor is not a word either: it comes out negative, and the quotient as zero.
    have hone : 1 ≤ (d + 2 ^ 63 - 1) / 2 ^ 63 := (Int.le_ediv_iff_mul_le hs).mpr (by omega)
    have hdivisor : (Int64.ofInt (2 ^ 63)).toInt = -2 ^ 63 := by decide
    have hzero : n.tdiv (-2 ^ 63) = 0 := by
      rw [← Int.natAbs_eq_zero, Int.natAbs_tdiv]
      exact Nat.div_eq_of_lt (by omega)
    rw [hdivisor, hzero, Int.zero_bmod]
    omega

/-- The length of the sequence. -/
theorem length_sequence (hstep : r.step ≠ 0) :
    (r.sequence.length : Int) =
      if 0 < r.span then (r.span + |r.step.toInt| - 1) / |r.step.toInt| else 0 := by
  have hstep := Word.toInt_ne_zero hstep
  rw [sequence, length_progression hstep]
  split
  · next hpos =>
      have hsize : 0 < |r.step.toInt| := abs_pos.mpr hstep
      have hnonneg : 0 ≤ (r.span + |r.step.toInt| - 1) / |r.step.toInt| :=
        Int.ediv_nonneg (by omega) hsize.le
      exact Int.toNat_of_nonneg hnonneg
  · next hpos => rw [stepCount_of_nonpos hpos, Nat.cast_zero]

/-- The length is right exactly when it is computed in the range of words. -/
theorem toInt_length_iff (hstep : r.step ≠ 0) : r.length.toInt = r.sequence.length ↔ r.Fits := by
  have hsize : 0 < |r.step.toInt| := abs_pos.mpr (Word.toInt_ne_zero hstep)
  have hspan := span_lt (r := r)
  have hstep' := abs_step_le (r := r)
  rw [length_eq hstep, length_sequence hstep, Fits]
  split
  · next hpos =>
      refine ⟨fun hright => ?_, toInt_quotient hpos hsize hstep'⟩
      by_contra hwraps
      exact toInt_quotient_ne (by omega) hspan hsize hstep' (by omega) hright
  · next hpos => simp [show r.span ≤ 1 by omega]

/-! ## Items -/

/-- The integers of a range are words. -/
theorem toInt_ofInt_of_mem {v : Int} (hv : v ∈ r.sequence) : (Int64.ofInt v).toInt = v := by
  have hrange := (mem_progression.mp hv).1
  have h := r.start.le_toInt
  have h' := r.start.toInt_lt
  have hs := r.stop.le_toInt
  have hs' := r.stop.toInt_lt
  exact Int64.toInt_ofInt_of_le (by omega) (by omega)

theorem nth_eq (i : Int64) : r.nth i = Int64.ofInt (r.start.toInt + i.toInt * r.step.toInt) := by
  rw [Int64.ofInt_add, Int64.ofInt_mul, Int64.ofInt_toInt, Int64.ofInt_toInt, Int64.ofInt_toInt]
  rfl

/-- The item at a position of the sequence. -/
theorem nth_of_getElem? (hstep : r.step ≠ 0) {i : Int64} {k : Nat} {v : Int} (hi : i.toInt = k)
    (hv : r.sequence[k]? = some v) : r.nth i = Int64.ofInt v := by
  obtain ⟨hk, -⟩ := List.getElem?_eq_some_iff.mp hv
  have hplace := getElem?_progression (Word.toInt_ne_zero hstep) hk
  obtain rfl := Option.some.inj (hv.symm.trans hplace)
  rw [nth_eq, hi]

/-! ## Members -/

theorem contains_iff_mod (hstep : r.step ≠ 0) (v : Int64) :
    r.contains v = true ↔
      (0 < r.step.toInt ∧ r.start.toInt ≤ v.toInt ∧ v.toInt < r.stop.toInt ∨
        r.step.toInt < 0 ∧ v.toInt ≤ r.start.toInt ∧ r.stop.toInt < v.toInt) ∧
        r.step.toInt ∣ (v - r.start).toInt := by
  have hstep := Word.toInt_ne_zero hstep
  unfold contains
  simp only [Bool.and_eq_true, beq_iff_eq, ← Int64.toInt_inj, Int64.toInt_mod, Int64.toInt_zero,
    ← Int.dvd_iff_tmod_eq_zero, Int64.lt_iff_toInt_lt, Int64.le_iff_toInt_le]
  refine and_congr_left fun _ => ?_
  split <;> simp only [Bool.and_eq_true, decide_eq_true_eq] <;> omega

/-- Membership is right where the distance to the start is a word, or where it keeps its multiples
of the step when it is reduced. -/
theorem contains_iff (hstep : r.step ≠ 0) (hfits : r.span ≤ 2 ^ 63 ∨ r.step.toInt ∣ 2 ^ 64)
    (v : Int64) : r.contains v = true ↔ v.toInt ∈ r.sequence := by
  rw [contains_iff_mod hstep, sequence, mem_progression, Int64.toInt_sub]
  refine and_congr_right fun hrange => ?_
  rcases hfits with hnear | hmultiple
  · have hword : (v.toInt - r.start.toInt).bmod (2 ^ 64) = v.toInt - r.start.toInt := by
      unfold span distance at hnear
      exact Int.bmod_eq_of_le (by omega) (by omega)
    rw [hword]
  · rw [Int.bmod_eq_self_sub_mul_bdiv]
    exact dvd_sub_left (hmultiple.mul_right _)

/-! ## Equality -/

/-- Ranges whose lengths are right are equal when their sequences are. -/
theorem equals_iff_sequence_eq {b : Range} (hstep : r.step ≠ 0) (hfits : r.Fits)
    (hstep' : b.step ≠ 0) (hfits' : b.Fits) : r.equals b = true ↔ r.sequence = b.sequence := by
  have hlength := (toInt_length_iff hstep).mpr hfits
  have hlength' := (toInt_length_iff hstep').mpr hfits'
  have hstep := Word.toInt_ne_zero hstep
  have hstep' := Word.toInt_ne_zero hstep'
  rw [sequence, length_progression hstep] at hlength
  rw [sequence, length_progression hstep'] at hlength'
  rw [sequence, sequence, progression_inj hstep hstep']
  unfold equals
  simp only [Bool.and_eq_true, Bool.or_eq_true, beq_iff_eq, ← Int64.toInt_inj, Int64.toInt_zero,
    Int64.toInt_one, hlength, hlength']
  norm_cast

end Range

/-! ## Iteration -/

namespace Exec

variable {r : Range} {ref : Nat} {w : World} {position length : Int64}

/-- An iterator moved to another place. -/
def moved (w : World) (ref : Nat) (cursor : Cursor) : World :=
  { w with store := { w.store with
      iterators := w.store.iterators.modify ref ({ · with cursor }) } }

/-- An iterator that has come to its end. -/
def finished (w : World) (ref : Nat) : World :=
  { w with store := { w.store with
      iterators := w.store.iterators.modify ref ({ · with done := true }) } }

theorem iterator_moved (hsize : ref < w.store.iterators.size) {it : Iteration}
    (h : w.store.iterator ref = it) (cursor : Cursor) :
    (moved w ref cursor).store.iterator ref = { it with cursor } := by
  subst h
  simp [moved, Store.iterator, Array.getD, hsize, Array.getElem_modify]

/-- A range has no source that could move its iterator, so asking it is one advance. -/
theorem next_of_range (call : Callback) (fuel : Nat)
    (h : w.store.iterator ref = { cursor := .range r position length }) :
    next call (fuel + 1) ref w = (do
      let item ← Op.advance ref (.range r position length)
      if item.isNone then Op.setDone ref
      return item : Exec (Option Value)) w := by
  have hit : (liftM (Op.iterator ref) : Exec Iteration) w =
      .ok { cursor := .range r position length } w := congrArg (EStateM.Result.ok · w) h
  rw [next]
  refine (bind_of_ok hit).trans ?_
  rw [if_neg Bool.false_ne_true]

/-- An iterator over a range takes the item at its position, as long as there is one. -/
theorem next_range (call : Callback) (fuel : Nat)
    (h : w.store.iterator ref = { cursor := .range r position length })
    (hsome : ¬ length ≤ position) :
    next call (fuel + 1) ref w =
      .ok (some (.int (r.nth position))) (moved w ref (.range r (position + 1) length)) := by
  have hadvance : (liftM (Op.advance ref (.range r position length)) : Exec (Option Value)) w =
      .ok (some (.int (r.nth position))) (moved w ref (.range r (position + 1) length)) := by
    change Exec.lift _ w = _
    simp only [Op.advance, hsome, if_false]
    rfl
  rw [next_of_range call fuel h]
  exact (bind_of_ok hadvance).trans rfl

/-- Behind the last position the iterator has come to its end. -/
theorem next_range_end (call : Callback) (fuel : Nat)
    (h : w.store.iterator ref = { cursor := .range r position length })
    (hend : length ≤ position) : next call (fuel + 1) ref w = .ok none (finished w ref) := by
  have hadvance : (liftM (Op.advance ref (.range r position length)) : Exec (Option Value)) w =
      .ok none w := by
    change Exec.lift _ w = _
    simp only [Op.advance, hend, if_true]
    rfl
  rw [next_of_range call fuel h]
  exact (bind_of_ok hadvance).trans rfl

/-- From a position on, an iterator over a range gives the rest of its sequence. -/
theorem go_range (call : Callback) (hstep : r.step ≠ 0)
    (hlength : length.toInt = r.sequence.length) (rest : List Int) {done : Nat} (fuel : Nat)
    (seen : Array Value) (hrest : r.sequence.drop done = rest) (hdone : position.toInt = done)
    (hfuel : rest.length + 2 ≤ fuel) (hsize : ref < w.store.iterators.size)
    (h : w.store.iterator ref = { cursor := .range r position length }) :
    ∃ w', drain.go call fuel ref seen w =
      .ok (seen.toList ++ rest.map fun v => .int (Int64.ofInt v)) w' := by
  have hword := length.toInt_lt
  have hcount : r.sequence.length - done = rest.length := by rw [← hrest, List.length_drop]
  induction rest generalizing done fuel seen w position with
  | nil =>
      obtain ⟨fuel, rfl⟩ := Nat.exists_eq_add_of_le hfuel
      have hend : length ≤ position := by
        rw [List.length_nil] at hcount
        rw [Int64.le_iff_toInt_le]
        omega
      refine ⟨finished w ref, ?_⟩
      rw [List.length_nil, Nat.zero_add, Nat.add_comm, drain.go,
        bind_of_ok (next_range_end call fuel h hend), List.map_nil, List.append_nil]
      rfl
  | cons v rest ih =>
      obtain ⟨fuel, rfl⟩ := Nat.exists_eq_add_of_le' hfuel
      have hhere : r.sequence[done]? = some v := by
        rw [← List.head?_drop, hrest, List.head?_cons]
      have hnext : r.sequence.drop (done + 1) = rest := by
        rw [← List.tail_drop, hrest, List.tail_cons]
      rw [List.length_cons] at hcount
      have hsome : ¬ length ≤ position := by
        rw [Int64.le_iff_toInt_le]
        omega
      -- The length is a word, so that the position behind an item is one too.
      have hmoved : (position + 1).toInt = (done + 1 : Nat) := by
        rw [Int64.toInt_add, Int64.toInt_one, Int.bmod_eq_of_le] <;> omega
      have hnth := Range.nth_of_getElem? hstep hdone hhere
      obtain ⟨w', hgo⟩ := ih (fuel + rest.length + 2) (seen.push (.int (r.nth position))) hnext
        hmoved (by omega) (by simpa [moved] using hsize) (iterator_moved hsize h _) (by omega)
      refine ⟨w', ?_⟩
      change drain.go call (fuel + rest.length + 2 + 1) ref seen w = _
      rw [drain.go, bind_of_ok (next_range call _ h hsome)]
      refine hgo.trans ?_
      rw [hnth, List.map_cons]
      simp

/-- Collecting a range gives its sequence, where its length is right. -/
theorem collect_range (call : Callback) (hstep : r.step ≠ 0)
    (hlength : r.length.toInt = r.sequence.length) (id : Nat) {fuel : Nat}
    (hfuel : r.sequence.length + 3 ≤ fuel) (w : World) :
    ∃ w', collect call fuel (.range r id) w =
      .ok (r.sequence.map fun v => .int (Int64.ofInt v)) w' := by
  obtain ⟨fuel, rfl⟩ := Nat.exists_eq_add_of_le' hfuel
  let start : World := { w with store := { w.store with
    iterators := w.store.iterators.push { cursor := .range r 0 r.length } } }
  have hcursor : (liftM (Op.cursorOf (.range r id)) : Exec Nat) w =
      .ok w.store.iterators.size start := rfl
  have hit : start.store.iterator w.store.iterators.size = { cursor := .range r 0 r.length } := by
    simp [start, Store.iterator, Array.getD]
  obtain ⟨w', hgo⟩ := go_range call hstep hlength r.sequence (fuel + r.sequence.length + 2) #[]
    List.drop_zero Int64.toInt_zero (by omega) (by simp [start]) hit
  exact ⟨w', (bind_of_ok hcursor).trans hgo⟩

end Exec

/-! ## Consistency -/

namespace Range

variable {r : Range}

/-- Everything that can be asked of a range agrees with its sequence: the length, the items that
iteration gives, the item at every index, the members, and equality with other such ranges. -/
structure Consistent (r : Range) : Prop where
  length : r.length.toInt = r.sequence.length
  iterates : ∀ (call : Callback) (id fuel : Nat) (w : World), r.sequence.length + 3 ≤ fuel →
    ∃ (ns : List Int64) (w' : World),
      Exec.collect call fuel (.range r id) w = .ok (ns.map .int) w' ∧
        ns.map Int64.toInt = r.sequence
  /-- Indices below zero count from the end. -/
  item : ∀ (id : Nat) (key : Value) (i : Int64) (s : Store), key.int? = some i →
    ∀ (k : Nat) (v : Int), r.sequence[k]? = some v →
      i.toInt = k ∨ i.toInt = k - r.sequence.length →
      ∃ n : Int64, Op.getItem (.range r id) key s = .ok (.int n) s ∧ n.toInt = v
  noItem : ∀ (id : Nat) (key : Value) (i : Int64) (s : Store), key.int? = some i →
    i.toInt < -r.sequence.length ∨ r.sequence.length ≤ i.toInt →
      Op.getItem (.range r id) key s =
        .error (.raise .index "range object index out of range") s
  members : ∀ v : Int64, r.contains v = true ↔ v.toInt ∈ r.sequence
  equality : ∀ b : Range, b.step ≠ 0 → b.Fits → (r.equals b = true ↔ r.sequence = b.sequence)

theorem getItem_eq (id : Nat) {key : Value} {i : Int64} (hkey : key.int? = some i) (s : Store) :
    Op.getItem (.range r id) key s =
      match resolveIndex i r.length "range object" with
      | .ok k => .ok (.int (r.nth (Int64.ofNat k))) s
      | .error e => .error e s := by
  have hget : Op.getItem (.range r id) key = (do
      let k ← Op.ofExcept (resolveIndex i r.length "range object")
      return .int (r.nth (Int64.ofNat k))) := by
    cases key with
    | int n => cases hkey; rfl
    | bool b => cases hkey; rfl
    | _ => cases hkey
  rw [hget]
  cases resolveIndex i r.length "range object" <;> rfl

/-- An index in the sequence, from either end, gives its item. -/
theorem getItem_of_getElem? (hstep : r.step ≠ 0) (hlength : r.length.toInt = r.sequence.length)
    (id : Nat) {key : Value} {i : Int64} (hkey : key.int? = some i) (s : Store) {k : Nat} {v : Int}
    (hv : r.sequence[k]? = some v) (hi : i.toInt = k ∨ i.toInt = k - r.sequence.length) :
    Op.getItem (.range r id) key s = .ok (.int (Int64.ofInt v)) s := by
  obtain ⟨hk, -⟩ := List.getElem?_eq_some_iff.mp hv
  have hword := r.length.toInt_lt
  have hposition : (k : Int) = if i.toInt < 0 then i.toInt + r.length.toInt else i.toInt := by
    split <;> omega
  have hresolve := resolveIndex_eq i (by omega) "range object" hposition
  have hnat : (Int64.ofNat k).toInt = k := Int64.toInt_ofNat_of_lt (by omega)
  rw [if_pos (by omega), Int.toNat_natCast] at hresolve
  rw [getItem_eq id hkey, hresolve]
  exact congrArg (EStateM.Result.ok · s) (congrArg Value.int (nth_of_getElem? hstep hnat hv))

/-- An index outside of the sequence is an index fault. -/
theorem getItem_of_outside (hlength : r.length.toInt = r.sequence.length) (id : Nat)
    {key : Value} {i : Int64} (hkey : key.int? = some i) (s : Store)
    (hi : i.toInt < -r.sequence.length ∨ r.sequence.length ≤ i.toInt) :
    Op.getItem (.range r id) key s =
      .error (.raise .index "range object index out of range") s := by
  have hresolve := resolveIndex_eq i (by omega : 0 ≤ r.length.toInt) "range object" rfl
  rw [if_neg (by split <;> omega)] at hresolve
  rw [getItem_eq id hkey, hresolve]
  rfl

/-- A range is seen as its sequence, in every way, exactly if the computation of its length stays in
the range of words. Its members are right for other ranges too: where the distance to the start is a
word, or where the step divides 2^64. -/
theorem consistent_iff_fits (r : Range) (hstep : r.step ≠ 0) :
    (r.Consistent ↔ r.Fits) ∧
      (r.span ≤ 2 ^ 63 ∨ r.step.toInt ∣ 2 ^ 64 →
        ∀ v : Int64, r.contains v = true ↔ v.toInt ∈ r.sequence) := by
  refine ⟨⟨fun h => (toInt_length_iff hstep).mp h.length, fun hfits => ?_⟩, contains_iff hstep⟩
  have hlength := (toInt_length_iff hstep).mpr hfits
  -- no member of the progression is lost when it becomes a word
  have hwords : (r.sequence.map Int64.ofInt).map Int64.toInt = r.sequence := by
    rw [List.map_map]
    exact (List.map_congr_left fun v hv => toInt_ofInt_of_mem hv).trans (List.map_id _)
  constructor
  case length => exact hlength
  case iterates =>
    intro call id fuel w hfuel
    obtain ⟨w', hcollect⟩ := Exec.collect_range call hstep hlength id hfuel w
    refine ⟨r.sequence.map Int64.ofInt, w', ?_, hwords⟩
    rw [hcollect, List.map_map]
    rfl
  case item =>
    intro id key i s hkey k v hv hi
    exact ⟨Int64.ofInt v, getItem_of_getElem? hstep hlength id hkey s hv hi,
      toInt_ofInt_of_mem (List.mem_of_getElem? hv)⟩
  case noItem =>
    intro id key i s hkey hi
    exact getItem_of_outside hlength id hkey s hi
  case members =>
    have hsize : 0 < |r.step.toInt| := abs_pos.mpr (Word.toInt_ne_zero hstep)
    exact contains_iff hstep (.inl (by unfold Fits at hfits; omega))
  case equality =>
    intro b hstep' hfits'
    exact equals_iff_sequence_eq hstep hfits hstep' hfits'

/-- The longest descent from minus one still has a length that is a word. -/
theorem consistent_iff_fits_longest :
    (⟨-1, Int64.minValue, -1⟩ : Range).Consistent ∧
      (⟨-1, Int64.minValue, -1⟩ : Range).length = Int64.maxValue := by
  refine ⟨(consistent_iff_fits ⟨-1, Int64.minValue, -1⟩ (by decide)).1.mpr (.inr ?_), by decide⟩
  decide

/-- A step as large as a word can be: the sequence has one integer, which the range contains, but
its length comes out as zero, and collecting it gives nothing. -/
theorem not_consistent_of_largestStep :
    (⟨0, 5, Int64.maxValue⟩ : Range).sequence = [0] ∧
      (⟨0, 5, Int64.maxValue⟩ : Range).length = 0 ∧
      (⟨0, 5, Int64.maxValue⟩ : Range).contains 0 = true ∧
      ¬ (⟨0, 5, Int64.maxValue⟩ : Range).Consistent := by
  have hsequence : (⟨0, 5, Int64.maxValue⟩ : Range).sequence = [0] := by
    unfold sequence
    cbv
  refine ⟨hsequence, by decide, by decide, fun h => ?_⟩
  have hlength := h.length
  rw [hsequence] at hlength
  exact absurd hlength (by decide)

end Range

end Wordcode
