import Mathlib

namespace Wordcode

/-! # Arithmetic progressions

The integers from a start, in steps, strictly before a stop. Ranges and slices stand for such
sequences, and are compared with them here, on exact integers.

* `progression` is the sequence, one integer after the other.
* `progression_eq_map` gives the integer at each place, and `length_progression` their number.
* `mem_progression` says which integers occur, and `progression_inj` when two progressions are the
  same.
-/

/-- The integers `i`, `i + step`, … strictly before `stop` in the direction of `step`. -/
def progression (step stop i : Int) : List Int :=
  if 0 < step ∧ i < stop ∨ step < 0 ∧ stop < i then i :: progression step stop (i + step) else []
termination_by (if 0 < step then stop - i else i - stop).toNat
decreasing_by
  split <;> omega

/-- How far the stop lies ahead of an integer, in the direction of the step. -/
def distance (step stop i : Int) : Int := if 0 < step then stop - i else i - stop

variable {step stop i : Int}

theorem distance_pos_iff (hstep : step ≠ 0) :
    0 < distance step stop i ↔ 0 < step ∧ i < stop ∨ step < 0 ∧ stop < i := by
  unfold distance
  split <;> omega

theorem distance_add_step (hstep : step ≠ 0) :
    distance step stop (i + step) = distance step stop i - |step| := by
  unfold distance
  split
  · next hpos => rw [abs_of_pos hpos]; omega
  · next hneg => rw [abs_of_neg (by omega)]; omega

/-! ## Places -/

/-- The number of integers that lie before the stop. -/
def stepCount (step stop i : Int) : Nat := ((distance step stop i + |step| - 1) / |step|).toNat

theorem stepCount_of_pos (hstep : step ≠ 0) (hpos : 0 < distance step stop i) :
    stepCount step stop i = stepCount step stop (i + step) + 1 := by
  have hsize : 0 < |step| := abs_pos.mpr hstep
  have hnext : (distance step stop i + |step| - 1) / |step| =
      (distance step stop i - 1) / |step| + 1 := by
    rw [← Int.add_mul_ediv_right _ 1 hsize.ne']
    ring_nf
  have hrest : 0 ≤ (distance step stop i - 1) / |step| := Int.ediv_nonneg (by omega) hsize.le
  unfold stepCount
  rw [distance_add_step hstep, sub_add_cancel, hnext]
  omega

theorem stepCount_of_nonpos (hpos : ¬ 0 < distance step stop i) : stepCount step stop i = 0 := by
  unfold stepCount
  rw [Int.toNat_eq_zero]
  rcases eq_or_ne step 0 with rfl | hstep
  · simp
  · have hsize : 0 < |step| := abs_pos.mpr hstep
    exact Int.lt_add_one_iff.mp (Int.ediv_lt_of_lt_mul hsize (by omega))

/-- The integer at each place. -/
theorem progression_eq_map (hstep : step ≠ 0) :
    progression step stop i =
      (List.range (stepCount step stop i)).map fun k : Nat => i + k * step := by
  induction i using progression.induct step stop with
  | case1 i hbefore ih =>
      rw [progression, if_pos hbefore, ih,
        stepCount_of_pos hstep ((distance_pos_iff hstep).mpr hbefore),
        List.range_succ_eq_map, List.map_cons, List.map_map]
      refine congrArg₂ List.cons (by simp) (List.map_congr_left fun k _ => ?_)
      simp only [Function.comp_apply, Nat.succ_eq_add_one]
      push_cast
      ring
  | case2 i hbefore =>
      rw [progression, if_neg hbefore,
        stepCount_of_nonpos (mt (distance_pos_iff hstep).mp hbefore)]
      rfl

theorem length_progression (hstep : step ≠ 0) :
    (progression step stop i).length = stepCount step stop i := by
  rw [progression_eq_map hstep, List.length_map, List.length_range]

theorem getElem?_progression (hstep : step ≠ 0) {k : Nat}
    (hk : k < (progression step stop i).length) :
    (progression step stop i)[k]? = some (i + k * step) := by
  rw [length_progression hstep] at hk
  simp [progression_eq_map hstep, hk]

/-- No integer occurs twice. -/
theorem nodup_progression (hstep : step ≠ 0) : (progression step stop i).Nodup := by
  rw [progression_eq_map hstep]
  refine List.nodup_range.map fun k l hkl => ?_
  have hmul : (k : Int) * step = l * step := by simpa using hkl
  exact_mod_cast mul_right_cancel₀ hstep hmul

/-! ## Members -/

/-- An integer occurs exactly if it lies between the ends and whole steps away from the start. -/
theorem mem_progression {v : Int} :
    v ∈ progression step stop i ↔
      (0 < step ∧ i ≤ v ∧ v < stop ∨ step < 0 ∧ v ≤ i ∧ stop < v) ∧ step ∣ v - i := by
  induction i using progression.induct step stop with
  | case1 i hbefore ih =>
      have hdvd : step ∣ v - i ↔ step ∣ v - (i + step) := by
        rw [sub_add_eq_sub_sub]
        exact (dvd_sub_self_right).symm
      rw [progression, if_pos hbefore, List.mem_cons, ih, ← hdvd]
      constructor
      · rintro (rfl | ⟨hrange, hsteps⟩)
        · exact ⟨by omega, by simp⟩
        · exact ⟨by omega, hsteps⟩
      · rintro ⟨hrange, hsteps⟩
        refine or_iff_not_imp_left.mpr fun hne => ⟨?_, hsteps⟩
        -- Whole steps away from the start and not at it, so at least one step away.
        have hfar : |step| ≤ |v - i| := Int.le_of_dvd (abs_pos.mpr (by omega))
          ((abs_dvd_abs _ _).mpr hsteps)
        grind
  | case2 i hbefore =>
      rw [progression, if_neg hbefore]
      have : ¬ (0 < step ∧ i ≤ v ∧ v < stop ∨ step < 0 ∧ v ≤ i ∧ stop < v) := by omega
      simp [this]

/-! ## Equality -/

/-- Two progressions are the same exactly if they are equally long, start with the same integer
unless they are empty, and have the same step unless they are that short. -/
theorem progression_inj {step' stop' i' : Int} (hstep : step ≠ 0) (hstep' : step' ≠ 0) :
    progression step stop i = progression step' stop' i' ↔
      stepCount step stop i = stepCount step' stop' i' ∧
        (stepCount step stop i = 0 ∨
          i = i' ∧ (stepCount step stop i = 1 ∨ step = step')) := by
  constructor
  · intro hsame
    have hlength := congrArg List.length hsame
    rw [length_progression hstep, length_progression hstep'] at hlength
    -- equal progressions agree place by place
    have hplace (k : Nat) (hk : k < stepCount step stop i) : i + k * step = i' + k * step' := by
      have hhere := getElem?_progression hstep (by rwa [length_progression hstep])
      have hthere := getElem?_progression hstep' (by rwa [length_progression hstep', ← hlength])
      rw [hsame, hthere] at hhere
      exact (Option.some.inj hhere).symm
    refine ⟨hlength, or_iff_not_imp_left.mpr fun hsome => ?_⟩
    -- the first two places fix the start and the step
    have hfirst : i = i' := by simpa using hplace 0 (by omega)
    refine ⟨hfirst, or_iff_not_imp_left.mpr fun hmore => ?_⟩
    simpa [hfirst] using hplace 1 (by omega)
  · rintro ⟨hlength, hzero | ⟨rfl, hone | rfl⟩⟩
    · simp [progression_eq_map, hstep, hstep', ← hlength, hzero]
    · simp [progression_eq_map, hstep, hstep', ← hlength, hone]
    · rw [progression_eq_map hstep, progression_eq_map hstep, hlength]

end Wordcode
