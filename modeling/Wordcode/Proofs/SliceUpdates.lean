import Mathlib
import Wordcode.Machine.Iteration
import Wordcode.Proofs.Sequence
import Wordcode.Proofs.Slices

namespace Wordcode

/-! # Reading, deleting and assigning through a slice

What a slice of a list reads, deletes and replaces are the same positions, although a contiguous
replacement resolves the bounds in a way of its own.

* `Slice.chosen` are the positions, and `pick` the items at given positions.
* `Slice.select_eq`, `Slice.delete_eq`, `Slice.assign_contiguous` and `Slice.assign_of_length_eq`
  are the operations on the items of a list.
* `SliceOperations` says what they do to a list in a store, and `operations_agree` that they do.
-/

/-- The items of a list at given positions. -/
def pick {α : Type} (items : List α) (positions : List Nat) : List α :=
  positions.filterMap (items[·]?)

/-! ## Items at positions -/

section

variable {α : Type} {items values : List α} {positions : List Nat}

theorem pick_cons_of_getElem? {i : Nat} {v : α} (hv : items[i]? = some v) :
    pick items (i :: positions) = v :: pick items positions := List.filterMap_cons_some hv

/-- The items at consecutive positions. -/
theorem pick_range' (first count : Nat) (hbounds : first + count ≤ items.length) :
    pick items (List.range' first count) = (items.drop first).take count := by
  induction count generalizing first with
  | zero => rw [List.range'_zero, List.take_zero, pick, List.filterMap_nil]
  | succ count ih =>
      have hfirst : first < items.length := by omega
      rw [List.range'_succ, pick_cons_of_getElem? (List.getElem?_eq_getElem hfirst),
        ih (first + 1) (by omega), List.drop_eq_getElem_cons hfirst, List.take_succ_cons]

/-- Items that are found one by one. -/
theorem pick_eq_of_forall₂ (h : List.Forall₂ (fun i v => items[i]? = some v) positions values) :
    pick items positions = values := by
  induction h with
  | nil => rfl
  | cons hv _ ih => rw [pick_cons_of_getElem? hv, ih]

theorem length_pick (h : ∀ i ∈ positions, i < items.length) :
    (pick items positions).length = positions.length := by
  induction positions with
  | nil => rfl
  | cons i rest ih =>
      obtain ⟨hi, hrest⟩ := List.forall_mem_cons.mp h
      rw [pick_cons_of_getElem? (List.getElem?_eq_getElem hi), List.length_cons, ih hrest,
        List.length_cons]

/-- Lists of one length that agree on given positions. -/
theorem getElem?_eq_of_pick_eq {other : List α} (h : ∀ i ∈ positions, i < items.length)
    (hlength : other.length = items.length) (hpick : pick other positions = pick items positions)
    {j : Nat} (hj : j ∈ positions) : other[j]? = items[j]? := by
  induction positions with
  | nil => cases hj
  | cons i rest ih =>
      obtain ⟨hi, hrest⟩ := List.forall_mem_cons.mp h
      rw [pick_cons_of_getElem? (List.getElem?_eq_getElem hi),
        pick_cons_of_getElem? (List.getElem?_eq_getElem (hlength ▸ hi)), List.cons.injEq] at hpick
      rcases List.mem_cons.mp hj with rfl | hj
      · rw [List.getElem?_eq_getElem hi, List.getElem?_eq_getElem (hlength ▸ hi), hpick.1]
      · exact ih hrest hpick.2 hj

/-- Dropping the places that a test refuses keeps the items at the others, in order. -/
theorem map_filter_zipIdx (items : List α) (keep : Nat → Bool) :
    (items.zipIdx.filter fun p => keep p.2).map Prod.fst =
      pick items ((List.range items.length).filter keep) := by
  induction items using List.reverseRecOn with
  | nil => rfl
  | append_singleton items x ih =>
      -- An item more at the end leaves the items before it where they are.
      have hbefore : pick (items ++ [x]) ((List.range items.length).filter keep) =
          pick items ((List.range items.length).filter keep) := by
        refine List.filterMap_congr fun i hi => ?_
        have hi : i < items.length := by simpa using (List.mem_filter.mp hi).1
        rw [List.getElem?_append_left hi]
      rw [List.zipIdx_append, List.filter_append, List.map_append, ih, List.length_append,
        List.length_singleton, List.range_succ, List.filter_append, ← hbefore]
      rw [pick, pick, List.filterMap_append]
      cases hkeep : keep items.length <;> simp [hkeep]

/-! ## Writing -/

/-- Positions that are not written keep their items. -/
theorem getElem?_foldl_set_of_notMem (pairs : List (Int × α)) (table : Array α) {j : Nat}
    (hj : ∀ p ∈ pairs, p.1.toNat ≠ j) :
    (pairs.foldl (fun (xs : Array α) (i, v) => xs.setIfInBounds i.toNat v) table)[j]? =
      table[j]? := by
  induction pairs generalizing table with
  | nil => rfl
  | cons p pairs ih =>
      obtain ⟨hp, hrest⟩ := List.forall_mem_cons.mp hj
      rw [List.foldl_cons, ih _ hrest, Array.getElem?_setIfInBounds_ne hp]

/-- Writing at positions does not change the size. -/
theorem size_foldl_set (pairs : List (Int × α)) (table : Array α) :
    (pairs.foldl (fun (xs : Array α) (i, v) => xs.setIfInBounds i.toNat v) table).size =
      table.size := by
  induction pairs generalizing table with
  | nil => rfl
  | cons p pairs ih => rw [List.foldl_cons, ih, Array.size_setIfInBounds]

/-- Positions that are written once have the written items. -/
theorem getElem?_foldl_set_of_mem (pairs : List (Int × α)) (table : Array α)
    (hnodup : (pairs.map fun p => p.1.toNat).Nodup) {i : Int} {v : α} (hmem : (i, v) ∈ pairs)
    (hi : i.toNat < table.size) :
    (pairs.foldl (fun (xs : Array α) (i, v) => xs.setIfInBounds i.toNat v) table)[i.toNat]? =
      some v := by
  induction pairs generalizing table with
  | nil => cases hmem
  | cons p pairs ih =>
      obtain ⟨hfirst, hrest⟩ := List.nodup_cons.mp hnodup
      rw [List.foldl_cons]
      rcases List.mem_cons.mp hmem with rfl | hmem
      · rw [getElem?_foldl_set_of_notMem pairs _ fun q hq hsame => hfirst ?_]
        · simp [hi]
        · exact List.mem_map.mpr ⟨q, hq, hsame⟩
      · exact ih _ hrest hmem (by simpa using hi)

end

namespace Slice

variable {start stop step : Value}

/-- A slice that selects: bounds and step are as they have to be, and the step is not zero. -/
structure Proper (start stop step : Value) : Prop where
  isBound_start : start.IsBound
  isBound_stop : stop.IsBound
  isBound_step : step.IsBound
  nonzero : exactStep step ≠ 0

/-! ## The selected positions of a list -/

/-- The positions that a slice selects in a list of a given length. -/
def chosen (start stop step : Value) (length : Nat) : List Nat :=
  (progression (exactStep step) (exactLast stop (exactStep step) length)
    (exactFirst start (exactStep step) length)).map Int.toNat

section

variable {length : Nat}

/-- A proper slice has the indices that it selects. -/
theorem indices_eq (hproper : Proper start stop step) (hword : length < 2 ^ 63) :
    indices start stop step length = .ok ((chosen start stop step length).map (↑)) := by
  obtain ⟨selected, hindices, hprogression, hbounds, -⟩ :=
    (selects_indices start stop step length (by omega) (by omega) hproper.isBound_start
      hproper.isBound_stop hproper.isBound_step).2 hproper.nonzero
  rw [hindices, chosen, ← hprogression, List.map_map]
  refine congrArg Except.ok ((List.map_id selected).symm.trans (List.map_congr_left fun i hi => ?_))
  have := (hbounds i hi).1
  simp only [id_eq, Function.comp_apply]
  omega

/-- Selected positions are positions of the list. -/
theorem chosen_lt {i : Nat} (hi : i ∈ chosen start stop step length) : i < length := by
  obtain ⟨k, hk, rfl⟩ := List.mem_map.mp hi
  have := progression_mem_bounds (by omega) hk
  omega

/-- No position is selected twice. -/
theorem nodup_chosen (hproper : Proper start stop step) :
    (chosen start stop step length).Nodup := by
  refine (nodup_progression hproper.nonzero).map_on fun i hi j hj hij => ?_
  have := progression_mem_bounds (by omega) hi
  have := progression_mem_bounds (by omega) hj
  omega

/-- With a step of one the positions are consecutive. -/
theorem chosen_eq_range' (start stop : Value) (length : Nat) (hone : exactStep step = 1) :
    chosen start stop step length = List.range' (exactFirst start 1 length).toNat
      (exactLast stop 1 length - exactFirst start 1 length).toNat := by
  have hcount : stepCount 1 (exactLast stop 1 length) (exactFirst start 1 length) =
      (exactLast stop 1 length - exactFirst start 1 length).toNat := by
    simp [stepCount, distance]
  have hbounds := (exactBounds_mem start stop 1 (by omega : 0 ≤ (length : Int))).1 one_pos
  rw [chosen, hone, progression_eq_map one_ne_zero, hcount, List.map_map, List.range'_eq_map_range]
  refine List.map_congr_left fun k _ => ?_
  simp only [Function.comp_apply]
  omega

end

/-! ## The operations on the items of a list -/

variable {items values : List Value}

/-- Selecting picks the items at the selected positions. -/
theorem select_eq {α : Type} {items : List α} (hproper : Proper start stop step)
    (hword : items.length < 2 ^ 63) :
    select items start stop step = .ok (pick items (chosen start stop step items.length)) := by
  rw [select, indices_eq hproper hword]
  simp only [bind, Except.bind, pure, Except.pure, List.filterMap_map]
  refine congrArg Except.ok (List.filterMap_congr fun i _ => ?_)
  simp

/-- Deleting leaves those at the others. -/
theorem delete_eq (hproper : Proper start stop step) (hword : items.length < 2 ^ 63) :
    delete items start stop step = .ok (pick items
      ((List.range items.length).filter (· ∉ chosen start stop step items.length))) := by
  rw [delete, indices_eq hproper hword, ← map_filter_zipIdx]
  simp [bind, Except.bind, pure, Except.pure]

/-- The step decides which of two ways a replacement goes. -/
theorem assign_eq (hstep : step.IsBound) :
    assign items start stop step values =
      if exactStep step = 1 then do
        let first ← clamp start 0 items.length
        let last ← clamp stop items.length items.length
        return items.take first ++ values ++ items.drop (max first last)
      else do
        let positions ← indices start stop step items.length
        if values.length ≠ positions.length then
          throw (.raise .value (s!"attempt to assign sequence of size {values.length} " ++
            s!"to extended slice of size {positions.length}"))
        return ((positions.zip values).foldl (fun (xs : Array Value) (i, v) =>
          xs.setIfInBounds i.toNat v) items.toArray).toList := by
  have hword (n : Int64) : n.toInt = 1 ↔ n = 1 := by simp [← Int64.toInt_inj]
  unfold assign exactStep
  -- a step left out is one
  rcases hstep.elim with ⟨hnone, hint⟩ | ⟨n, hsome, hint, hindex⟩
  · simp only [hnone, hint, if_true]
    rfl
  · simp only [hsome, hint, hindex, hword]
    rfl

/-- A clamped bound is the exact one. -/
theorem clamp_eq {bound : Value} (hbound : bound.IsBound) (missing : Nat) {length : Nat}
    (hword : length < 2 ^ 63) :
    clamp bound missing length = .ok (exactBound bound missing 0 length length).toNat := by
  have hlength : (Int64.ofNat length).toInt = length := Int64.toInt_ofNat_of_lt hword
  rcases hbound.elim with ⟨hnone, hint⟩ | ⟨v, hsome, hint, hindex⟩
  · simp [clamp, exactBound, hnone, hint, pure, Except.pure]
  · have hresolved : (if v < 0 then max 0 (v + Int64.ofNat length) else v).toInt =
        if v.toInt < 0 then max 0 (v.toInt + length) else v.toInt := by
      rw [apply_ite Int64.toInt, toInt_max, Int64.toInt_zero]
      refine if_ctx_congr Word.toInt_neg_iff.symm (fun hneg => ?_) fun _ => rfl
      rw [toInt_add_length (by omega) hneg, hlength]
    simp only [clamp, exactBound, hsome, hint, hindex, bind, Except.bind, pure, Except.pure]
    change Except.ok (min (if v < 0 then max 0 (v + Int64.ofNat length) else v)
      (Int64.ofNat length)).toInt.toNat = _
    rw [toInt_min, hresolved, hlength]
    congr 2
    split <;> omega

/-- A contiguous replacement takes the place of the selected run. Without one it is inserted where
the selection would start. -/
theorem assign_contiguous (values : List Value) (hproper : Proper start stop step)
    (hone : exactStep step = 1) (hword : items.length < 2 ^ 63) :
    ∃ first, first = (exactFirst start 1 items.length).toNat ∧
      chosen start stop step items.length =
        List.range' first (chosen start stop step items.length).length ∧
      first + (chosen start stop step items.length).length ≤ items.length ∧
      assign items start stop step values = .ok (items.take first ++ values ++
        items.drop (first + (chosen start stop step items.length).length)) := by
  have hbounds := (exactBounds_mem start stop 1 (by omega : 0 ≤ (items.length : Int))).1 one_pos
  have hrun := chosen_eq_range' start stop items.length hone
  have hcount := congrArg List.length hrun
  rw [List.length_range'] at hcount
  refine ⟨_, rfl, by rw [hcount, ← hrun], by omega, ?_⟩
  rw [assign_eq hproper.isBound_step, if_pos hone, clamp_eq hproper.isBound_start 0 hword,
    clamp_eq hproper.isBound_stop _ hword, hcount]
  -- Both ways of resolving the bounds give the same ones when the step is positive.
  have hfirst : exactFirst start 1 items.length =
      exactBound start (0 : Nat) 0 items.length items.length := if_pos one_pos
  have hlast : exactLast stop 1 items.length =
      exactBound stop items.length 0 items.length items.length := if_pos one_pos
  have hend : max (exactFirst start 1 items.length).toNat (exactLast stop 1 items.length).toNat =
      (exactFirst start 1 items.length).toNat +
        (exactLast stop 1 items.length - exactFirst start 1 items.length).toNat := by
    omega
  rw [← hfirst, ← hlast, ← hend]
  rfl

/-- Any other replacement needs as many values as there are selected positions. -/
theorem assign_of_length_ne (hproper : Proper start stop step) (hone : exactStep step ≠ 1)
    (hword : items.length < 2 ^ 63)
    (hlength : values.length ≠ (chosen start stop step items.length).length) :
    ∃ message, assign items start stop step values = .error (.raise .value message) := by
  rw [assign_eq hproper.isBound_step, if_neg hone, indices_eq hproper hword]
  simp only [bind, Except.bind, List.length_map, hlength, ne_eq, not_false_eq_true, if_true]
  exact ⟨_, rfl⟩

/-- With as many values it writes each value to its position, and nothing else. -/
theorem assign_of_length_eq (hproper : Proper start stop step) (hone : exactStep step ≠ 1)
    (hword : items.length < 2 ^ 63)
    (hlength : values.length = (chosen start stop step items.length).length) :
    ∃ new, assign items start stop step values = .ok new ∧ new.length = items.length ∧
      pick new (chosen start stop step items.length) = values ∧
      ∀ j ∉ chosen start stop step items.length, new[j]? = items[j]? := by
  rw [assign_eq hproper.isBound_step, if_neg hone, indices_eq hproper hword]
  simp only [bind, Except.bind, List.length_map, hlength, ne_eq, not_true_eq_false, if_false]
  -- the pairs that are written are those of the chosen positions, each once
  have hpositions : (((chosen start stop step items.length).map ((↑) : Nat → Int)).zip
      values).map (fun p => p.1.toNat) = chosen start stop step items.length := by
    have hsplit : (fun p : Int × Value => p.1.toNat) = Int.toNat ∘ Prod.fst := rfl
    rw [hsplit, ← List.map_map, List.map_fst_zip (by simp [hlength]), List.map_map]
    exact List.map_id _
  refine ⟨_, rfl, ?_, ?_, ?_⟩
  · rw [Array.length_toList, size_foldl_set, List.size_toArray]
  · refine pick_eq_of_forall₂ (List.forall₂_iff_zip.mpr ⟨hlength.symm, fun {i v} hpair => ?_⟩)
    have hmem : ((i : Int), v) ∈ ((chosen start stop step items.length).map (↑)).zip values := by
      rw [List.zip_map_left]
      exact List.mem_map.mpr ⟨(i, v), hpair, rfl⟩
    rw [Array.getElem?_toList]
    exact getElem?_foldl_set_of_mem _ _ (by rw [hpositions]; exact nodup_chosen hproper) hmem
      (chosen_lt (List.of_mem_zip hpair).1)
  · intro j hj
    rw [Array.getElem?_toList, getElem?_foldl_set_of_notMem _ _ fun p hp hsame => hj ?_]
    · simp
    · rw [← hpositions]
      exact List.mem_map.mpr ⟨p, hp, hsame⟩

/-- Replacing what is selected by itself changes nothing. -/
theorem assign_pick (hproper : Proper start stop step) (hword : items.length < 2 ^ 63) :
    assign items start stop step (pick items (chosen start stop step items.length)) =
      .ok items := by
  have hcount : (pick items (chosen start stop step items.length)).length =
      (chosen start stop step items.length).length := length_pick fun i hi => chosen_lt hi
  by_cases hone : exactStep step = 1
  · obtain ⟨first, -, hrun, hend, hassign⟩ := assign_contiguous _ hproper hone hword
    rw [hassign]
    generalize (chosen start stop step items.length).length = count at hrun hend
    rw [hrun, pick_range' first count hend, List.append_assoc, ← List.drop_drop,
      List.take_append_drop, List.take_append_drop]
  · obtain ⟨new, hassign, hsize, hread, hrest⟩ := assign_of_length_eq hproper hone hword hcount
    rw [hassign]
    refine congrArg Except.ok (List.ext_getElem? fun j => ?_)
    by_cases hj : j ∈ chosen start stop step items.length
    · exact getElem?_eq_of_pick_eq (fun i hi => chosen_lt hi) hsize hread hj
    · exact hrest j hj

end Slice

/-! ## The operations on a list -/

variable {start stop step : Value} {id ref : Nat} {items : List Value}

theorem items_of_getElem? {s : Store} (h : s.lists[ref]? = some items) : s.items ref = items := by
  rw [Store.items, Array.getD_eq_getD_getElem?, h, Option.getD_some]

theorem getElem?_setItems {lists : Array (List Value)} (h : lists[ref]? = some items)
    (new : List Value) : (lists.setIfInBounds ref new)[ref]? = some new := by
  obtain ⟨hi, -⟩ := Array.getElem?_eq_some_iff.mp h
  rw [Array.getElem?_setIfInBounds_self, if_pos hi]

/-- Reading a slice of a list makes a new list. -/
theorem getItem_slice {s : Store} (h : s.lists[ref]? = some items) {selected : List Value}
    (hselect : Slice.select items start stop step = .ok selected) :
    Op.getItem (.list ref) (.slice start stop step id) s =
      .ok (.list s.lists.size) { s with lists := s.lists.push selected } := by
  have hitems : Op.items ref s = .ok items s := by
    rw [← items_of_getElem? h]
    rfl
  rw [Op.getItem, bind_of_ok hitems, hselect]
  rfl

/-- Deleting a slice of a list. -/
theorem delItem_slice {s : Store} (h : s.lists[ref]? = some items) {rest : List Value}
    (hdelete : Slice.delete items start stop step = .ok rest) :
    ∃ s', Op.delItem (.list ref) (.slice start stop step id) s = .ok () s' ∧
      s'.lists[ref]? = some rest := by
  have hitems : Op.items ref s = .ok items s := by
    rw [← items_of_getElem? h]
    rfl
  rw [Op.delItem, bind_of_ok hitems, hdelete]
  exact ⟨_, rfl, getElem?_setItems h rest⟩

section

variable {call : Callback} {fuel : Nat} {value : Value} {values : List Value} {w w' : World}
  (hcollect : Exec.collect call fuel value w = .ok values w')
  (h : w'.store.lists[ref]? = some items)
include hcollect h

/-- Assigning to a slice collects the values and writes them, into new cells if the step is one. -/
theorem setItem_slice :
    Exec.setItem call fuel (.list ref) (.slice start stop step id) value w = (do
      let new ← Exec.ofExcept (Slice.assign items start stop step values)
      if Slice.isContiguous step then Op.moveItems ref new else Op.setItems ref new :
        Exec Unit) w' := by
  have hitems : (liftM (Op.items ref) : Exec (List Value)) w' = .ok items w' := by
    rw [← items_of_getElem? h]
    rfl
  rw [Exec.setItem, bind_of_ok hcollect, bind_of_ok hitems]

/-- An assignment that succeeds. -/
theorem setItem_slice_ok {new : List Value}
    (hassign : Slice.assign items start stop step values = .ok new) :
    ∃ w'', Exec.setItem call fuel (.list ref) (.slice start stop step id) value w = .ok () w'' ∧
      w''.store.lists[ref]? = some new := by
  rw [setItem_slice hcollect h, hassign]
  -- in both cases the list gets the items, and it does not matter here whether it moves
  cases Slice.isContiguous step <;> exact ⟨_, rfl, getElem?_setItems h new⟩

/-- An assignment that fails. -/
theorem setItem_slice_error {e : Failure}
    (hassign : Slice.assign items start stop step values = .error e) :
    Exec.setItem call fuel (.list ref) (.slice start stop step id) value w = .error e w' := by
  rw [setItem_slice hcollect h, hassign]
  rfl

end

/-- Reading a slice of a list gives a new list of the given items, and leaves the list alone. -/
def ReadsSlice (s : Store) (ref : Nat) (slice : Value) (selected : List Value) : Prop :=
  ∃ new s', Op.getItem (.list ref) slice s = .ok (.list new) s' ∧
    s'.lists[new]? = some selected ∧ s'.lists[ref]? = s.lists[ref]?

/-- What the operations through one slice do to a list of given items, in terms of the positions
that the slice selects. -/
structure SliceOperations (call : Callback) (fuel : Nat) (w : World) (ref : Nat)
    (items : List Value) (start stop step : Value) (slice : Value) (positions : List Nat) :
    Prop where
  reads : ReadsSlice w.store ref slice (pick items positions)
  /-- Deleting keeps the items at all other positions, in order. -/
  deletes : ∃ s', Op.delItem (.list ref) slice w.store = .ok () s' ∧
    s'.lists[ref]? = some (pick items ((List.range items.length).filter (· ∉ positions)))
  /-- Assigning what was read changes nothing. -/
  restores : ∀ new s', Op.getItem (.list ref) slice w.store = .ok new s' →
    ∃ w', Exec.setItem call fuel (.list ref) slice new { w with store := s' } = .ok () w' ∧
      w'.store.lists[ref]? = some items
  /-- With a step other than one, the values are written to the selected positions if there are as
  many, and nothing is written otherwise. -/
  apart : ∀ value values before w', Exec.collect call fuel value before = .ok values w' →
    w'.store.lists[ref]? = some items → Slice.exactStep step ≠ 1 →
      (values.length = positions.length →
        ∃ w'' new, Exec.setItem call fuel (.list ref) slice value before = .ok () w'' ∧
          ReadsSlice w''.store ref slice values ∧
          w''.store.lists[ref]? = some new ∧ new.length = items.length ∧
          ∀ j ∉ positions, new[j]? = items[j]?) ∧
      (values.length ≠ positions.length →
        ∃ message, Exec.setItem call fuel (.list ref) slice value before =
          .error (.raise .value message) w')
  /-- With a step of one, the values replace the selected run, or are inserted at the clamped
  start. -/
  contiguous : ∀ value values before w', Exec.collect call fuel value before = .ok values w' →
    w'.store.lists[ref]? = some items → Slice.exactStep step = 1 →
      ∃ first w'' new, first = (Slice.exactFirst start 1 items.length).toNat ∧
        positions = List.range' first positions.length ∧
        Exec.setItem call fuel (.list ref) slice value before = .ok () w'' ∧
        w''.store.lists[ref]? = some new ∧
        new = items.take first ++ values ++ items.drop (first + positions.length) ∧
        new.length + positions.length = items.length + values.length

/-- What reading a slice of a list gives. -/
theorem readsSlice_of_getElem? (id : Nat) (hproper : Slice.Proper start stop step)
    (hword : items.length < 2 ^ 63) {s : Store} (h : s.lists[ref]? = some items) :
    ReadsSlice s ref (.slice start stop step id)
      (pick items (Slice.chosen start stop step items.length)) := by
  obtain ⟨hi, hhere⟩ := Array.getElem?_eq_some_iff.mp h
  exact ⟨_, _, getItem_slice h (Slice.select_eq hproper hword), Array.getElem?_push_size,
    (Array.getElem?_push_lt hi).trans (hhere ▸ h.symm)⟩

/-- Reads, writes and deletes through one slice of a list concern the same positions. -/
theorem operations_agree (call : Callback) (fuel : Nat) (w : World) (ref id : Nat)
    (start stop step : Value) (items : List Value) (hproper : Slice.Proper start stop step)
    (hitems : w.store.lists[ref]? = some items) (hword : items.length < 2 ^ 63) :
    ∃ positions : List Nat,
      Slice.indices start stop step items.length = .ok (positions.map (↑)) ∧
      SliceOperations call fuel w ref items start stop step (.slice start stop step id)
        positions := by
  refine ⟨Slice.chosen start stop step items.length, Slice.indices_eq hproper hword, ?_⟩
  constructor
  case reads => exact readsSlice_of_getElem? id hproper hword hitems
  case deletes =>
    exact delItem_slice hitems (Slice.delete_eq hproper hword)
  case restores =>
    intro value s' hread
    obtain ⟨new, _, hread', hnew, hkept⟩ :=
      readsSlice_of_getElem? id hproper hword hitems
    obtain ⟨rfl, rfl⟩ := EStateM.Result.ok.inj (hread.symm.trans hread')
    have hitems' := hkept.trans hitems
    -- What was read stands in a list of its own, so its items are collected from there.
    have hcollect : Exec.collect call fuel (.list new) { w with store := s' } =
        .ok (pick items (Slice.chosen start stop step items.length)) { w with store := s' } :=
      congrArg (EStateM.Result.ok · _) (items_of_getElem? hnew)
    exact setItem_slice_ok hcollect hitems' (Slice.assign_pick hproper hword)
  case apart =>
    intro value values before w' hcollect hitems' hone
    constructor <;> intro hlength
    · obtain ⟨new, hassign, hsize, hread, hrest⟩ :=
        Slice.assign_of_length_eq hproper hone hword hlength
      obtain ⟨w'', hset, hnew⟩ := setItem_slice_ok hcollect hitems' hassign
      have hreads := readsSlice_of_getElem? id hproper (hsize ▸ hword) hnew
      rw [hsize, hread] at hreads
      exact ⟨w'', new, hset, hreads, hnew, hsize, hrest⟩
    · obtain ⟨message, hassign⟩ := Slice.assign_of_length_ne hproper hone hword hlength
      exact ⟨message, setItem_slice_error hcollect hitems' hassign⟩
  case contiguous =>
    intro value values before w' hcollect hitems' hone
    obtain ⟨first, hfirst, hrun, hend, hassign⟩ :=
      Slice.assign_contiguous values hproper hone hword
    obtain ⟨w'', hset, hnew⟩ := setItem_slice_ok hcollect hitems' hassign
    refine ⟨first, w'', _, hfirst, hrun, hset, hnew, rfl, ?_⟩
    simp only [List.length_append, List.length_take, List.length_drop]
    omega

/-- Backwards through a list of three items. -/
theorem operations_agree_reversed :
    Slice.Proper .none .none (.int (-1)) ∧
      ∃ positions : List Nat, Slice.indices .none .none (.int (-1)) 3 = .ok (positions.map (↑)) ∧
        SliceOperations (fun _ _ => throw .exhausted) 0
          { store := { lists := #[[.int 4, .int 5, .int 6]] } } 0 [.int 4, .int 5, .int 6]
          .none .none (.int (-1)) (.slice .none .none (.int (-1)) 7) positions := by
  have hproper : Slice.Proper .none .none (.int (-1)) :=
    ⟨.inl rfl, .inl rfl, .inr ⟨-1, rfl⟩, by decide⟩
  exact ⟨hproper, operations_agree _ 0 { store := { lists := #[[.int 4, .int 5, .int 6]] } } 0 7
    .none .none (.int (-1)) [.int 4, .int 5, .int 6] hproper rfl (by decide)⟩

end Wordcode
