import Wordcode.Proofs.Sequence
import Wordcode.Sort
import Mathlib

namespace Wordcode.Sort

/-! # The stable sort

A comparison that answers by ranks, and that changes nothing, makes the sort put items in the order
of their ranks. Items of one rank stay in the order in which they stood. This is so in a block that
is sorted by insertion, and a merge keeps it: it cuts both runs so that whatever crosses the cut is
in order.

* `IsStable` says that one list is another one sorted. `IsStable.append` puts two sorted parts
  together, and `IsStable.eq` says that there is only one way to sort.
* `insertion_spec`, `search_spec` and `merge_spec` are the parts of the sort.
* `stable_eq_mergeSort` is the result.
* `exists_order` says which positions the items come from, and `FirstLeast.head?_eq` which one
  comes first.
-/

variable {ε σ α β : Type} [LinearOrder β] {f : α → β} {s : σ}
  {less : α → α → EStateM ε σ Bool} {xs ys zs run : List α} {a : α}

/-! ## Sorted lists -/

/-- The ranks of a list do not descend. -/
def Ascends (f : α → β) (xs : List α) : Prop := xs.Pairwise fun a b => f a ≤ f b

/-- The items of one rank. -/
def level (f : α → β) (b : β) (xs : List α) : List α := xs.filter fun a => decide (f a = b)

/-- The second list has the items of the first one in the order of their ranks, those of one rank in
the order in which they stand in the first one. -/
structure IsStable (f : α → β) (xs ys : List α) : Prop where
  ascends : Ascends f ys
  level_eq : ∀ b, level f b ys = level f b xs

@[simp]
theorem level_append (b : β) : level f b (xs ++ ys) = level f b xs ++ level f b ys :=
  List.filter_append _ _

/-- An item is in the level of its own rank. -/
theorem mem_level : a ∈ level f (f a) xs ↔ a ∈ xs := by
  simp [level]

/-- A level is empty if no item has its rank. -/
theorem level_eq_nil_iff {b : β} : level f b xs = [] ↔ ∀ a ∈ xs, f a ≠ b := by
  simp [level, List.filter_eq_nil_iff]

/-- Lists that agree at each rank have the same items. -/
theorem mem_iff_of_level_eq (h : ∀ b, level f b ys = level f b xs) : a ∈ ys ↔ a ∈ xs := by
  rw [← mem_level (f := f), h, mem_level]

/-- What ascends is sorted already. -/
theorem Ascends.isStable (h : Ascends f xs) : IsStable f xs xs := ⟨h, fun _ => rfl⟩

theorem ascends_nil : Ascends f [] := List.Pairwise.nil

theorem ascends_singleton (x : α) : Ascends f [x] := List.pairwise_singleton _ x

namespace IsStable

theorem mem_iff (h : IsStable f xs ys) : a ∈ ys ↔ a ∈ xs := mem_iff_of_level_eq h.level_eq

/-- What is sorted from a list is also sorted from one with the same levels. -/
theorem of_level_eq (h : IsStable f xs zs) (hlevel : ∀ b, level f b xs = level f b ys) :
    IsStable f ys zs :=
  ⟨h.ascends, fun b => (h.level_eq b).trans (hlevel b)⟩

/-- Two lists are cut in two. If the lower parts are sorted together and the upper parts are, the
results are a sorted whole: what stood in the second list and is put in front of something from the
first one has a lower rank. -/
theorem append {x₁ x₂ y₁ y₂ lower upper : List α} (hlower : IsStable f (x₁ ++ y₁) lower)
    (hupper : IsStable f (x₂ ++ y₂) upper) (hx : ∀ a ∈ x₁, ∀ b ∈ x₂, f a ≤ f b)
    (hy : ∀ a ∈ y₁, ∀ b ∈ y₂, f a ≤ f b) (hxy : ∀ a ∈ x₁, ∀ b ∈ y₂, f a ≤ f b)
    (hyx : ∀ a ∈ y₁, ∀ b ∈ x₂, f a < f b) :
    IsStable f (x₁ ++ x₂ ++ (y₁ ++ y₂)) (lower ++ upper) where
  ascends := by
    refine List.pairwise_append.mpr ⟨hlower.ascends, hupper.ascends, fun a ha b hb => ?_⟩
    rcases List.mem_append.mp (hlower.mem_iff.mp ha) with ha | ha <;>
      rcases List.mem_append.mp (hupper.mem_iff.mp hb) with hb | hb
    · exact hx a ha b hb
    · exact hxy a ha b hb
    · exact (hyx a ha b hb).le
    · exact hy a ha b hb
  level_eq := by
    intro b
    simp only [level_append, hlower.level_eq, hupper.level_eq, List.append_assoc]
    -- the two parts that change places do not both have items of this rank
    by_cases hempty : level f b y₁ = []
    · simp [hempty]
    · have hempty' : level f b x₂ = [] := by
        rw [level_eq_nil_iff] at hempty ⊢
        push Not at hempty
        obtain ⟨a, ha, rfl⟩ := hempty
        exact fun c hc => (hyx a ha c hc).ne'
      simp [hempty']

/-- There is only one way to sort. -/
theorem eq (h : IsStable f xs ys) (h' : IsStable f xs zs) : ys = zs := by
  have hlevel (b : β) : level f b ys = level f b zs := (h.level_eq b).trans (h'.level_eq b).symm
  have hy := h.ascends
  have hz := h'.ascends
  clear h h'
  induction ys generalizing zs with
  | nil =>
      cases zs with
      | nil => rfl
      | cons z zs => cases (mem_iff_of_level_eq hlevel).mpr List.mem_cons_self
  | cons y ys ih =>
      cases zs with
      | nil => cases (mem_iff_of_level_eq hlevel).mp List.mem_cons_self
      | cons z zs =>
          obtain ⟨hfirst, hys⟩ := List.pairwise_cons.mp hy
          obtain ⟨hfirst', hzs⟩ := List.pairwise_cons.mp hz
          -- both begin with an element of the least rank, and this level is the same in both
          have hrank : f y = f z := by
            have hle : f z ≤ f y := by
              rcases List.mem_cons.mp ((mem_iff_of_level_eq hlevel).mp List.mem_cons_self)
                with rfl | hmem
              · exact le_rfl
              · exact hfirst' y hmem
            have hge : f y ≤ f z := by
              rcases List.mem_cons.mp ((mem_iff_of_level_eq hlevel).mpr List.mem_cons_self)
                with rfl | hmem
              · exact le_rfl
              · exact hfirst z hmem
            exact le_antisymm hge hle
          have hhead := hlevel (f y)
          simp only [level, List.filter_cons, hrank, decide_true, if_true, List.cons.injEq] at hhead
          obtain ⟨rfl, -⟩ := hhead
          refine congrArg (y :: ·) (ih (fun b => ?_) hys hzs)
          have htail := hlevel b
          simp only [level, List.filter_cons] at htail
          split at htail
          · exact (List.cons.inj htail).2
          · exact htail

end IsStable

/-- The library's sort is stable. -/
theorem isStable_mergeSort (f : α → β) (xs : List α) :
    IsStable f xs (xs.mergeSort fun a b => decide (f a ≤ f b)) := by
  have htrans (a b c : α) : decide (f a ≤ f b) = true → decide (f b ≤ f c) = true →
      decide (f a ≤ f c) = true := by
    simpa using le_trans
  have htotal (a b : α) : (decide (f a ≤ f b) || decide (f b ≤ f a)) = true := by
    simpa using le_total (f a) (f b)
  refine ⟨by simpa [Ascends] using List.pairwise_mergeSort htrans htotal xs, fun b => ?_⟩
  -- the items of one rank are a sorted part of the list, so they stay in order
  have hpart : (level f b xs).Sublist (xs.mergeSort fun a b => decide (f a ≤ f b)) := by
    refine List.sublist_mergeSort htrans htotal ?_ List.filter_sublist
    refine List.pairwise_of_forall_mem_list fun a ha c hc => ?_
    simp only [level, List.mem_filter, decide_eq_true_eq] at ha hc
    simp [ha.2, hc.2]
  have hlevel := hpart.filter fun a => decide (f a = b)
  simp only [level, List.filter_filter, Bool.and_self] at hlevel
  refine (hlevel.eq_of_length ?_).symm
  exact ((List.mergeSort_perm xs _).filter _).length_eq.symm

/-! ## Comparing -/

/-- Comparing members of a list says which rank is lower, and changes nothing. -/
def Ranks (less : α → α → EStateM ε σ Bool) (s : σ) (f : α → β) (xs : List α) : Prop :=
  ∀ x ∈ xs, ∀ y ∈ xs, less x y s = .ok (decide (f x < f y)) s

/-- A comparison that answers by rank in a list does so in a part of it. -/
theorem Ranks.mono (h : Ranks less s f xs) (hsub : ys ⊆ xs) : Ranks less s f ys :=
  fun x hx y hy => h x (hsub hx) y (hsub hy)

/-! ## Insertion -/

/-- An item goes in front of those at the end of the run that have higher ranks, and behind those of
its own rank. -/
theorem insert_spec {x : α} (hrun : Ascends f run.reverse) (h : Ranks less s f (x :: run)) :
    ∃ new, insert less x run s = .ok new s ∧ IsStable f (run.reverse ++ [x]) new.reverse := by
  induction run with
  | nil => exact ⟨[x], rfl, (ascends_singleton x).isStable⟩
  | cons y run ih =>
      rw [List.reverse_cons] at hrun ⊢
      obtain ⟨hinit, -, hlast⟩ := List.pairwise_append.mp hrun
      have hless := h x List.mem_cons_self y (by simp)
      rw [insert, bind_of_ok hless]
      -- the run is read from its end: an item moves past those with higher ranks
      by_cases hlt : f x < f y
      · obtain ⟨new, hnew, hstable⟩ := ih hinit (h.mono (by simp))
        rw [if_pos (decide_eq_true hlt), bind_of_ok hnew]
        refine ⟨y :: new, rfl, ?_⟩
        rw [List.reverse_cons]
        have hy : IsStable f ([y] ++ []) [y] := (ascends_singleton y).isStable
        exact hstable.append hy hlast (by simp) (by simp) (by simpa using hlt)
      · -- all ranks of the run are at most that of the last one
        rw [if_neg (by simpa using hlt)]
        refine ⟨x :: y :: run, rfl, ?_⟩
        rw [List.reverse_cons, List.reverse_cons]
        refine Ascends.isStable (List.pairwise_append.mpr
          ⟨hrun, ascends_singleton x, fun a ha b hb => ?_⟩)
        rw [List.mem_singleton.mp hb]
        rcases List.mem_append.mp ha with ha | ha
        · exact (hlast a ha y List.mem_cons_self).trans (not_lt.mp hlt)
        · rw [List.mem_singleton.mp ha]
          exact not_lt.mp hlt

/-- Items are inserted one after the other. -/
theorem insertion_spec (h : Ranks less s f xs) :
    ∃ ys, insertion less xs s = .ok ys s ∧ IsStable f xs ys := by
  -- what has been read so far is sorted in the run
  have hfold (seen xs run : List α) (hrun : IsStable f seen run.reverse)
      (h : Ranks less s f (seen ++ xs)) :
      ∃ new, xs.foldlM (fun run x => insert less x run) run s = .ok new s ∧
        IsStable f (seen ++ xs) new.reverse := by
    induction xs generalizing seen run with
    | nil => exact ⟨run, rfl, by simpa using hrun⟩
    | cons x xs ih =>
        obtain ⟨new, hnew, hstable⟩ := insert_spec (x := x) hrun.ascends (h.mono fun a ha => by
          rcases List.mem_cons.mp ha with rfl | ha
          · simp
          · exact List.mem_append_left _ (hrun.mem_iff.mp (List.mem_reverse.mpr ha)))
        have hseen : IsStable f (seen ++ [x]) new.reverse :=
          hstable.of_level_eq fun b => by simp [hrun.level_eq]
        rw [List.foldlM_cons, bind_of_ok hnew]
        simpa using ih (seen ++ [x]) new hseen (by simpa using h)
  obtain ⟨new, hnew, hstable⟩ := hfold [] xs [] ascends_nil.isStable h
  exact ⟨new.reverse, bind_of_ok hnew, hstable⟩

/-! ## Merging -/

/-- Halving finds the place where a test changes. -/
theorem search_spec (test : Nat → EStateM ε σ Bool) (p : Nat → Bool) (fuel low high : Nat)
    (hfuel : high ≤ low + fuel) (hlow : low ≤ high)
    (htest : ∀ i, low ≤ i → i < high → test i s = .ok (p i) s)
    (hp : ∀ i j, low ≤ i → i ≤ j → j < high → p j = true → p i = true) :
    ∃ r, search test fuel low high s = .ok r s ∧ low ≤ r ∧ r ≤ high ∧
      (∀ i, low ≤ i → i < r → p i = true) ∧ ∀ i, r ≤ i → i < high → p i = false := by
  induction fuel generalizing low high with
  | zero => exact ⟨low, rfl, by omega, by omega, by omega, by omega⟩
  | succ fuel ih =>
      rw [search]
      by_cases hlt : low < high
      · rw [if_pos hlt]
        have hmiddle : low ≤ (low + high) / 2 ∧ (low + high) / 2 < high := by omega
        generalize (low + high) / 2 = middle at hmiddle ⊢
        -- the answer in the middle settles one half, and the rest of the search the other one
        rw [bind_of_ok (htest middle hmiddle.1 hmiddle.2)]
        cases hanswer : p middle with
        | true =>
            obtain ⟨r, hr, hge, hle, hbefore, hafter⟩ := ih (middle + 1) high (by omega)
              (by omega) (fun i hi => htest i (by omega))
              (fun i j hi => hp i j (by omega))
            refine ⟨r, hr, by omega, hle, fun i hi hi' => ?_, hafter⟩
            by_cases hside : i ≤ middle
            · exact hp i middle hi hside hmiddle.2 hanswer
            · exact hbefore i (by omega) hi'
        | false =>
            obtain ⟨r, hr, hge, hle, hbefore, hafter⟩ := ih low middle (by omega)
              (by omega) (fun i hi hi' => htest i hi (by omega))
              (fun i j hi hj hj' => hp i j hi hj (by omega))
            refine ⟨r, hr, hge, by omega, hbefore, fun i hi hi' => ?_⟩
            by_cases hside : i < middle
            · exact hafter i hi hside
            · refine Bool.eq_false_iff.mpr fun htrue => ?_
              have := hp middle i hmiddle.1 (by omega) hi' htrue
              simp [hanswer] at this
      · rw [if_neg hlt]
        exact ⟨low, rfl, by omega, by omega, by omega, by omega⟩

/-- A cut of two runs: what is before it in the one is in order with what is behind it in the
other. -/
structure Cuts (f : α → β) (xs ys : List α) (i j : Nat) : Prop where
  left_le : ∀ a ∈ xs.take i, ∀ b ∈ ys.drop j, f a ≤ f b
  right_lt : ∀ a ∈ ys.take j, ∀ b ∈ xs.drop i, f a < f b

/-- Nothing behind a cut has a lower rank than something before it. -/
theorem Ascends.take_le_drop (h : Ascends f xs) (i : Nat) :
    ∀ a ∈ xs.take i, ∀ b ∈ xs.drop i, f a ≤ f b := by
  rw [Ascends, ← List.take_append_drop i xs] at h
  exact (List.pairwise_append.mp h).2.2

theorem Ascends.take (h : Ascends f xs) (i : Nat) : Ascends f (xs.take i) :=
  List.Pairwise.sublist (List.take_sublist i xs) h

theorem Ascends.drop (h : Ascends f xs) (i : Nat) : Ascends f (xs.drop i) :=
  List.Pairwise.sublist (List.drop_sublist i xs) h

theorem Ascends.getElem_le (h : Ascends f xs) {i j : Nat} {hi : i < xs.length} (hij : i ≤ j)
    (hj : j < xs.length) :
    f xs[i] ≤ f xs[j] := by
  rcases hij.lt_or_eq with hlt | rfl
  · exact List.pairwise_iff_getElem.mp h i j _ hj hlt
  · exact le_rfl

/-- What is cut can be sorted in two parts. -/
theorem Cuts.append {i j : Nat} {lower upper : List α} (hcut : Cuts f xs ys i j)
    (hxs : Ascends f xs) (hys : Ascends f ys) (hlower : IsStable f (xs.take i ++ ys.take j) lower)
    (hupper : IsStable f (xs.drop i ++ ys.drop j) upper) :
    IsStable f (xs ++ ys) (lower ++ upper) := by
  have happend := hlower.append hupper (hxs.take_le_drop i) (hys.take_le_drop j) hcut.left_le
    hcut.right_lt
  rwa [List.take_append_drop, List.take_append_drop] at happend

/-- A cut follows from the items at it. -/
theorem Cuts.of_getElem {i j : Nat} (hxs : Ascends f xs) (hys : Ascends f ys)
    (hi : i ≤ xs.length) (hj : j ≤ ys.length)
    (hleft : ∀ (_ : 0 < i) (_ : j < ys.length), f xs[i - 1] ≤ f ys[j])
    (hright : ∀ (_ : 0 < j) (_ : i < xs.length), f ys[j - 1] < f xs[i]) :
    Cuts f xs ys i j where
  left_le := by
    intro a ha b hb
    obtain ⟨m, hm, rfl⟩ := List.mem_take_iff_getElem.mp ha
    obtain ⟨n, hn, rfl⟩ := List.mem_drop_iff_getElem.mp hb
    have hlast : i - 1 < xs.length := by omega
    have hnext : j < ys.length := by omega
    -- the items next to the cut decide for all
    calc f xs[m] ≤ f xs[i - 1] := hxs.getElem_le (by omega) hlast
      _ ≤ f ys[j] := hleft (by omega) hnext
      _ ≤ f ys[j + n] := hys.getElem_le (by omega) (by omega)
  right_lt := by
    intro a ha b hb
    obtain ⟨m, hm, rfl⟩ := List.mem_take_iff_getElem.mp ha
    obtain ⟨n, hn, rfl⟩ := List.mem_drop_iff_getElem.mp hb
    have hlast : j - 1 < ys.length := by omega
    have hnext : i < xs.length := by omega
    calc f ys[m] ≤ f ys[j - 1] := hys.getElem_le (by omega) hlast
      _ < f xs[i] := hright (by omega) hnext
      _ ≤ f xs[i + n] := hxs.getElem_le (by omega) (by omega)

/-- A test of the items of a run by their positions. -/
def testAt (test : α → EStateM ε σ Bool) (xs : List α) (i : Nat) : EStateM ε σ Bool :=
  match xs.toArray[i]? with
  | some x => test x
  | none => return false

/-- A test at a position is a test of the item there. -/
theorem testAt_of_lt {test : α → EStateM ε σ Bool} {i : Nat} (hi : i < xs.length) :
    testAt test xs i = test xs[i] := by
  simp [testAt, hi]

/-- A run of one item goes in front of the items of another run that are not lower. -/
theorem merge_single_left {x : α} {fuel : Nat} (hys : Ascends f ys)
    (h : Ranks less s f (x :: ys)) :
    ∃ zs, merge less (fuel + 1) [x] ys s = .ok zs s ∧ IsStable f (x :: ys) zs := by
  cases ys with
  | nil => exact ⟨[x], rfl, (ascends_singleton x).isStable⟩
  | cons y ys =>
      generalize hall : y :: ys = all at hys h
      obtain ⟨i, hsearch, -, hi, hbefore, hafter⟩ := search_spec (s := s)
        (testAt (fun y => less y x) all) (fun i => all[i]?.any fun y => decide (f y < f x))
        (all.length + 1) 0 all.length (by omega) (by omega)
        (fun i _ hi => by
          simp only [testAt_of_lt hi, List.getElem?_eq_getElem hi, Option.any_some]
          exact h _ (by simp) _ List.mem_cons_self)
        (fun i j _ hij hj hlt => by
          simp only [List.getElem?_eq_getElem hj, Option.any_some,
            List.getElem?_eq_getElem (show i < all.length by omega), decide_eq_true_eq] at hlt ⊢
          exact (hys.getElem_le hij hj).trans_lt hlt)
      -- the only item goes in front of the first one that is not lower
      have hcut : Cuts f [x] all 0 i := by
        refine .of_getElem (ascends_singleton x) hys (by simp) hi (fun hpos => by omega)
          fun hpos _ => ?_
        have := hbefore (i - 1) (by omega) (by omega)
        simpa [List.getElem?_eq_getElem (show i - 1 < all.length by omega)] using this
      refine ⟨all.take i ++ x :: all.drop i, ?_, ?_⟩
      · subst hall
        exact bind_of_ok hsearch
      · have hupper : Ascends f (x :: all.drop i) := by
          refine List.pairwise_cons.mpr ⟨fun b hb => ?_, hys.drop i⟩
          obtain ⟨n, hn, rfl⟩ := List.mem_drop_iff_getElem.mp hb
          have := hafter (i + n) (by omega) (by omega)
          simpa [List.getElem?_eq_getElem (show i + n < all.length by omega)] using this
        exact hcut.append (ascends_singleton x) hys (hys.take i).isStable hupper.isStable

/-- A run of one item goes behind the items of another run that are not higher. -/
theorem merge_single_right {y : α} {fuel : Nat} (hlength : 2 ≤ xs.length) (hxs : Ascends f xs)
    (h : Ranks less s f (xs ++ [y])) :
    ∃ zs, merge less (fuel + 1) xs [y] s = .ok zs s ∧ IsStable f (xs ++ [y]) zs := by
  obtain ⟨i, hsearch, -, hi, hbefore, hafter⟩ := search_spec (s := s)
    (testAt (fun x => return !(← less y x)) xs) (fun i => xs[i]?.any fun x => !decide (f y < f x))
    (xs.length + 1) 0 xs.length (by omega) (by omega)
    (fun i _ hi => by
      simp only [testAt_of_lt hi, List.getElem?_eq_getElem hi, Option.any_some]
      exact bind_of_ok (h y (by simp) xs[i] (by simp)))
    (fun i j _ hij hj hle => by
      simp only [List.getElem?_eq_getElem hj, Option.any_some,
        List.getElem?_eq_getElem (show i < xs.length by omega), Bool.not_eq_true',
        decide_eq_false_iff_not, not_lt] at hle ⊢
      exact (hxs.getElem_le hij hj).trans hle)
  -- the only item goes behind the last one that is not higher
  have hcut : Cuts f xs [y] i 1 := by
    refine .of_getElem hxs (ascends_singleton y) hi (by simp) (fun _ hlt => by simp at hlt)
      fun _ hlt => ?_
    have := hafter i le_rfl hlt
    simpa [List.getElem?_eq_getElem hlt] using this
  refine ⟨xs.take i ++ y :: xs.drop i, ?_, ?_⟩
  · rcases xs with _ | ⟨x, _ | ⟨x', rest⟩⟩
    · simp at hlength
    · simp at hlength
    · exact bind_of_ok hsearch
  · have hlower : Ascends f (xs.take i ++ [y]) := by
      refine List.pairwise_append.mpr ⟨hxs.take i, ascends_singleton y, fun a ha b hb => ?_⟩
      rw [List.mem_singleton.mp hb]
      obtain ⟨n, hn, rfl⟩ := List.mem_take_iff_getElem.mp ha
      have := hbefore n (by omega) (by omega)
      simpa [List.getElem?_eq_getElem (show n < xs.length by omega)] using this
    have hupper : IsStable f (xs.drop i ++ [y].drop 1) (xs.drop i) := by
      simpa using (hxs.drop i).isStable
    simpa using hcut.append hxs (ascends_singleton y) hlower.isStable hupper

/-- How two longer runs are merged, with the parts of the two runs named. -/
theorem merge_eq {fuel : Nat} (hxs : 2 ≤ xs.length) (hys : 2 ≤ ys.length) :
    merge less (fuel + 1) xs ys = (do
      let middle := (xs.length + ys.length) / 2
      let start ← search (fun c => return !(← lessAt less (xs ++ ys).toArray
        (middle + xs.length - 1 - c) c)) (xs.length + ys.length + 1) (middle - ys.length)
        (min middle xs.length)
      let stop := middle + xs.length - start
      let lower ← merge less fuel ((xs ++ ys).take start)
        (((xs ++ ys).drop xs.length).take (stop - xs.length))
      let upper ← merge less fuel (((xs ++ ys).drop start).take (xs.length - start))
        ((xs ++ ys).drop stop)
      return lower ++ upper) := by
  -- the two forms of the bounds are the same numbers
  have hbounds : (if (xs.length + ys.length) / 2 < xs.length then
      ((xs.length + ys.length) / 2 + xs.length - (xs.length + ys.length),
        (xs.length + ys.length) / 2)
      else (0, xs.length)) =
        ((xs.length + ys.length) / 2 - ys.length, min ((xs.length + ys.length) / 2) xs.length) := by
    split <;> simp only [Prod.mk.injEq] <;> omega
  match xs, ys, hxs, hys with
  | x :: x' :: xs, y :: y' :: ys, _, _ =>
    rw [merge]
    · simp only [List.length_append, hbounds]
    all_goals simp

/-- The place where two longer runs are cut, so that the lower parts fill the first half. -/
theorem exists_cut {middle : Nat} (hmiddle : middle = (xs.length + ys.length) / 2)
    (hxs : Ascends f xs) (hys : Ascends f ys) (h : Ranks less s f (xs ++ ys)) :
    ∃ i j, (search (fun c => return !(← lessAt less (xs ++ ys).toArray
        (middle + xs.length - 1 - c) c)) (xs.length + ys.length + 1) (middle - ys.length)
        (min middle xs.length) : EStateM ε σ Nat) s = .ok i s ∧
      i + j = middle ∧ i ≤ xs.length ∧ j ≤ ys.length ∧ Cuts f xs ys i j := by
  obtain ⟨i, hsearch, hlow, hhigh, hbefore, hafter⟩ := search_spec (s := s)
    (fun c => return !(← lessAt less (xs ++ ys).toArray (middle + xs.length - 1 - c) c))
    (fun c => ys[middle - 1 - c]?.any fun y => xs[c]?.any fun x => !decide (f y < f x))
    (xs.length + ys.length + 1) (middle - ys.length) (min middle xs.length) (by omega) (by omega)
    (fun c hc hc' => by
      -- the opposite item stands in the second run
      have hopposite : middle + xs.length - 1 - c = xs.length + (middle - 1 - c) := by omega
      have hy : middle - 1 - c < ys.length := by omega
      have hx : c < xs.length := by omega
      have hless : lessAt less (xs ++ ys).toArray (middle + xs.length - 1 - c) c s =
          .ok (decide (f ys[middle - 1 - c] < f xs[c])) s := by
        simp only [lessAt, List.getElem?_toArray, hopposite, List.getElem?_append_right,
          Nat.le_add_right, Nat.add_sub_cancel_left, List.getElem?_append_left hx,
          List.getElem?_eq_getElem hy, List.getElem?_eq_getElem hx]
        exact h _ (by simp) _ (by simp)
      simp only [List.getElem?_eq_getElem hy, List.getElem?_eq_getElem hx, Option.any_some]
      exact bind_of_ok hless)
    (fun c d hc hcd hd hle => by
      have hy : middle - 1 - c < ys.length := by omega
      simp only [List.getElem?_eq_getElem (show middle - 1 - d < ys.length by omega),
        List.getElem?_eq_getElem (show d < xs.length by omega), List.getElem?_eq_getElem hy,
        List.getElem?_eq_getElem (show c < xs.length by omega), Option.any_some,
        Bool.not_eq_true', decide_eq_false_iff_not, not_lt] at hle ⊢
      calc f xs[c] ≤ f xs[d] := hxs.getElem_le hcd (by omega)
        _ ≤ f ys[middle - 1 - d] := hle
        _ ≤ f ys[middle - 1 - c] := hys.getElem_le (by omega) hy)
  refine ⟨i, middle - i, hsearch, by omega, by omega, by omega,
    .of_getElem hxs hys (by omega) (by omega) (fun hpos hj => ?_) fun hpos hi => ?_⟩
  · have := hbefore (i - 1) (by omega) (by omega)
    simpa [show middle - 1 - (i - 1) = middle - i by omega, List.getElem?_eq_getElem hj,
      List.getElem?_eq_getElem (show i - 1 < xs.length by omega)] using this
  · have := hafter i le_rfl (by omega)
    simpa [show middle - 1 - i = middle - i - 1 by omega, List.getElem?_eq_getElem hi,
      List.getElem?_eq_getElem (show middle - i - 1 < ys.length by omega)] using this

/-- Two runs that ascend are merged into one. The cuts of both are found by searching, and the parts
in front of them and behind them are merged on their own. -/
theorem merge_spec (fuel : Nat) (xs ys : List α) (hfuel : xs.length + ys.length ≤ fuel)
    (hxs : Ascends f xs) (hys : Ascends f ys) (h : Ranks less s f (xs ++ ys)) :
    ∃ zs, merge less fuel xs ys s = .ok zs s ∧ IsStable f (xs ++ ys) zs := by
  induction fuel generalizing xs ys with
  | zero =>
      rw [List.eq_nil_of_length_eq_zero (show xs.length = 0 by omega),
        List.eq_nil_of_length_eq_zero (show ys.length = 0 by omega)]
      exact ⟨[], rfl, ascends_nil.isStable⟩
  | succ fuel ih =>
      match xs, ys with
      | [], ys => exact ⟨ys, rfl, hys.isStable⟩
      | x :: xs, [] => exact ⟨x :: xs, rfl, by simpa using hxs.isStable⟩
      | [x], y :: ys => exact merge_single_left hys h
      | x :: x' :: xs, [y] => exact merge_single_right (by simp) hxs h
      | x :: x' :: xs₀, y :: y' :: ys₀ =>
        generalize hxs₀ : x :: x' :: xs₀ = xs at *
        generalize hys₀ : y :: y' :: ys₀ = ys at *
        have hlength : 2 ≤ xs.length ∧ 2 ≤ ys.length := by simp [← hxs₀, ← hys₀]
        obtain ⟨i, j, hsearch, hmiddle, hi, hj, hcut⟩ := exists_cut rfl hxs hys h
        have hsub : xs.take i ++ ys.take j ⊆ xs ++ ys := fun a ha =>
          List.mem_append.mpr ((List.mem_append.mp ha).imp List.mem_of_mem_take
            List.mem_of_mem_take)
        have hsub' : xs.drop i ++ ys.drop j ⊆ xs ++ ys := fun a ha =>
          List.mem_append.mpr ((List.mem_append.mp ha).imp List.mem_of_mem_drop
            List.mem_of_mem_drop)
        obtain ⟨lower, hlower, hlowerStable⟩ := ih (xs.take i) (ys.take j)
          (by simp only [List.length_take]; omega) (hxs.take i) (hys.take j) (h.mono hsub)
        obtain ⟨upper, hupper, hupperStable⟩ := ih (xs.drop i) (ys.drop j)
          (by simp only [List.length_drop]; omega) (hxs.drop i) (hys.drop j) (h.mono hsub')
        refine ⟨lower ++ upper, ?_, hcut.append hxs hys hlowerStable hupperStable⟩
        rw [merge_eq hlength.1 hlength.2, bind_of_ok hsearch]
        -- the parts of both runs together are the parts of each
        have hstop : (xs.length + ys.length) / 2 + xs.length - i = xs.length + j := by omega
        have hleft : ((xs ++ ys).drop i).take (xs.length - i) = xs.drop i := by
          rw [List.drop_append_of_le_length hi, List.take_left' List.length_drop]
        have hright : (xs ++ ys).drop (xs.length + j) = ys.drop j := by
          rw [← List.drop_drop, List.drop_left]
        simp only [hstop, hleft, hright, List.take_append_of_le_length hi, List.drop_left,
          Nat.add_sub_cancel_left]
        rw [bind_of_ok hlower, bind_of_ok hupper]
        rfl

/-! ## All runs -/

/-- Neighbouring runs are merged, and a last one that has no neighbour is left. -/
theorem mergePairs_spec : ∀ (runs : List (List α)), (∀ run ∈ runs, Ascends f run) →
    Ranks less s f runs.flatten →
    ∃ new, mergePairs less runs s = .ok new s ∧ (∀ run ∈ new, Ascends f run) ∧
      (∀ b, level f b new.flatten = level f b runs.flatten) ∧
      new.length = (runs.length + 1) / 2
  | [], hruns, _ => ⟨[], rfl, hruns, fun _ => rfl, by simp⟩
  | [xs], hruns, _ => ⟨[xs], rfl, hruns, fun _ => rfl, by simp⟩
  | xs :: ys :: rest, hruns, h => by
      simp only [List.flatten_cons] at h
      obtain ⟨hxs, hys, hrest⟩ : Ascends f xs ∧ Ascends f ys ∧ ∀ run ∈ rest, Ascends f run := by
        simpa [forall_and] using hruns
      -- the first two runs are merged, and the others after them
      obtain ⟨zs, hzs, hstable⟩ := merge_spec _ xs ys le_rfl hxs hys (h.mono (by simp))
      obtain ⟨new, hnew, hascends, hlevel, hlength⟩ := mergePairs_spec rest hrest (h.mono (by simp))
      refine ⟨zs :: new, ?_, List.forall_mem_cons.mpr ⟨hstable.ascends, hascends⟩, fun b => ?_, ?_⟩
      · rw [mergePairs, bind_of_ok hzs, bind_of_ok hnew]
        rfl
      · simp [hstable.level_eq, hlevel]
      · simp only [List.length_cons, hlength]
        omega

/-- Runs are merged until there is one, as there are fewer each time. -/
theorem mergeAll_spec (fuel : Nat) (runs : List (List α)) (hfuel : runs.length ≤ fuel)
    (hruns : ∀ run ∈ runs, Ascends f run) (h : Ranks less s f runs.flatten) :
    ∃ zs, mergeAll less fuel runs s = .ok zs s ∧ IsStable f runs.flatten zs := by
  induction fuel generalizing runs with
  | zero =>
      rw [List.eq_nil_of_length_eq_zero (Nat.le_zero.mp hfuel)]
      exact ⟨[], rfl, ascends_nil.isStable⟩
  | succ fuel ih =>
      match runs with
      | [] => exact ⟨[], rfl, ascends_nil.isStable⟩
      | [run] =>
        refine ⟨run, rfl, ?_⟩
        rw [List.flatten_singleton]
        exact (hruns run List.mem_cons_self).isStable
      | xs :: ys :: rest =>
        -- half of the runs are left, so the fuel suffices
        obtain ⟨new, hnew, hascends, hlevel, hlength⟩ := mergePairs_spec _ hruns h
        simp only [List.length_cons] at hlength hfuel
        obtain ⟨zs, hzs, hstable⟩ := ih new (by omega) hascends
          (h.mono fun a ha => (mem_iff_of_level_eq hlevel).mp ha)
        exact ⟨zs, (bind_of_ok hnew).trans hzs, hstable.of_level_eq hlevel⟩

/-- The blocks make up the list. -/
theorem flatten_blocks (fuel : Nat) (xs : List α) (hfuel : xs.length ≤ fuel) :
    (blocks fuel xs).flatten = xs := by
  induction fuel generalizing xs with
  | zero =>
      rw [List.eq_nil_of_length_eq_zero (Nat.le_zero.mp hfuel)]
      rfl
  | succ fuel ih =>
      rw [blocks]
      split
      case isTrue hempty => simp [List.isEmpty_iff.mp hempty]
      case isFalse hempty =>
        have hpos : 0 < xs.length := List.length_pos_iff.mpr (by simpa using hempty)
        rw [List.flatten_cons, ih, List.take_append_drop]
        rw [List.length_drop, blockSize]
        omega

/-- Every block is sorted by insertion. -/
theorem mapM_insertion_spec (parts : List (List α)) (h : Ranks less s f parts.flatten) :
    ∃ runs, parts.mapM (insertion less) s = .ok runs s ∧ (∀ run ∈ runs, Ascends f run) ∧
      ∀ b, level f b runs.flatten = level f b parts.flatten := by
  induction parts with
  | nil => exact ⟨[], rfl, by simp, fun b => rfl⟩
  | cons part parts ih =>
      rw [List.flatten_cons] at h
      have hpart : Ranks less s f part := h.mono (by simp)
      obtain ⟨run, hrun, hstable⟩ := insertion_spec hpart
      obtain ⟨runs, hruns, hascends, hlevel⟩ := ih (h.mono (by simp))
      refine ⟨run :: runs, ?_, List.forall_mem_cons.mpr ⟨hstable.ascends, hascends⟩, fun b => ?_⟩
      · rw [List.mapM_cons, bind_of_ok hrun, bind_of_ok hruns]
        rfl
      · simp [hstable.level_eq, hlevel]

/-- With a comparison that answers by ranks, the sort is the library's stable sort by these ranks.
It succeeds and changes nothing. -/
theorem stable_eq_mergeSort (h : Ranks less s f xs) :
    stable less xs s = .ok (xs.mergeSort fun a b => decide (f a ≤ f b)) s := by
  have hblocks := flatten_blocks xs.length xs le_rfl
  obtain ⟨runs, hruns, hascends, hlevel⟩ :=
    mapM_insertion_spec (blocks xs.length xs) (by rwa [hblocks])
  rw [hblocks] at hlevel
  obtain ⟨zs, hzs, hstable⟩ := mergeAll_spec runs.length runs le_rfl hascends
    (h.mono fun a ha => (mem_iff_of_level_eq hlevel).mp ha)
  rw [stable, bind_of_ok hruns, hzs, (hstable.of_level_eq hlevel).eq (isStable_mergeSort f xs)]

/-! ## Positions -/

/-- The stable sort in terms of the positions that the items come from: they ascend by rank, and
those of one rank by position. -/
theorem exists_order (f : α → β) (xs : List α) :
    ∃ order : List Nat, order.Perm (List.range xs.length) ∧
      (xs.mergeSort fun a b => decide (f a ≤ f b)).map some = order.map (xs[·]?) ∧
      order.Pairwise fun i j => ∃ a b, xs[i]? = some a ∧ xs[j]? = some b ∧
        (f a < f b ∨ f a = f b ∧ i < j) := by
  generalize hle : (fun a b : α => decide (f a ≤ f b)) = le
  -- items are marked with their positions, which tell equal ones apart
  let marked := xs.zipIdx.mergeSort (List.zipIdxLE le)
  have hmarked {p : α × Nat} (hp : p ∈ marked) : xs[p.2]? = some p.1 :=
    List.mem_zipIdx_iff_getElem?.mp (List.mem_mergeSort.mp hp)
  have hperm : (marked.map (·.2)).Perm (List.range xs.length) := by
    have hpositions := (List.mergeSort_perm xs.zipIdx (List.zipIdxLE le)).map (·.2)
    simpa [List.range_eq_range'] using hpositions
  have hdistinct : marked.Pairwise fun p q => p.2 ≠ q.2 :=
    List.pairwise_map.mp (hperm.nodup_iff.mpr List.nodup_range)
  have hsorted : marked.Pairwise fun p q => List.zipIdxLE le p q = true := by
    refine List.pairwise_mergeSort (List.zipIdxLE_trans ?_) (List.zipIdxLE_total ?_) _ <;> subst hle
    · simp only [decide_eq_true_eq]
      exact fun a b c => le_trans
    · intro a b
      simpa using le_total _ _
  refine ⟨marked.map (·.2), hperm, ?_, List.pairwise_map.mpr ?_⟩
  · rw [← List.mergeSort_zipIdx, List.map_map, List.map_map]
    exact List.map_congr_left fun p hp => (hmarked hp).symm
  · refine (hdistinct.and hsorted).imp_of_mem fun {p q} hp hq ⟨hne, hpq⟩ =>
      ⟨p.1, q.1, hmarked hp, hmarked hq, ?_⟩
    subst hle
    rcases lt_trichotomy (f p.1) (f q.1) with hlt | heq | hgt
    · exact .inl hlt
    · simp only [List.zipIdxLE, heq, le_refl, decide_true, if_true, decide_eq_true_eq] at hpq
      exact .inr ⟨heq, by omega⟩
    · simp [List.zipIdxLE, hgt.not_ge] at hpq

/-! ## The first of the least -/

/-- The first one of the members whose rank is the least. -/
def FirstLeast (f : α → β) (xs : List α) (a : α) : Prop :=
  ∃ front back, xs = front ++ a :: back ∧ (∀ b ∈ front, f a < f b) ∧ ∀ b ∈ back, f a ≤ f b

theorem firstLeast_singleton (f : α → β) (a : α) : FirstLeast f [a] a :=
  ⟨[], [], rfl, by simp, by simp⟩

/-- A member that is added at the end takes over only if its rank is lower. -/
theorem FirstLeast.snoc (h : FirstLeast f xs a) (b : α) :
    FirstLeast f (xs ++ [b]) (if f b < f a then b else a) := by
  obtain ⟨front, back, rfl, hfront, hback⟩ := h
  split
  case isTrue hlt =>
    refine ⟨front ++ a :: back, [], rfl, fun c hc => ?_, by simp⟩
    rw [List.mem_append, List.mem_cons] at hc
    rcases hc with hc | rfl | hc
    · exact hlt.trans (hfront c hc)
    · exact hlt
    · exact hlt.trans_le (hback c hc)
  case isFalse hge =>
    refine ⟨front, back ++ [b], by simp, hfront, fun c hc => ?_⟩
    rcases List.mem_append.mp hc with hc | hc
    · exact hback c hc
    · obtain rfl := List.mem_singleton.mp hc
      exact not_lt.mp hge

/-- It is in front when the list is sorted. -/
theorem FirstLeast.head?_eq (h : FirstLeast f xs a) (hs : IsStable f xs ys) :
    ys.head? = some a := by
  obtain ⟨front, back, rfl, hfront, hback⟩ := h
  have ha : a ∈ ys := hs.mem_iff.mpr (by simp)
  cases ys with
  | nil => cases ha
  | cons b ys =>
      have hba : f b ≤ f a := by
        rcases List.mem_cons.mp ha with rfl | ha
        · exact le_rfl
        · exact List.rel_of_pairwise_cons hs.ascends ha
      have hb : b ∈ front ++ a :: back := hs.mem_iff.mp List.mem_cons_self
      have hrank : f b = f a := by
        rw [List.mem_append, List.mem_cons] at hb
        rcases hb with hb | rfl | hb
        · exact absurd hba (hfront b hb).not_ge
        · rfl
        · exact le_antisymm hba (hback b hb)
      -- both lists begin with the same item of the least rank
      have hlevel := hs.level_eq (f a)
      have hnone : level f (f a) front = [] :=
        level_eq_nil_iff.mpr fun c hc => (hfront c hc).ne'
      rw [level_append, hnone] at hlevel
      simp only [level, List.filter_cons, hrank, decide_true, if_true, List.nil_append,
        List.cons.injEq] at hlevel
      rw [hlevel.1]
      rfl

end Wordcode.Sort
