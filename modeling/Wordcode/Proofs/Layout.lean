import Wordcode.Assembly
import Wordcode.Proofs.Sequence
import Mathlib

namespace Wordcode.Assembly

/-! # Layout

Widths are laid out as a fixpoint: an instruction is as wide as its argument needs under the offsets
that all widths together give.

* `startAt` and `argument` are the offsets and arguments under given widths; both grow with the
  widths (`argument_mono`).
* `layout_eq`: when every label is placed and no relative jump leads backward, the widths settle,
  and each one fits its argument exactly.
-/

/-! ## Offsets and arguments under given widths -/

/-- The offset at which the instruction at position `i` starts. -/
def startAt (widths : List Nat) (i : Nat) : Nat :=
  Opcode.unitSize * (widths.take i).sum

/-- The argument of the instruction at position `i`. -/
def argument (a : Assembly) (widths : List Nat) (i : Nat) (item : Item) : Nat :=
  match item.label? with
  | none => item.arg
  | some label =>
    let target := startAt widths ((a.labels.lookup label).getD 0)
    if item.op.argKind = .jumpAbsolute then target else target - startAt widths (i + 1)

/-- The arguments of all instructions. -/
def arguments (a : Assembly) (widths : List Nat) : List Nat :=
  a.items.toList.zipIdx.map fun (item, i) => a.argument widths i item

/-- The widths that the arguments need. -/
def needed (a : Assembly) (widths : List Nat) : List Nat :=
  (a.arguments widths).map fun arg => 1 + prefixCount arg

/-- Every jump names a placed label, and a relative jump one that lies after it. -/
def Linked (a : Assembly) : Prop :=
  ∀ i item label, a.items[i]? = some item → item.label? = some label →
    ∃ k, a.labels.lookup label = some k ∧ k ≤ a.items.size ∧
      (item.op.argKind ≠ .jumpAbsolute → i < k)

@[simp]
theorem length_arguments (a : Assembly) (widths : List Nat) :
    (a.arguments widths).length = a.items.size := by
  simp [arguments]

@[simp]
theorem length_needed (a : Assembly) (widths : List Nat) :
    (a.needed widths).length = a.items.size := by
  simp [needed]

theorem getElem?_arguments (a : Assembly) (widths : List Nat) (i : Nat) :
    (a.arguments widths)[i]? = a.items[i]?.map (a.argument widths i) := by
  cases h : a.items[i]? <;> simp [arguments, List.getElem?_zipIdx, h]

/-- The next instruction starts behind the unit and its prefixes. -/
theorem startAt_succ {widths : List Nat} {i w : Nat} (h : widths[i]? = some w) :
    startAt widths (i + 1) = startAt widths i + Opcode.unitSize * w := by
  simp [startAt, List.take_add_one, h, Nat.mul_add]

/-- Later instructions start later. -/
theorem startAt_le (widths : List Nat) {i k : Nat} (hik : i ≤ k) :
    startAt widths i ≤ startAt widths k := by
  have hsplit := List.sum_take_add_sum_drop (widths.take k) i
  rw [List.take_take, Nat.min_eq_left hik] at hsplit
  unfold startAt
  exact Nat.mul_le_mul_left _ (by omega)

/-- The running state of `offsetsOf`. -/
theorem foldl_offsets (widths : List Nat) (offsets : Array Nat) (pos : Nat) :
    ((widths.foldl (fun (offsets, pos) w =>
      let next := pos + w * Opcode.unitSize
      (offsets.push next, next)) (offsets, pos)).1 : Array Nat).toList =
      offsets.toList ++ (List.range widths.length).map fun i => pos + startAt widths (i + 1) := by
  induction widths generalizing offsets pos with
  | nil => simp
  | cons w ws ih =>
      rw [List.foldl_cons, ih]
      simp [List.range_succ_eq_map, startAt, Nat.mul_add, Nat.mul_comm w, Nat.add_assoc]

/-- The table of offsets has where each instruction starts. -/
theorem offsetsOf_getD (widths : Array Nat) {i : Nat} (hi : i ≤ widths.size) :
    (offsetsOf widths).getD i 0 = startAt widths.toList i := by
  have hfold := foldl_offsets widths.toList #[0] 0
  rw [Array.foldl_toList] at hfold
  rw [Array.getD_eq_getD_getElem?, ← Array.getElem?_toList, offsetsOf, hfold]
  cases i with
  | zero => simp [startAt]
  | succ i => simp [List.getElem?_range (show i < widths.size by omega)]

/-- The argument of an instruction is looked up in the table. -/
theorem argumentAt_eq {a : Assembly} (hlinked : a.Linked) {widths : Array Nat}
    (hsize : widths.size = a.items.size) {i : Nat} {item : Item} (hitem : a.items[i]? = some item) :
    a.argumentAt (offsetsOf widths) i item = .ok (a.argument widths.toList i item) := by
  have hi : i < a.items.size := (Array.getElem?_eq_some_iff.mp hitem).1
  cases hlabel : item.label? with
  | none => simp [argumentAt, argument, hlabel]
  | some label =>
      obtain ⟨k, hk, hkle, hforward⟩ := hlinked i item label hitem hlabel
      have htarget := offsetsOf_getD widths (i := k) (by omega)
      have hnext := offsetsOf_getD widths (i := i + 1) (by omega)
      -- only a relative jump can fail here, when it leads backward
      by_cases habs : item.op.argKind = .jumpAbsolute
      · simp [argumentAt, argument, hlabel, hk, htarget, habs]
      · have hle := startAt_le widths.toList (show i + 1 ≤ k from hforward habs)
        simp [argumentAt, argument, hlabel, hk, htarget, hnext, habs, Nat.not_lt.mpr hle]

/-- So are all arguments. -/
theorem argumentsAt_eq {a : Assembly} (hlinked : a.Linked) (widths : Array Nat)
    (hsize : widths.size = a.items.size) :
    a.argumentsAt (offsetsOf widths) = .ok (a.arguments widths.toList).toArray := by
  have hmap : a.items.toList.zipIdx.mapM
      (fun (item, i) => a.argumentAt (offsetsOf widths) i item) =
      .ok (a.arguments widths.toList) := by
    refine mapM_eq_ok fun (item, i) hmem => ?_
    rw [List.mem_zipIdx_iff_getElem?] at hmem
    exact argumentAt_eq hlinked hsize (by simpa using hmem)
  rw [argumentsAt, Array.mapM_eq_mapM_toList, Array.toList_zipIdx, hmap]
  rfl

/-! ## Growth -/

/-- An argument has at most three prefixes. -/
theorem prefixCount_le (arg : Nat) : prefixCount arg ≤ 3 := by
  unfold prefixCount
  split_ifs <;> omega

theorem prefixCount_mono {m n : Nat} (hmn : m ≤ n) : prefixCount m ≤ prefixCount n := by
  unfold prefixCount
  split_ifs <;> omega

/-- No width of the first list exceeds that of the second at the same position. -/
abbrev Narrower : List Nat → List Nat → Prop := List.Forall₂ (· ≤ ·)

/-- Wider instructions start later. -/
theorem startAt_mono {ws ws' : List Nat} (h : Narrower ws ws') (i : Nat) :
    startAt ws i ≤ startAt ws' i :=
  Nat.mul_le_mul_left _ (List.forall₂_take i h).sum_le_sum

/-- The distance between two instructions grows with the widths in between. -/
theorem distance_mono {ws ws' : List Nat} (h : Narrower ws ws') {i k : Nat} (hik : i ≤ k) :
    startAt ws k - startAt ws i ≤ startAt ws' k - startAt ws' i := by
  have hsplit (vs : List Nat) :
      startAt vs k = startAt vs i + Opcode.unitSize * ((vs.take k).drop i).sum := by
    have hsum := List.sum_take_add_sum_drop (vs.take k) i
    rw [List.take_take, Nat.min_eq_left hik] at hsum
    rw [startAt, ← hsum, Nat.mul_add, startAt]
  have hbetween := (List.forall₂_drop i (List.forall₂_take k h)).sum_le_sum
  rw [hsplit ws, hsplit ws', Nat.add_sub_cancel_left, Nat.add_sub_cancel_left]
  exact Nat.mul_le_mul_left _ hbetween

/-- Wider instructions make for larger arguments. -/
theorem argument_mono {a : Assembly} (hlinked : a.Linked) {ws ws' : List Nat}
    (h : Narrower ws ws') {i : Nat} {item : Item} (hitem : a.items[i]? = some item) :
    a.argument ws i item ≤ a.argument ws' i item := by
  cases hlabel : item.label? with
  | none => simp [argument, hlabel]
  | some label =>
      obtain ⟨k, hk, -, hforward⟩ := hlinked i item label hitem hlabel
      by_cases habs : item.op.argKind = .jumpAbsolute
      · simpa [argument, hlabel, hk, habs] using startAt_mono h k
      · simpa [argument, hlabel, hk, habs] using distance_mono h (hforward habs)

/-- Wider instructions need at least as much room, since jumps go farther. -/
theorem needed_mono {a : Assembly} (hlinked : a.Linked) {ws ws' : List Nat}
    (h : Narrower ws ws') : Narrower (a.needed ws) (a.needed ws') := by
  rw [Narrower, List.forall₂_iff_get]
  refine ⟨by simp, fun i hi hi' => ?_⟩
  have hsize : i < a.items.size := by simpa using hi
  have harg := argument_mono hlinked h (Array.getElem?_eq_getElem hsize)
  simpa [needed, arguments] using prefixCount_mono harg

/-! ## Settling -/

/-- Widths no larger than the arguments under them need. Growing keeps this, so growing only ever
replaces widths by the needed ones. -/
def Tight (a : Assembly) (widths : List Nat) : Prop :=
  Narrower widths (a.needed widths)

/-- There is a width for each instruction. -/
theorem Tight.length_eq {a : Assembly} {widths : List Nat} (h : a.Tight widths) :
    widths.length = a.items.size := by
  simpa using List.Forall₂.length_eq h

/-- What is needed under tight widths is tight. -/
theorem Tight.needed {a : Assembly} (hlinked : a.Linked) {widths : List Nat}
    (h : a.Tight widths) : a.Tight (a.needed widths) :=
  needed_mono hlinked h

/-- At first, jumps count as short, and these widths are tight. -/
theorem tight_initial {a : Assembly}
    (hplain : ∀ item ∈ a.items, item.label? ≠ none → item.arg = 0) :
    a.Tight (a.items.map fun item => 1 + prefixCount item.arg).toList := by
  rw [Tight, Narrower, List.forall₂_iff_get]
  refine ⟨by simp, fun i hi hi' => ?_⟩
  have hsize : i < a.items.size := by simpa using hi
  cases hlabel : a.items[i].label? with
  | none => simp [Assembly.needed, arguments, argument, hlabel]
  | some label =>
      have harg := hplain _ (Array.getElem_mem hsize) (by simp [hlabel])
      simp [Assembly.needed, harg, prefixCount]

/-- Every width is at most four units. -/
theorem sum_needed_le (a : Assembly) (widths : List Nat) :
    (a.needed widths).sum ≤ 4 * a.items.size := by
  have hbound : ∀ w ∈ a.needed widths, w ≤ 4 := by
    intro w hw
    obtain ⟨arg, -, rfl⟩ := List.mem_map.mp hw
    have := prefixCount_le arg
    omega
  simpa [Nat.mul_comm] using List.sum_le_card_nsmul _ 4 hbound

/-- One list is pointwise below another with the same sum only if they are equal. -/
theorem Narrower.eq_of_sum_le {ws ws' : List Nat} (h : Narrower ws ws')
    (hsum : ws'.sum ≤ ws.sum) : ws = ws' := by
  induction h with
  | nil => rfl
  | cons hle htail ih =>
      have hrest := htail.sum_le_sum
      simp only [List.sum_cons] at hsum
      rw [ih (by omega)]
      exact congrArg (· :: _) (by omega)

/-- A round of growth from tight widths replaces them by the needed ones. -/
theorem zip_max_needed {a : Assembly} {widths : Array Nat} (htight : a.Tight widths.toList) :
    ((widths.zip (a.arguments widths.toList).toArray).map fun (w, arg) =>
      max w (1 + prefixCount arg)) = (a.needed widths.toList).toArray := by
  have hlen := htight.length_eq
  rw [Tight, Narrower, List.forall₂_iff_get] at htight
  apply Array.ext
  · simpa using hlen.ge
  · intro i hi hi'
    have hle := htight.2 i (by simp at hi ⊢; omega) (by simpa using hi')
    simp only [needed, List.get_eq_getElem, List.getElem_map, Array.getElem_toList] at hle
    simpa [needed] using hle

/-- Rounds of growth end before the fuel does: each one but the last makes the code longer. -/
theorem settle_eq {a : Assembly} (hlinked : a.Linked) {fuel : Nat} {widths : Array Nat}
    (htight : a.Tight widths.toList) (hfuel : 4 * a.items.size < widths.toList.sum + fuel) :
    ∃ settled, a.settle fuel widths = .ok settled ∧ a.needed settled.toList = settled.toList := by
  induction fuel generalizing widths with
  | zero =>
      -- tight widths stay below the bound, so the fuel cannot be used up
      have hle := htight.sum_le_sum
      have hbound := a.sum_needed_le widths.toList
      omega
  | succ fuel ih =>
      have hargs := argumentsAt_eq hlinked widths htight.length_eq
      have hround := zip_max_needed htight
      by_cases hsame : (a.needed widths.toList).toArray = widths
      · refine ⟨widths, ?_, by simpa using congrArg Array.toList hsame⟩
        simp [settle, hargs, hround, hsame, bind, Except.bind, pure, Except.pure]
      · -- some width grows, and the sum with it, which pays for the fuel of this round
        have hgrow : widths.toList.sum < (a.needed widths.toList).sum := by
          by_contra hge
          have heq := Narrower.eq_of_sum_le htight (by omega)
          exact hsame (by rw [← heq])
        obtain ⟨settled, hsettle, hfix⟩ := @ih (a.needed widths.toList).toArray
          (by simpa using htight.needed hlinked) (by simpa using by omega)
        refine ⟨settled, ?_, hfix⟩
        simp [settle, hargs, hround, hsame, hsettle, bind, Except.bind]

/-- The widths settle, and each one fits its argument exactly. -/
theorem layout_eq {a : Assembly} (hlinked : a.Linked)
    (hplain : ∀ item ∈ a.items, item.label? ≠ none → item.arg = 0) :
    ∃ widths, a.layout = .ok widths ∧ a.needed widths.toList = widths.toList := by
  have htight := tight_initial hplain
  refine settle_eq hlinked htight ?_
  have hlower : a.items.size ≤ (a.items.map fun item => 1 + prefixCount item.arg).toList.sum := by
    simp
  omega

end Wordcode.Assembly
