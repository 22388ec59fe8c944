import Wordcode.Proofs.Assembled
import Mathlib

namespace Wordcode.Assembly

/-! # The least layout

Widths and arguments depend on each other. The rounds of growth always come to an end, and what they
end with is the narrowest layout in which every instruction is as wide as its argument needs.

* `Settles` are the rounds of growth without a bound on their number.
* `Consistent` says that every instruction is exactly as wide as its argument needs.
* `LaidOut` says where instructions lie in a stream.
* `Least` says what the layout is like at which growth ends, and `least_layout` that there is one
  when every label is placed and no relative jump leads backward.
-/

/-! ## What requests leave -/

/-- What instructions and labels are like after any requests, mistakes or not: only jumps name
labels, they have no argument of their own, and labels lie before an instruction or at the end. -/
structure Formed (a : Assembly) : Prop where
  labelled : ∀ item ∈ a.items, item.label? ≠ none → item.op.isJump = true ∧ item.arg = 0
  bounded : ∀ p ∈ a.labels, p.2 ≤ a.items.size

theorem formed_blank (name file id : String) : (blank name file id).Formed where
  labelled := by simp [blank]
  bounded := by simp [blank]

section

variable {a b : Assembly} (h : a.Formed)
include h

/-- Only the instructions and the labels count. -/
theorem Formed.of_eq (hitems : b.items = a.items) (hlabels : b.labels = a.labels) : b.Formed := by
  refine ⟨?_, ?_⟩
  · rw [hitems]
    exact h.labelled
  · rw [hitems, hlabels]
    exact h.bounded

/-- A jump is emitted without an argument, and everything else without a label. -/
theorem Formed.push {item : Item}
    (hitem : item.label? ≠ none → item.op.isJump = true ∧ item.arg = 0) :
    Formed { a with items := a.items.push item } := by
  refine ⟨fun other hother => ?_, fun p hp => ?_⟩
  · rcases Array.mem_push.mp hother with hmem | rfl
    · exact h.labelled other hmem
    · exact hitem
  · rw [Array.size_push]
    exact Nat.le_succ_of_le (h.bounded p hp)

theorem Formed.refuse (message : String) : (a.refuse message).Formed :=
  h.of_eq rfl rfl

theorem Formed.emit (opcode : UInt8) (arg : Int) : (a.emit opcode arg).Formed := by
  unfold Assembly.emit
  split
  · exact h.refuse _
  · exact h.refuse _
  · split
    · exact h.refuse _
    · exact h.push (by simp)

theorem Formed.emitJump (opcode : UInt8) (label : String) : (a.emitJump opcode label).Formed := by
  unfold Assembly.emitJump
  split
  · split
    · rename_i hjump
      exact h.push fun _ => ⟨hjump, rfl⟩
    · exact h.refuse _
  · exact h.refuse _

theorem Formed.place (label : String) : (a.place label).Formed := by
  unfold Assembly.place
  split
  · exact h.refuse _
  · refine ⟨h.labelled, fun p hp => ?_⟩
    rcases List.mem_append.mp hp with hmem | hmem
    · exact h.bounded p hmem
    · obtain rfl := List.mem_singleton.mp hmem
      exact Nat.le_refl _

/-- A request leaves instructions and labels as they should be. -/
theorem Formed.perform (r : Request) : (a.perform r).1.Formed := by
  have hconst (c : Const) : (a.internConst c).1.Formed :=
    h.of_eq (items_internConst a c) (labels_internConst a c)
  cases r with
  | parameters p => exact h.of_eq (items_declareAll a p) (labels_declareAll a p)
  | const c => exact hconst c
  | name s => exact h.of_eq rfl rfl
  | slot s => exact h.of_eq rfl rfl
  | emit opcode arg => exact h.emit opcode arg
  | emitName opcode s => exact Formed.emit (a := (a.internName s).1) (h.of_eq rfl rfl) opcode _
  | emitSlot opcode s =>
      exact Formed.emit (a := (a.internVariable s).1) (h.of_eq rfl rfl) opcode _
  | jump opcode s => exact h.emitJump opcode s
  | label s => exact h.place s
  | loadConst c => exact (hconst c).emit Opcode.loadConst.number _

/-- So does a series of requests. -/
theorem Formed.performAll (requests : List Request) : (a.performAll requests).Formed := by
  induction requests generalizing a with
  | nil => exact h
  | cons r rs ih => exact ih (h.perform r)

/-- Jumps count as short at first. -/
theorem Formed.plain : ∀ item ∈ a.items, item.label? ≠ none → item.arg = 0 :=
  fun item hitem hlabel => (h.labelled item hitem hlabel).2

theorem Formed.lookup_le {s : String} {k : Nat} (hk : a.labels.lookup s = some k) :
    k ≤ a.items.size := by
  obtain ⟨before, after, hlabels, -⟩ := List.lookup_eq_some_iff.mp hk
  exact h.bounded (s, k) (by simp [hlabels])

end

/-- Every jump names a label that was placed. -/
def Defined (a : Assembly) : Prop :=
  ∀ item ∈ a.items, ∀ s ∈ item.label?, (a.labels.lookup s).isSome

/-- No relative jump leads backward. -/
def Forward (a : Assembly) : Prop :=
  ∀ i (h : i < a.items.size), a.items[i].op.argKind = .jumpRelative →
    ∀ s ∈ a.items[i].label?, ∀ k ∈ a.labels.lookup s, i < k

instance (a : Assembly) : Decidable a.Defined := by
  unfold Defined
  infer_instance

instance (a : Assembly) : Decidable a.Forward := by
  unfold Forward
  infer_instance

/-- Jumps that lead to placed labels, and forward when they are relative, can be laid out. -/
theorem Formed.linked {a : Assembly} (h : a.Formed) (hdefined : a.Defined) (hforward : a.Forward) :
    a.Linked := by
  intro i item s hitem hlabel
  obtain ⟨hi, rfl⟩ := Array.getElem?_eq_some_iff.mp hitem
  obtain ⟨k, hk⟩ := Option.isSome_iff_exists.mp (hdefined _ (Array.getElem_mem hi) s hlabel)
  refine ⟨k, hk, h.lookup_le hk, fun habs => ?_⟩
  have hjump := (h.labelled _ (Array.getElem_mem hi) (by simp [hlabel])).1
  exact hforward i hi (Opcode.argKind_of_isJump hjump habs) s hlabel k hk

/-! ## Rounds of growth -/

/-- The widths to begin with, which leave jumps without prefixes. -/
def narrowest (a : Assembly) : Array Nat :=
  a.items.map fun item => 1 + prefixCount item.arg

/-- One round: under the present offsets every width becomes large enough for its argument. -/
def grown (a : Assembly) (widths : Array Nat) : Except String (Array Nat) := do
  let arguments ← a.argumentsAt (offsetsOf widths)
  return (widths.zip arguments).map fun (w, arg) => max w (1 + prefixCount arg)

/-- The rounds of growth, without a bound on their number: they end with the first one that changes
nothing. -/
inductive Settles (a : Assembly) : Array Nat → Array Nat → Prop
  | done {widths : Array Nat} : a.grown widths = .ok widths → Settles a widths widths
  | grow {widths wider settled : Array Nat} : a.grown widths = .ok wider → wider ≠ widths →
    Settles a wider settled → Settles a widths settled

/-- Widths under which every instruction is exactly as wide as its argument needs: a unit and one
for each prefix. -/
def Consistent (a : Assembly) (widths : Array Nat) : Prop :=
  ∃ args, a.argumentsAt (offsetsOf widths) = .ok args ∧
    widths = args.map fun arg => 1 + prefixCount arg

/-- A stream in which every instruction lies at its offset under the given widths, and which ends
where the last instruction does. -/
structure LaidOut (a : Assembly) (widths : Array Nat) (bytes : List UInt8) : Prop where
  size_eq : bytes.length = (offsetsOf widths).getD a.items.size 0
  lies : ∀ i item, a.items[i]? = some item →
    ∃ arg, a.argumentAt (offsetsOf widths) i item = .ok arg ∧
      widths[i]? = some (1 + prefixCount arg) ∧
      encode item.op arg <+: bytes.drop ((offsetsOf widths).getD i 0)

/-- One round of growth, unless nothing has grown. -/
theorem settle_succ (a : Assembly) (fuel : Nat) (widths : Array Nat) :
    a.settle (fuel + 1) widths = (do
      let wider ← a.grown widths
      if wider = widths then return widths else a.settle fuel wider) := by
  rw [settle, grown]
  cases a.argumentsAt (offsetsOf widths) <;> rfl

/-- Rounds that are cut off at widths that grow no more have come to their end. -/
theorem settles_of_settle {a : Assembly} {fuel : Nat} {widths settled : Array Nat}
    (h : a.settle fuel widths = .ok settled) (hstable : a.grown settled = .ok settled) :
    a.Settles widths settled := by
  induction fuel generalizing widths with
  | zero =>
      obtain rfl := Except.ok.inj h
      exact .done hstable
  | succ fuel ih =>
      rw [settle_succ] at h
      obtain ⟨wider, hgrown, hrest⟩ := except_bind_eq_ok h
      -- the first round that changes nothing is the last
      split at hrest
      · rename_i hsame
        subst hsame
        obtain rfl := Except.ok.inj hrest
        exact .done hgrown
      · rename_i hgrows
        exact .grow hgrown hgrows (ih hrest)

section

variable {a : Assembly} (hlinked : a.Linked)
include hlinked

/-- A round replaces tight widths by the needed ones. -/
theorem grown_eq {widths : Array Nat} (htight : a.Tight widths.toList) :
    a.grown widths = .ok (a.needed widths.toList).toArray := by
  rw [grown, argumentsAt_eq hlinked widths htight.length_eq]
  exact congrArg Except.ok (zip_max_needed htight)

/-- Widths are consistent when they are the needed ones. -/
theorem consistent_iff (widths : Array Nat) :
    a.Consistent widths ↔ a.needed widths.toList = widths.toList := by
  constructor
  · rintro ⟨args, hargs, hwidths⟩
    have hsize : widths.size = a.items.size := by
      rw [argumentsAt, array_mapM_eq_ok_iff] at hargs
      simpa [hwidths] using hargs.length_eq.symm
    obtain rfl := Except.ok.inj ((argumentsAt_eq hlinked widths hsize).symm.trans hargs)
    simpa [needed] using (congrArg Array.toList hwidths).symm
  · intro hneeded
    have hsize : widths.size = a.items.size := by
      simpa using (congrArg List.length hneeded).symm
    refine ⟨_, argumentsAt_eq hlinked widths hsize, ?_⟩
    rw [← Array.toList_inj]
    simpa [needed] using hneeded.symm

/-- Growth stays below every layout that holds its own arguments. -/
theorem Settles.narrower {widths settled : Array Nat} (h : a.Settles widths settled)
    (htight : a.Tight widths.toList) {other : List Nat} (hother : a.needed other = other)
    (hbelow : Narrower widths.toList other) : Narrower settled.toList other := by
  induction h with
  | done _ => exact hbelow
  | @grow widths wider settled hgrown _ _ ih =>
      obtain rfl := Except.ok.inj ((grown_eq hlinked htight).symm.trans hgrown)
      -- what is needed below is no more than what is needed above
      refine ih (by simpa using htight.needed hlinked) ?_
      have hround := needed_mono hlinked hbelow
      rw [hother] at hround
      simpa using hround

end

/-- The widths to begin with are below every layout that holds its own arguments. -/
theorem narrowest_narrower {a : Assembly}
    (hplain : ∀ item ∈ a.items, item.label? ≠ none → item.arg = 0) {other : List Nat}
    (hother : a.needed other = other) : Narrower a.narrowest.toList other := by
  rw [← hother, Narrower, List.forall₂_iff_get]
  refine ⟨by simp [narrowest], fun i hi hi' => ?_⟩
  have hsize : i < a.items.size := by simpa [narrowest] using hi
  cases hlabel : a.items[i].label? with
  | none => simp [narrowest, needed, arguments, argument, hlabel]
  | some s =>
      have harg := hplain _ (Array.getElem_mem hsize) (by simp [hlabel])
      simp [narrowest, needed, harg, prefixCount]

/-- The encoding of settled instructions is laid out under the settled widths. -/
theorem laidOut_encodeAll {a : Assembly} (hlinked : a.Linked) {widths : Array Nat}
    (hsettled : a.needed widths.toList = widths.toList) :
    a.LaidOut widths (encodeAll (a.settledPairs widths.toList)) := by
  have hsize : widths.size = a.items.size := by
    simpa using (congrArg List.length hsettled).symm
  refine ⟨?_, fun i item hitem => ⟨_, argumentAt_eq hlinked hsize hitem, ?_, ?_⟩⟩
  · rw [length_encodeAll_settled hsettled, offsetsOf_getD widths (Nat.le_of_eq hsize.symm)]
  · rw [← Array.getElem?_toList]
    exact getElem?_widths hsettled hitem
  · have hi : i < a.items.size := (Array.getElem?_eq_some_iff.mp hitem).1
    have hpair : (a.settledPairs widths.toList)[i]? =
        some (item.op, a.argument widths.toList i item) := by
      rw [getElem?_settledPairs, hitem, Option.map_some]
    obtain ⟨hlt, hpair⟩ := List.getElem?_eq_some_iff.mp hpair
    -- the encodings of the instructions before this one end at its offset
    have hbefore : (encodeAll ((a.settledPairs widths.toList).take i)).length =
        (offsetsOf widths).getD i 0 := by
      rw [length_encodeAll, offsetsOf_getD widths (by omega), startAt_eq_sum hsettled]
    have hsplit : encodeAll (a.settledPairs widths.toList) =
        encodeAll ((a.settledPairs widths.toList).take i) ++
          (encode item.op (a.argument widths.toList i item) ++
            encodeAll ((a.settledPairs widths.toList).drop (i + 1))) := by
      conv_lhs => rw [← List.take_append_drop i (a.settledPairs widths.toList),
        List.drop_eq_getElem_cons hlt, hpair]
      simp [encodeAll]
    rw [hsplit, List.drop_left' hbefore]
    exact List.prefix_append _ _

/-! ## The least layout -/

/-- The layout at which growth ends: every instruction is exactly as wide as its argument needs and
lies at its offset, and no other layout with this property has a narrower instruction. -/
structure Least (a : Assembly) (widths : Array Nat) (bytes : List UInt8) : Prop where
  settles : a.Settles a.narrowest widths
  layout_eq : a.layout = .ok widths
  consistent : a.Consistent widths
  stream_eq : a.stream = .ok bytes
  laidOut : a.LaidOut widths bytes
  instructions_eq : ∀ serial c, a.assemble serial = .ok c → c.instructions = bytes
  least : ∀ other, a.Consistent other → Narrower widths.toList other.toList

/-- Growth comes to an end and finds the least layout, after any requests of which every jump names
a placed label and no relative jump leads backward. -/
theorem least_layout (name file id : String) (requests : List Request)
    (hdefined : ((blank name file id).performAll requests).Defined)
    (hforward : ((blank name file id).performAll requests).Forward) :
    ∃ widths bytes, ((blank name file id).performAll requests).Least widths bytes := by
  generalize ha : (blank name file id).performAll requests = a at hdefined hforward
  have hformed : a.Formed := ha ▸ (formed_blank name file id).performAll requests
  have hlinked : a.Linked := hformed.linked hdefined hforward
  have htight : a.Tight a.narrowest.toList := tight_initial hformed.plain
  obtain ⟨widths, hlayout, hneeded⟩ := Assembly.layout_eq hlinked hformed.plain
  have hsize : widths.size = a.items.size := by
    simpa using (congrArg List.length hneeded).symm
  -- the widths are those the arguments need, so another round changes nothing
  have hstable : a.grown widths = .ok widths := by
    have htight' : a.Tight widths.toList := by
      rw [Tight, hneeded]
      exact List.forall₂_refl _
    rw [grown_eq hlinked htight', hneeded]
  have hsettles : a.Settles a.narrowest widths := settles_of_settle hlayout hstable
  have hstream : a.stream = .ok (encodeAll (a.settledPairs widths.toList)) := by
    simp only [stream, hlayout, argumentsAt_eq hlinked widths hsize, bind, Except.bind, pure,
      Except.pure, Except.ok.injEq]
    simp [encodeAll, settledPairs, List.flatMap_map]
  -- any other consistent layout is at least as wide from the first round on
  refine ⟨widths, _, hsettles, hlayout, (consistent_iff hlinked widths).mpr hneeded, hstream,
    laidOut_encodeAll hlinked hneeded, fun serial c hc => ?_, fun other hother => ?_⟩
  · obtain ⟨bytes, hbytes, rfl, -⟩ := validate_of_assemble hc
    rw [(code_eq a serial bytes).2.1]
    exact Except.ok.inj (hbytes.symm.trans hstream)
  · rw [consistent_iff hlinked] at hother
    exact hsettles.narrower hlinked htight hother (narrowest_narrower hformed.plain hother)

/-- A jump over many wide instructions grows a prefix: it starts out with one unit and ends up with
two. -/
theorem least_layout_grown :
    let requests : List Request := .jump Opcode.jumpAbsolute.number "end" ::
      List.replicate 32 (.emit Opcode.buildList.number 0x1000000) ++
      [.label "end", .emit Opcode.returnValue.number 0]
    let a := (blank "main" "" "main").performAll requests
    a.Defined ∧ a.Forward ∧ a.narrowest[0]? = some 1 ∧
      ∃ widths bytes, a.Least widths bytes ∧ widths[0]? = some 2 := by
  intro requests a
  have hdefined : a.Defined := by decide +kernel
  have hforward : a.Forward := by decide +kernel
  refine ⟨hdefined, hforward, by decide +kernel, ?_⟩
  obtain ⟨widths, bytes, hleast⟩ := least_layout "main" "" "main" requests hdefined hforward
  refine ⟨widths, bytes, hleast, ?_⟩
  have hwidth : a.layout.toOption.bind (·[0]?) = some 2 := by decide +kernel
  rw [hleast.layout_eq] at hwidth
  exact hwidth

end Wordcode.Assembly
