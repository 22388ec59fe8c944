import Wordcode.Proofs.Assembling
import Wordcode.Proofs.Partition
import Mathlib

namespace Wordcode

/-! # Assembled code

What a code object that came out of an assembly tells about the requests, when it can be decoded:
the listing has one instruction for each that was added, with the same opcode and, for a jump, the
distance to its label in the 32 bits that an argument has.

* `Assembly.exists_label`: a label comes from a request that places it.
* `Assembly.linked_of_assemble`: the jumps of an assembly that succeeds can be laid out.
* `Assembly.Lies` says how the instructions of an assembly lie in a listing, and
  `Assembly.exists_lies` finds them there.
* `Listing.exists_target`: a jump whose distance fits leads to its label.
-/

namespace Assembly

/-! ## Labels -/

theorem labels_declareAll (a : Assembly) (p : Parameters) : (a.declareAll p).labels = a.labels :=
  (declareAll_frame a p).2.1

theorem labels_internConst (a : Assembly) (c : Const) :
    (a.internConst c).1.labels = a.labels := by
  rcases a.internConst_cases c with ⟨message, heq⟩ | ⟨k, -, ⟨i, -, heq⟩ | heq⟩ <;> rw [heq]
  rfl

/-- Emitting an instruction places no label. -/
theorem labels_emit (a : Assembly) (opcode : UInt8) (arg : Int) :
    (a.emit opcode arg).labels = a.labels := by
  unfold emit
  split
  · rfl
  · rfl
  · split <;> rfl

theorem labels_emitJump (a : Assembly) (opcode : UInt8) (label : String) :
    (a.emitJump opcode label).labels = a.labels := by
  unfold emitJump
  split
  · split <;> rfl
  · rfl

/-- A request places its label, if that is new, and only that. -/
theorem labels_perform (a : Assembly) (r : Request) :
    (a.perform r).1.labels = a.labels ∧ (∀ s, r = .label s → (a.labels.lookup s).isSome) ∨
      ∃ s, r = .label s ∧ (a.perform r).1.labels = a.labels ++ [(s, a.items.size)] := by
  cases r with
  | parameters p => exact Or.inl ⟨labels_declareAll a p, by simp⟩
  | const c => exact Or.inl ⟨labels_internConst a c, by simp⟩
  | name s => exact Or.inl ⟨rfl, by simp⟩
  | slot s => exact Or.inl ⟨rfl, by simp⟩
  | emit opcode arg => exact Or.inl ⟨labels_emit a opcode arg, by simp⟩
  | emitName opcode s => exact Or.inl ⟨labels_emit (a.internName s).1 opcode _, by simp⟩
  | emitSlot opcode s => exact Or.inl ⟨labels_emit (a.internVariable s).1 opcode _, by simp⟩
  | jump opcode s => exact Or.inl ⟨labels_emitJump a opcode s, by simp⟩
  | label s =>
      -- a second definition of a label is a mistake and leaves the first
      by_cases hold : (a.labels.lookup s).isSome
      · have heq : (a.place s).labels = a.labels := by
          rw [place, if_pos hold]
          rfl
        exact Or.inl ⟨heq, by simpa using hold⟩
      · have heq : (a.place s).labels = a.labels ++ [(s, a.items.size)] := by
          rw [place, if_neg hold]
        exact Or.inr ⟨s, rfl, heq⟩
  | loadConst c =>
      exact Or.inl ⟨(labels_emit (a.internConst c).1 _ _).trans (labels_internConst a c), by simp⟩

/-- After a request a label is there when it was there before or is the one requested. -/
theorem isSome_lookup_perform (a : Assembly) (r : Request) (s : String) :
    ((a.perform r).1.labels.lookup s).isSome ↔ (a.labels.lookup s).isSome ∨ r = .label s := by
  rcases labels_perform a r with ⟨heq, hold⟩ | ⟨s', rfl, heq⟩
  · rw [heq]
    exact ⟨Or.inl, fun h => h.elim (fun hsome => hsome) (hold s)⟩
  · rw [heq, List.lookup_append, Option.isSome_or, Bool.or_eq_true, Request.label.injEq]
    by_cases hsame : s' = s
    · simp [hsame]
    · have hne : (s == s') = false := by simpa using Ne.symm hsame
      simp [List.lookup, hne, hsame]

/-- After any requests a label is there when it was there before or was requested. -/
theorem isSome_lookup_performAll (a : Assembly) (rs : List Request) (s : String) :
    ((a.performAll rs).labels.lookup s).isSome ↔
      (a.labels.lookup s).isSome ∨ .label s ∈ rs := by
  induction rs generalizing a with
  | nil => simp
  | cons r rs ih =>
      rw [performAll_cons, ih, isSome_lookup_perform, List.mem_cons, or_assoc, eq_comm (a := r)]

/-- A label that was not there before comes from a request that places it. -/
theorem exists_label {a : Assembly} {rs : List Request} {s : String} {k : Nat}
    (hnew : a.labels.lookup s = none) (hk : (a.performAll rs).labels.lookup s = some k) :
    ∃ before after, rs = before ++ .label s :: after := by
  have hsome := (isSome_lookup_performAll a rs s).mp (by simp [hk])
  exact List.append_of_mem (by simpa [hnew] using hsome)

theorem file_code (a : Assembly) (serial : Nat) (bytes : List UInt8) :
    (a.code serial bytes).file = a.file := rfl

/-! ## Laying out -/

/-- What is assembled has no mistakes and no missing labels. -/
theorem clean_of_assemble {a : Assembly} {serial : Nat} {c : Code}
    (h : a.assemble serial = .ok c) : a.mistakes = [] ∧ a.undefinedLabels = [] := by
  rw [← List.append_eq_nil_iff, ← List.isEmpty_iff]
  unfold assemble at h
  cases hempty : (a.mistakes ++ a.undefinedLabels).isEmpty with
  | true => rfl
  | false =>
      simp only [hempty] at h
      cases h

/-- Arguments that can be computed are computed one by one. -/
theorem exists_argumentAt {a : Assembly} {offsets args : Array Nat}
    (h : a.argumentsAt offsets = .ok args) {i : Nat} {item : Item}
    (hitem : a.items[i]? = some item) : ∃ arg, a.argumentAt offsets i item = .ok arg := by
  rw [argumentsAt, array_mapM_eq_ok_iff, List.forall₂_iff_get] at h
  obtain ⟨hlength, hget⟩ := h
  obtain ⟨hi, hat⟩ := Array.getElem?_eq_some_iff.mp hitem
  have harg := hget i (by simpa using hi) (by simpa [← hlength] using hi)
  simp only [List.get_eq_getElem, Array.getElem_toList, Array.getElem_zipIdx, Nat.zero_add,
    hat] at harg
  exact ⟨_, harg⟩

/-- Laying out starts from widths of at least one unit. -/
theorem exists_argumentsAt {a : Assembly} {widths : Array Nat} (h : a.layout = .ok widths) :
    ∃ initial args, a.argumentsAt (offsetsOf initial) = .ok args ∧
      initial.size = a.items.size ∧ ∀ w ∈ initial, 1 ≤ w := by
  rw [layout, settle] at h
  obtain ⟨args, hargs, -⟩ := except_bind_eq_ok h
  refine ⟨_, args, hargs, by simp, ?_⟩
  intro w hw
  obtain ⟨item, -, rfl⟩ := Array.mem_map.mp hw
  exact Nat.le_add_right 1 _

/-- Between two instructions lies at least one unit. -/
theorem startAt_lt {widths : List Nat} (hpos : ∀ w ∈ widths, 1 ≤ w) {i : Nat}
    (hi : i < widths.length) {k : Nat} (hk : k ≤ i) :
    startAt widths k < startAt widths (i + 1) := by
  have hle := startAt_le widths hk
  have hwidth := hpos _ (List.getElem_mem hi)
  rw [startAt_succ (List.getElem?_eq_getElem hi), Opcode.unitSize]
  omega

section

variable {start : Assembly} {requests : List Request} {serial : Nat} {c : Code}
  (h : (start.performAll requests).assemble serial = .ok c)
include h

/-- A jump names a label that was placed. -/
theorem exists_lookup {item : Item} {s : String} (hitem : item ∈ (start.performAll requests).items)
    (hlabel : item.label? = some s) :
    ∃ k, (start.performAll requests).labels.lookup s = some k := by
  have hdefined := (clean_of_assemble h).2
  rw [undefinedLabels, List.filterMap_eq_nil_iff] at hdefined
  have hsome := hdefined item (Array.mem_toList_iff.mpr hitem)
  simp only [hlabel] at hsome
  by_contra hnone
  have hmissing : ((start.performAll requests).labels.lookup s).isSome = false := by
    simpa [Option.eq_none_iff_forall_ne_some] using hnone
  simp [hmissing] at hsome

variable (hitems : start.items = #[]) (hlabels : start.labels = [])
include hitems hlabels

/-- A label that is placed stands for the number of instructions before it. -/
theorem lookup_eq_iff {s : String} {k : Nat} :
    (start.performAll requests).labels.lookup s = some k ↔
      ∃ before after, requests = before ++ .label s :: after ∧
        (start.emitted before).length = k := by
  have hclean := (clean_of_assemble h).1
  constructor
  · intro hk
    obtain ⟨before, after, rfl⟩ := exists_label (by simp [hlabels]) hk
    rw [lookup_label hitems hclean] at hk
    exact ⟨before, after, rfl, Option.some.inj hk⟩
  · rintro ⟨before, after, rfl, rfl⟩
    exact lookup_label hitems hclean

/-- A label lies before an instruction or at the end. -/
theorem lookup_le {s : String} {k : Nat}
    (hk : (start.performAll requests).labels.lookup s = some k) :
    k ≤ (start.performAll requests).items.size := by
  obtain ⟨before, after, hsplit, rfl⟩ := (lookup_eq_iff h hitems hlabels).mp hk
  rw [← Array.length_toList, items_eq (clean_of_assemble h).1 hitems, hsplit, emitted_append,
    List.length_append]
  exact Nat.le_add_right _ _

/-- An assembly that succeeds has nothing but jumps that can be laid out. -/
theorem linked_of_assemble : (start.performAll requests).Linked := by
  intro i item s hitem hlabel
  obtain ⟨k, hk⟩ := exists_lookup h (Array.mem_of_getElem? hitem) hlabel
  have hle := lookup_le h hitems hlabels hk
  refine ⟨k, hk, hle, fun hrelative => ?_⟩
  obtain ⟨bytes, hstream, -, -⟩ := validate_of_assemble h
  obtain ⟨widths, hlayout, -⟩ := except_bind_eq_ok hstream
  obtain ⟨initial, args, hargs, hsize, hpos⟩ := exists_argumentsAt hlayout
  obtain ⟨arg, harg⟩ := exists_argumentAt hargs hitem
  have hi := (Array.getElem?_eq_some_iff.mp hitem).1
  have htarget := offsetsOf_getD initial (i := k) (by omega)
  have hnext := offsetsOf_getD initial (i := i + 1) (by omega)
  -- a jump backward has no argument
  by_contra hback
  have hlt : startAt initial.toList k < startAt initial.toList (i + 1) :=
    startAt_lt (by simpa using hpos) (by simpa [hsize] using hi) (Nat.not_lt.mp hback)
  simp [argumentAt, hlabel, hk, htarget, hnext, hrelative, hlt] at harg

end

/-! ## Listings -/

/-- The instructions of an assembly lie in a listing one after another, under settled widths, with
what units carry of their arguments. -/
structure Lies (a : Assembly) (widths : List Nat) (l : Listing) : Prop where
  settled : a.needed widths = widths
  raw : ∀ i, l.raw[i]? = a.items[i]?.map fun item => (a.placedAt widths i item).carried
  endOffset : l.endOffset = startAt widths a.items.size

/-- The listing of assembled code lies where the widths say. -/
theorem exists_lies {start : Assembly} {requests : List Request} {serial : Nat} {c : Code}
    (h : (start.performAll requests).assemble serial = .ok c) (hitems : start.items = #[])
    (hlabels : start.labels = []) {l : Listing} (hdecode : c.decode = .ok l) :
    ∃ widths, (start.performAll requests).Lies widths l := by
  have hclean := (clean_of_assemble h).1
  obtain ⟨widths, hsettled, hstream⟩ :=
    stream_eq (linked_of_assemble h hitems hlabels) (plain_items hclean hitems)
  obtain ⟨bytes, hbytes, rfl, -⟩ := validate_of_assemble h
  obtain rfl := Except.ok.inj (hstream.symm.trans hbytes)
  obtain ⟨-, hinstructions, -⟩ := code_eq (start.performAll requests) serial
    (encodeAll ((start.performAll requests).settledPairs widths))
  obtain ⟨hcode, hscan, -, -⟩ := Code.decode_eq_ok_iff.mp hdecode
  rw [hinstructions, scan_encodeAll_carried _ (emittable_settled hclean hitems widths)] at hscan
  -- what is scanned is what was laid out, unit by unit
  refine ⟨widths, hsettled, fun i => ?_, ?_⟩
  · have hat := getElem?_settled hsettled i
    rw [List.getElem?_toArray] at hat
    rw [← Except.ok.inj hscan, List.getElem?_toArray, List.getElem?_map, hat, Option.map_map]
    rfl
  · rw [Listing.endOffset, hcode, hinstructions]
    exact length_encodeAll_settled hsettled

end Assembly

/-- The offset at which the instruction at a position starts, or the end behind the last one. -/
def Listing.startOf (l : Listing) (k : Nat) : Nat :=
  (l.instructions[k]?.map (·.offset)).getD l.endOffset

/-- How far a jump to a position goes: from the start of the stream, or from its own end. -/
def Listing.distance (l : Listing) (i : Instruction) (k : Nat) : Nat :=
  if i.op.argKind = .jumpRelative then l.startOf k - i.next else l.startOf k

namespace Assembly.Lies

variable {a : Assembly} {widths : List Nat} {l : Listing} (h : a.Lies widths l)
include h

/-- There is an instruction for each that was emitted. -/
theorem size_eq : l.instructions.size = a.items.size := by
  have hraw : l.raw = a.items.mapIdx fun i item => (a.placedAt widths i item).carried := by
    refine Array.ext_getElem? fun i => ?_
    rw [h.raw, Array.getElem?_mapIdx]
  simpa [Listing.raw] using congrArg Array.size hraw

/-- Each instruction of the assembly is one of the listing. -/
theorem exists_instruction {i : Nat} {item : Item} (hitem : a.items[i]? = some item) :
    ∃ ins, l.instructions[i]? = some ins ∧
      ins.toRawInstruction = (a.placedAt widths i item).carried := by
  have hat := h.raw i
  rw [Listing.getElem?_raw, hitem, Option.map_some, Option.map_eq_some_iff] at hat
  exact hat

/-- Each is the one that was emitted, at its place. -/
theorem raw_eq {i : Nat} {item : Item} (hitem : a.items[i]? = some item) {ins : Instruction}
    (hins : l.instructions[i]? = some ins) :
    ins.toRawInstruction = (a.placedAt widths i item).carried := by
  obtain ⟨ins', hins', heq⟩ := h.exists_instruction hitem
  rw [← heq, Option.some.inj (hins.symm.trans hins')]

theorem op_eq {i : Nat} {item : Item} (hitem : a.items[i]? = some item) {ins : Instruction}
    (hins : l.instructions[i]? = some ins) : ins.op = item.op :=
  congrArg RawInstruction.op (h.raw_eq hitem hins)

/-- Without a label the argument stands as it is. -/
theorem arg_eq {i : Nat} {item : Item} (hitem : a.items[i]? = some item) {ins : Instruction}
    (hins : l.instructions[i]? = some ins) (hlt : item.arg < 2 ^ 32) (hlabel : item.label? = none) :
    ins.arg = item.arg := by
  have hplain : a.argument widths i item = item.arg := by simp [argument, hlabel]
  rw [congrArg RawInstruction.arg (h.raw_eq hitem hins)]
  show a.argument widths i item % 2 ^ 32 = item.arg
  rw [hplain, Nat.mod_eq_of_lt hlt]

/-- It starts where the widths say. -/
theorem startOf_eq {k : Nat} (hk : k ≤ a.items.size) : l.startOf k = startAt widths k := by
  unfold Listing.startOf
  rcases Nat.lt_or_eq_of_le hk with hlt | rfl
  · obtain ⟨ins, hins, heq⟩ := h.exists_instruction (Array.getElem?_eq_getElem hlt)
    rw [hins]
    exact congrArg RawInstruction.offset heq
  · rw [Array.getElem?_eq_none (Nat.le_of_eq h.size_eq)]
    exact h.endOffset

/-- A jump carries the distance to its label, and a relative one leads forward. -/
theorem jump (hlinked : a.Linked) {i : Nat} {item : Item} {s : String}
    (hitem : a.items[i]? = some item) (hlabel : item.label? = some s)
    (hjump : item.op.isJump = true) {k : Nat} (hk : a.labels.lookup s = some k)
    {ins : Instruction} (hins : l.instructions[i]? = some ins) :
    ins.arg = l.distance ins k % 2 ^ 32 ∧
      (ins.op.argKind = .jumpRelative → ins.next ≤ l.startOf k) := by
  have heq := h.raw_eq hitem hins
  obtain ⟨k', hk', hle, hforward⟩ := hlinked i item s hitem hlabel
  obtain rfl : k' = k := Option.some.inj (hk'.symm.trans hk)
  have hstart := h.startOf_eq hle
  have harg : ins.arg = a.argument widths i item % 2 ^ 32 := congrArg RawInstruction.arg heq
  have hnext : ins.next = startAt widths (i + 1) :=
    (congrArg RawInstruction.next heq).trans (next_placedAt h.settled hitem)
  rw [Listing.distance, h.op_eq hitem hins, harg, hnext, hstart]
  -- a forward jump counts from the next instruction, which the label does not precede
  by_cases habs : item.op.argKind = .jumpAbsolute
  · simp [argument, hlabel, hk, habs]
  · have hrelative := Opcode.argKind_of_isJump hjump habs
    have hle' := startAt_le widths (show i + 1 ≤ k' from hforward habs)
    simp [argument, hlabel, hk, hrelative, hle']

end Assembly.Lies

/-- A jump whose distance fits in an argument leads to the instruction that it is meant for. -/
theorem Listing.exists_target {c : Code} {l : Listing} (hdecode : c.decode = .ok l)
    {i : Instruction} (hi : i ∈ l.instructions) (hjump : i.op.isJump = true) {k : Nat}
    (harg : i.arg = l.distance i k)
    (hforward : i.op.argKind = .jumpRelative → i.next ≤ l.startOf k) :
    ∃ i', l.instructions[k]? = some i' ∧ i.target? = some i'.offset := by
  obtain ⟨htarget, i', hi', hoffset⟩ := Listing.leads_of_decode hdecode hi hjump
  have hplace : i.destination = l.startOf k := by
    rw [RawInstruction.destination, harg, Listing.distance]
    by_cases hrelative : i.op.argKind = .jumpRelative
    · have hle := hforward hrelative
      simp only [hrelative, if_true]
      omega
    · simp [hrelative]
  cases hat : l.instructions[k]? with
  | none =>
      -- no instruction starts at the end
      have hlt := Listing.offset_lt_endOffset hdecode hi'
      rw [hoffset, hplace, Listing.startOf, hat] at hlt
      exact absurd hlt (Nat.lt_irrefl _)
  | some ins =>
      refine ⟨ins, rfl, ?_⟩
      rw [htarget, hplace, Listing.startOf, hat]
      rfl

end Wordcode
