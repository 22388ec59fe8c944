import Wordcode.Proofs.Encoding
import Wordcode.Proofs.Requests
import Wordcode.Proofs.Validation
import Mathlib

namespace Wordcode

/-! # Assembling

Assembling and decoding agree. Requests that fit together give a code object, and decoding it gives
back the instructions that were asked for, with every jump leading to the instruction behind its
label.

* `Assembly.Regular` says when requests fit together.
* `Assembly.stream_eq`: the stream is the encoding of the settled instructions.
* `Assembly.validate_eq`: the metadata is in order.
-/

/-- A jump is absolute or relative. -/
theorem Opcode.argKind_of_isJump {op : Opcode} (h : op.isJump = true)
    (habs : op.argKind ≠ .jumpAbsolute) : op.argKind = .jumpRelative := by
  unfold isJump at h
  cases hkind : op.argKind <;> simp_all [ArgKind.isJump]

namespace Assembly

/-! ## The stream -/

/-- The opcodes and arguments under given widths. -/
def settledPairs (a : Assembly) (widths : List Nat) : List (Opcode × Nat) :=
  (a.items.toList.zip (a.arguments widths)).map fun (item, arg) => (item.op, arg)

theorem length_settledPairs (a : Assembly) (widths : List Nat) :
    (a.settledPairs widths).length = a.items.size := by
  simp [settledPairs]

theorem getElem?_settledPairs (a : Assembly) (widths : List Nat) (i : Nat) :
    (a.settledPairs widths)[i]? =
      a.items[i]?.map fun item => (item.op, a.argument widths i item) := by
  rw [settledPairs, List.getElem?_map, List.zip_eq_zipWith, List.getElem?_zipWith,
    getElem?_arguments]
  cases h : a.items[i]? <;> simp [h]

/-- Settled widths are the sizes of the encoded instructions. -/
theorem startAt_eq_sum {a : Assembly} {widths : List Nat} (hsettled : a.needed widths = widths)
    (i : Nat) :
    startAt widths i = ((((a.settledPairs widths).take i).map fun p => encodedSize p.2)).sum := by
  have harguments : (a.settledPairs widths).map (·.2) = a.arguments widths := by
    rw [settledPairs, List.map_map]
    exact List.map_snd_zip (by simp)
  have hsizes : (a.settledPairs widths).map (fun p => encodedSize p.2) =
      widths.map (Opcode.unitSize * ·) := by
    -- settled widths are those the arguments need
    calc (a.settledPairs widths).map (fun p => encodedSize p.2)
        = ((a.settledPairs widths).map (·.2)).map encodedSize := by
          rw [List.map_map]
          rfl
      _ = (a.needed widths).map (Opcode.unitSize * ·) := by
          rw [harguments, needed, List.map_map]
          rfl
      _ = widths.map (Opcode.unitSize * ·) := by rw [hsettled]
  rw [List.map_take, hsizes, ← List.map_take, List.sum_map_mul_left, List.map_id']
  rfl

/-- The stream is the encoding of the instructions under settled widths. -/
theorem stream_eq {a : Assembly} (hlinked : a.Linked)
    (hplain : ∀ item ∈ a.items, item.label? ≠ none → item.arg = 0) :
    ∃ widths, a.needed widths = widths ∧ a.stream = .ok (encodeAll (a.settledPairs widths)) := by
  obtain ⟨widths, hlayout, hsettled⟩ := layout_eq hlinked hplain
  have hsize : widths.size = a.items.size := by
    simpa using (congrArg List.length hsettled).symm
  refine ⟨widths.toList, hsettled, ?_⟩
  simp only [stream, hlayout, argumentsAt_eq hlinked widths hsize, bind, Except.bind, pure,
    Except.pure, Except.ok.injEq]
  simp [encodeAll, settledPairs, List.flatMap_map]

/-! ## Requests that fit together -/

/-- An assembly to which nothing was added. -/
def blank (name file id : String) : Assembly := { name, file, id }

/-- Requests that fit together. No request is a mistake, every argument means something, every jump
names a label that is followed by an instruction, a relative one a label that comes later, and the
stream stays in the range of arguments. -/
structure Regular (start : Assembly) (requests : List Request) : Prop where
  clean : (start.performAll requests).mistakes = []
  meaningful : ∀ r ∈ requests, r.Meaningful (start.performAll requests)
  jumps : ∀ before opcode label after, requests = before ++ .jump opcode label :: after →
    label ≠ "" ∧ ∃ before' after', requests = before' ++ .label label :: after' ∧
      (∃ r ∈ after', r.emits = true) ∧
      ∀ op, Opcode.ofNumber? opcode = some op → op.argKind = .jumpRelative →
        before.length < before'.length
  short : ∀ bytes, (start.performAll requests).stream = .ok bytes → bytes.length < 2 ^ 32

/-- A request that adds an instruction leaves one behind. -/
theorem emitted_ne_nil {a : Assembly} {rs : List Request} (h : (a.performAll rs).mistakes = [])
    {r : Request} (hr : r ∈ rs) (hemits : r.emits = true) : a.emitted rs ≠ [] := by
  obtain ⟨before, after, rfl⟩ := List.append_of_mem hr
  rw [performAll_append, performAll_cons] at h
  have hclean := (grows_performAll _ after).clean h
  obtain ⟨item, hitem⟩ := Option.isSome_iff_exists.mp (Request.isSome_item? hclean hemits)
  simp [emitted_append, emitted, hitem]

/-- An instruction with a label comes from a jump. -/
theorem Request.eq_jump {a : Assembly} {r : Request} {item : Item} {s : String}
    (hitem : r.item? a = some item) (hlabel : item.label? = some s) :
    ∃ opcode, r = .jump opcode s ∧ Opcode.ofNumber? opcode = some item.op := by
  cases r with
  | parameters p => simp [item?] at hitem
  | const c => simp [item?] at hitem
  | name s => simp [item?] at hitem
  | slot s => simp [item?] at hitem
  | label s => simp [item?] at hitem
  | emit opcode arg =>
      obtain ⟨op, -, rfl⟩ := Option.map_eq_some_iff.mp hitem
      simp at hlabel
  | emitName opcode s =>
      obtain ⟨op, -, rfl⟩ := Option.map_eq_some_iff.mp hitem
      simp at hlabel
  | emitSlot opcode s =>
      obtain ⟨op, -, rfl⟩ := Option.map_eq_some_iff.mp hitem
      simp at hlabel
  | loadConst c =>
      obtain rfl := Option.some.inj hitem
      simp at hlabel
  | jump opcode target =>
      obtain ⟨op, hop, rfl⟩ := Option.map_eq_some_iff.mp hitem
      have htarget : ¬ target = "" ∧ target = s := by simpa using hlabel
      exact ⟨opcode, by rw [htarget.2], hop⟩

section

variable {start : Assembly} {requests : List Request}
  (hclean : (start.performAll requests).mistakes = [])
include hclean

/-- The instructions of the assembly are the ones that were asked for. -/
theorem items_eq (hstart : start.items = #[]) :
    (start.performAll requests).items.toList = start.emitted requests := by
  have hitems := items_performAll hclean
  simpa [hstart] using hitems

theorem getElem?_items (hstart : start.items = #[]) (i : Nat) :
    (start.performAll requests).items[i]? = (start.emitted requests)[i]? := by
  rw [← Array.getElem?_toList, items_eq hclean hstart]

/-- A part of the requests is as free of mistakes as the whole. -/
theorem clean_before {before after : List Request} {r : Request}
    (hrequests : requests = before ++ r :: after) :
    ((start.performAll before).perform r).1.Grows (start.performAll requests) ∧
      ((start.performAll before).perform r).1.mistakes = [] := by
  have hgrows := grows_performAll ((start.performAll before).perform r).1 after
  rw [← performAll_cons, ← performAll_append, ← hrequests] at hgrows
  exact ⟨hgrows, hgrows.clean hclean⟩

theorem item_sound {i : Nat} {item : Item}
    (hitem : (start.emitted requests)[i]? = some item) : item.Sound := by
  obtain ⟨before, r, after, hrequests, -, hr⟩ := emitted_split hitem
  exact Request.item?_sound (clean_before hclean hrequests).2 hr

theorem plain_items (hstart : start.items = #[]) :
    ∀ item ∈ (start.performAll requests).items, item.label? ≠ none → item.arg = 0 := by
  intro item hitem hlabel
  rw [← Array.mem_toList_iff, items_eq hclean hstart, List.mem_iff_getElem?] at hitem
  obtain ⟨i, hi⟩ := hitem
  exact ((item_sound hclean hi).labelled hlabel).2

end

section

variable {start : Assembly} {requests : List Request}
  (h : Regular start requests)
include h

/-- Every jump names a label that was placed once, in front of an instruction, and every relative
jump one that was placed later. -/
theorem Regular.jump_cases (hstart : start.items = #[]) {i : Nat} {item : Item} {s : String}
    (hitem : (start.emitted requests)[i]? = some item) (hlabel : item.label? = some s) :
    ∃ k, (start.performAll requests).labels.lookup s = some k ∧
      k < (start.performAll requests).items.size ∧ (item.op.argKind ≠ .jumpAbsolute → i < k) ∧
      ∀ before after, requests = before ++ .label s :: after →
        (start.emitted before).length = k := by
  -- the jump is a request, and its label one of the other requests
  obtain ⟨before, r, after, hrequests, hlength, hr⟩ := emitted_split hitem
  obtain ⟨opcode, rfl, hop⟩ := Request.eq_jump hr hlabel
  obtain ⟨-, before', after', hsplit, ⟨r, hr', hemits⟩, hlater⟩ := h.jumps _ _ _ _ hrequests
  have hlookup {before after : List Request} (hsplit : requests = before ++ .label s :: after) :
      (start.performAll requests).labels.lookup s = some (start.emitted before).length := by
    have hplaced := lookup_label hstart (hsplit ▸ h.clean)
    rwa [← hsplit] at hplaced
  refine ⟨_, hlookup hsplit, ?_, fun hkind => ?_, fun before after hsplit' => ?_⟩
  · -- the instruction behind the label is not the end
    have hclean := h.clean
    rw [hsplit, List.append_cons, performAll_append] at hclean
    have hpos := List.length_pos_iff.mpr (emitted_ne_nil hclean hr' hemits)
    rw [← Array.length_toList, items_eq h.clean hstart, hsplit, List.append_cons, emitted_append,
      emitted_append, List.length_append, List.length_append]
    omega
  · -- a relative jump comes before its label, so it is one of the instructions before it
    have hjump := ((item_sound h.clean hitem).labelled (by simp [hlabel])).1
    have hrelative := Opcode.argKind_of_isJump hjump hkind
    have hbefore : before ++ [.jump opcode s] <+: requests := ⟨after, by simp [hrequests]⟩
    have hbefore' : before' <+: requests := ⟨_, hsplit.symm⟩
    obtain ⟨between, rfl⟩ := List.prefix_of_prefix_length_le hbefore hbefore'
      (by simpa [Nat.succ_le_iff] using hlater item.op hop hrelative)
    simp [emitted_append, emitted, hr, ← hlength]
  · exact Option.some.inj ((hlookup hsplit').symm.trans (hlookup hsplit))

/-- The jumps of the assembly can be laid out. -/
theorem Regular.linked (hstart : start.items = #[]) : (start.performAll requests).Linked := by
  intro i item s hitem hlabel
  rw [getElem?_items h.clean hstart] at hitem
  obtain ⟨k, hk, hlt, hforward, -⟩ := h.jump_cases hstart hitem hlabel
  exact ⟨k, hk, Nat.le_of_lt hlt, hforward⟩

end

/-! ## The code object -/

/-- The code object has the stream and the pools of the assembly. -/
theorem code_eq (a : Assembly) (serial : Nat) (bytes : List UInt8) :
    (a.code serial bytes).name = a.name ∧ (a.code serial bytes).instructions = bytes ∧
      (a.code serial bytes).constants = a.constants.toList ∧
      (a.code serial bytes).names = a.names.toList ∧
      (a.code serial bytes).variableNames = a.variableNames.toList :=
  ⟨rfl, rfl, rfl, rfl, rfl⟩

/-- The flags tell which collecting slots there are, and nothing else. -/
theorem Parameters.flags_bits (p : Parameters) :
    (p.flags &&& Code.restFlag != 0) = p.rest?.isSome ∧
      (p.flags &&& Code.keywordsFlag != 0) = p.keywords?.isSome ∧ p.flags &&& 0xF3 = 0 := by
  unfold flags
  cases p.rest?.isSome <;> cases p.keywords?.isSome <;> decide

/-- The code object declares the parameters of the assembly. -/
theorem Declared.declares {a : Assembly} {p : Parameters} (hp : a.Declared p)
    (hnodup : a.variableNames.toList.Nodup) (hsize : a.variableNames.size < 2 ^ 63)
    (serial : Nat) (bytes : List UInt8) :
    (a.code serial bytes).flags = p.flags ∧
      (a.code serial bytes).Declares ⟨p.positionalOnly, p.positional, p.keywordOnly⟩
        p.rest? p.keywords? := by
  -- the names are among the variables, so their counts fit
  have hlength : p.names.length < 2 ^ 63 := by
    have hle := hp.leading.length_le
    simp only [Array.length_toList] at hle
    omega
  have hcounts : p.positionalOnly.length + p.positional.length + p.keywordOnly.length < 2 ^ 63 := by
    simp only [Parameters.names, Code.ParameterNames.all, Code.ParameterNames.anyPositional,
      List.length_append] at hlength
    omega
  have hofNat {n : Nat} (hn : n < 2 ^ 63) : (Int64.ofNat n).toInt = n := by
    rw [Int64.toInt_ofNat_of_lt hn]
  refine ⟨hp.flags, ?_, ?_, ?_, ?_, ?_, hp.leading, ?_, ?_⟩
  · show (Int64.ofNat a.positionalOnly).toInt = _
    rw [hp.positionalOnly]
    exact hofNat (by omega)
  · show (Int64.ofNat a.positional).toInt = _
    rw [hp.positional]
    exact hofNat (by omega)
  · show (Int64.ofNat a.keywordOnly).toInt = _
    rw [hp.keywordOnly]
    exact hofNat (by omega)
  · show (a.flags &&& Code.restFlag != 0) = _
    rw [hp.flags, p.flags_bits.1]
  · show (a.flags &&& Code.keywordsFlag != 0) = _
    rw [hp.flags, p.flags_bits.2.1]
  · exact hnodup.sublist hp.leading.sublist
  · simpa [Assembly.code] using hsize

/-- The metadata of the code object is in order when that of its nested code objects is. -/
theorem Sound.validate_eq {a : Assembly} (h : a.Sound) (hsize : a.variableNames.size < 2 ^ 63)
    (hnested : ∀ child ∈ a.constants.toList.flatMap Const.children, Code.Accepted child)
    (serial : Nat) {bytes : List UInt8} (heven : bytes.length % 2 = 0) :
    (a.code serial bytes).validate = .ok () := by
  obtain ⟨p, hp⟩ := h.declared
  obtain ⟨hflags, hdeclares⟩ := hp.declares h.nodup hsize serial bytes
  obtain ⟨-, hbytes, hconstants, -, -⟩ := a.code_eq serial bytes
  rw [Code.validate_eq_ok_iff, Code.ownProblems_eq_nil_iff]
  refine ⟨⟨by rw [hbytes, heven], hdeclares.parameterProblems_eq, ?_, ?_⟩, ?_⟩
  · rw [hflags]
    exact p.flags_bits.2.2
  · rw [hconstants]
    intro k hk
    exact h.supported k (Array.mem_toList_iff.mp hk)
  · rw [Code.children, hconstants]
    exact hnested

/-- Assembling without mistakes. -/
theorem assemble_eq {a : Assembly} (hclean : a.mistakes = []) (hlinked : a.Linked) (serial : Nat)
    {bytes : List UInt8} (hstream : a.stream = .ok bytes)
    (hvalid : (a.code serial bytes).validate = .ok ()) :
    a.assemble serial = .ok (a.code serial bytes) := by
  have hdefined : a.undefinedLabels = [] := by
    rw [undefinedLabels, List.filterMap_eq_nil_iff]
    intro item hitem
    cases hlabel : item.label? with
    | none => rfl
    | some s =>
        obtain ⟨i, hi⟩ := List.mem_iff_getElem?.mp hitem
        obtain ⟨k, hk, -⟩ := hlinked i item s (by simpa using hi) hlabel
        simp [hk]
  simp [assemble, hclean, hdefined, hstream, hvalid, bind, Except.bind, pure, Except.pure]

/-- What is assembled has the stream of the assembly and is accepted. -/
theorem validate_of_assemble {a : Assembly} {serial : Nat} {code : Code}
    (h : a.assemble serial = .ok code) :
    ∃ bytes, a.stream = .ok bytes ∧ code = a.code serial bytes ∧ code.validate = .ok () := by
  unfold assemble at h
  by_cases hclean : (a.mistakes ++ a.undefinedLabels).isEmpty = true
  · cases hstream : a.stream with
    | error message => simp [hclean, hstream, bind, Except.bind, throw, throwThe,
        MonadExceptOf.throw] at h
    | ok bytes =>
        cases hvalid : (a.code serial bytes).validate with
        | error e => simp [hclean, hstream, hvalid, bind, Except.bind, pure, Except.pure] at h
        | ok u =>
            have hcode : a.code serial bytes = code := by
              simpa [hclean, hstream, hvalid, bind, Except.bind, pure, Except.pure] using h
            exact ⟨bytes, rfl, hcode.symm, by rw [← hcode, hvalid]⟩
  · simp [hclean, bind, Except.bind, throw, throwThe, MonadExceptOf.throw] at h

/-! ## Reading the stream back -/

/-- An instruction as it lies in the stream. -/
def placedAt (a : Assembly) (widths : List Nat) (i : Nat) (item : Item) : RawInstruction :=
  ⟨item.op, a.argument widths i item, startAt widths i, encodedSize (a.argument widths i item)⟩

/-- The pools of an assembly with the starts of its settled instructions. -/
def settledPools (a : Assembly) (widths : List Nat) : Pools :=
  ⟨a.name, a.constants, a.names, a.variableNames,
    startsOf (placed 0 (a.settledPairs widths)).toArray⟩

section

variable {a : Assembly} {widths : List Nat} (hsettled : a.needed widths = widths)
include hsettled

theorem getElem?_settled (i : Nat) :
    (placed 0 (a.settledPairs widths)).toArray[i]? = a.items[i]?.map (a.placedAt widths i) := by
  rw [List.getElem?_toArray, getElem?_placed, getElem?_settledPairs, ← startAt_eq_sum hsettled]
  cases a.items[i]? <;> simp [placedAt]

theorem length_encodeAll_settled :
    (encodeAll (a.settledPairs widths)).length = startAt widths a.items.size := by
  rw [length_encodeAll, startAt_eq_sum hsettled, List.take_of_length_le]
  rw [length_settledPairs]

/-- An instruction is as wide as its argument needs. -/
theorem getElem?_widths {i : Nat} {item : Item} (hitem : a.items[i]? = some item) :
    widths[i]? = some (1 + prefixCount (a.argument widths i item)) := by
  have hneeded : (a.needed widths)[i]? = some (1 + prefixCount (a.argument widths i item)) := by
    simp [needed, getElem?_arguments, hitem]
  rwa [hsettled] at hneeded

/-- An instruction ends where the next one starts. -/
theorem next_placedAt {i : Nat} {item : Item} (hitem : a.items[i]? = some item) :
    (a.placedAt widths i item).next = startAt widths (i + 1) := by
  rw [startAt_succ (getElem?_widths hsettled hitem)]
  rfl

/-- A jump may lead to any instruction. -/
theorem starts_settled {k : Nat} (hk : k < a.items.size) :
    (a.settledPools widths).Starts (startAt widths k) := by
  rw [Pools.starts_iff rfl (covers_placed 0 (a.settledPairs widths))]
  have hat := getElem?_settled hsettled k
  rw [Array.getElem?_eq_getElem hk] at hat
  exact ⟨_, Array.mem_of_getElem? hat, rfl⟩

/-- A jump stands for the place of its label. -/
theorem denotes_jump {i k : Nat} {item : Item} {s : String} (hitem : a.items[i]? = some item)
    (hlabel : item.label? = some s) (hjump : item.op.isJump = true)
    (hlookup : a.labels.lookup s = some k) (hk : k < a.items.size)
    (hforward : item.op.argKind ≠ .jumpAbsolute → i < k) :
    (a.settledPools widths).Denotes (a.placedAt widths i item)
      (.target (startAt widths k)) := by
  have hstarts := starts_settled hsettled hk
  by_cases habs : item.op.argKind = .jumpAbsolute
  · have harg : a.argument widths i item = startAt widths k := by
      simp [argument, hlabel, hlookup, habs]
    simpa [Pools.Denotes, placedAt, habs, harg] using hstarts
  · -- a relative jump counts from the next instruction
    have hrelative := Opcode.argKind_of_isJump hjump habs
    have harg : a.argument widths i item = startAt widths k - startAt widths (i + 1) := by
      simp [argument, hlabel, hlookup, habs]
    have htarget : (a.placedAt widths i item).next + (a.placedAt widths i item).arg =
        startAt widths k := by
      have hle := startAt_le widths (show i + 1 ≤ k from hforward habs)
      rw [next_placedAt hsettled hitem]
      show startAt widths (i + 1) + a.argument widths i item = _
      omega
    unfold Pools.Denotes
    rw [show (a.placedAt widths i item).op = item.op from rfl, hrelative, htarget]
    exact ⟨hstarts, rfl⟩

end

section

variable {start : Assembly} {requests : List Request}
  (hclean : (start.performAll requests).mistakes = []) (hstart : start.items = #[])
include hclean hstart

/-- Units can be made of every instruction when none of the requests is a mistake. -/
theorem emittable_settled (widths : List Nat) :
    ∀ q ∈ (start.performAll requests).settledPairs widths, Emittable q.1 q.2 := by
  intro q hq
  obtain ⟨i, hi⟩ := List.mem_iff_getElem?.mp hq
  rw [getElem?_settledPairs, Option.map_eq_some_iff] at hi
  obtain ⟨item, hitem, rfl⟩ := hi
  have hsound := item_sound hclean ((getElem?_items hclean hstart i).symm.trans hitem)
  refine ⟨hsound.op_ne, fun harg => ?_⟩
  cases hlabel : item.label? with
  | none => simpa [argument, hlabel] using hsound.arg_eq harg
  | some s =>
      -- a jump takes an argument
      have hjump := (hsound.labelled (by simp [hlabel])).1
      have hkind : item.op.argKind = .none := by
        by_contra hne
        simp [(Opcode.hasArg_iff_argKind_ne_none item.op).mpr hne] at harg
      simp [Opcode.isJump, hkind, ArgKind.isJump] at hjump

/-- Every argument fits its units; that of a jump since the stream is short. -/
theorem encodable_settled (hlinked : (start.performAll requests).Linked) {widths : List Nat}
    (hsettled : (start.performAll requests).needed widths = widths)
    (hshort : (encodeAll ((start.performAll requests).settledPairs widths)).length < 2 ^ 32) :
    ∀ q ∈ (start.performAll requests).settledPairs widths, Encodable q.1 q.2 := by
  intro q hq
  have hemittable := emittable_settled hclean hstart widths q hq
  refine ⟨hemittable.op_ne, ?_, hemittable.arg_eq⟩
  obtain ⟨i, hi⟩ := List.mem_iff_getElem?.mp hq
  rw [getElem?_settledPairs, Option.map_eq_some_iff] at hi
  obtain ⟨item, hitem, rfl⟩ := hi
  -- an argument that is given was checked when it was emitted, and one of a jump is an offset in
  -- the stream
  cases hlabel : item.label? with
  | none =>
      have hsound := item_sound hclean ((getElem?_items hclean hstart i).symm.trans hitem)
      simpa [argument, hlabel] using hsound.arg_lt
  | some s =>
      obtain ⟨k, hk, hle, -⟩ := hlinked i item s hitem hlabel
      rw [length_encodeAll_settled hsettled] at hshort
      have hbound := startAt_le widths hle
      simp only [argument, hlabel, hk, Option.getD_some]
      split <;> omega

end

/-- A plain instruction stands for something when its argument is meaningful. -/
theorem Meaningful.denotes {a : Assembly} {r : RawInstruction} (h : a.Meaningful r.op r.arg)
    (widths : List Nat) : ∃ o, (a.settledPools widths).Denotes r o := by
  unfold Meaningful at h
  unfold Pools.Denotes
  cases hkind : r.op.argKind with
  | none => exact ⟨_, rfl⟩
  | count => exact ⟨_, rfl⟩
  | flags => exact ⟨_, rfl⟩
  | const =>
      simp only [hkind] at h
      exact ⟨_, _, Array.getElem?_eq_getElem h, rfl⟩
  | name =>
      simp only [hkind] at h
      exact ⟨_, _, Array.getElem?_eq_getElem h, rfl⟩
  | slot =>
      simp only [hkind] at h
      exact ⟨_, _, Array.getElem?_eq_getElem h, rfl⟩
  | jumpAbsolute => simp [hkind] at h
  | jumpRelative => simp [hkind] at h
  | binaryOperator =>
      simp only [hkind] at h
      obtain ⟨o, ho⟩ := h
      exact ⟨_, o, by rw [ho]; cases o <;> rfl, rfl⟩
  | comparison =>
      simp only [hkind] at h
      obtain ⟨c, hc⟩ := h
      exact ⟨_, c, by rw [hc]; cases c <;> rfl, rfl⟩

/-- The code object of an assembly decodes when its settled stream does. -/
theorem exists_decode_code {a : Assembly} {widths : List Nat} {bytes : List UInt8}
    (hscan : scan a.name bytes = .ok (placed 0 (a.settledPairs widths)).toArray) (serial : Nat)
    (hdenotes : ∀ r ∈ (placed 0 (a.settledPairs widths)).toArray,
      ∃ o, (a.settledPools widths).Denotes r o) :
    ∃ l, (a.code serial bytes).decode = .ok l ∧
      l.raw = (placed 0 (a.settledPairs widths)).toArray ∧
      ∀ i ∈ l.instructions, (a.settledPools widths).Denotes i.toRawInstruction i.operand := by
  obtain ⟨hname, hbytes, hconstants, hnames, hvariables⟩ := a.code_eq serial bytes
  -- the pools of the code object are those the listing was made with
  have hpools : (a.code serial bytes).pools (placed 0 (a.settledPairs widths)).toArray =
      a.settledPools widths := by
    rw [Code.pools, hname, hconstants, hnames, hvariables]
    rfl
  obtain ⟨l, hdecode, hraw⟩ := Code.exists_decode (c := a.code serial bytes)
    (by rw [hname, hbytes, hscan]) (by rwa [hpools])
  refine ⟨l, hdecode, hraw, ?_⟩
  rw [← hpools, ← hraw]
  exact (Code.decode_eq_ok_iff.mp hdecode).2.2.2

/-- A listing that holds the instructions that requests add, each with its opcode and argument, and
in which jumps lead to the first instruction added behind their label. -/
structure Lists (start : Assembly) (requests : List Request) (l : Listing) : Prop where
  size_eq : l.instructions.size = (start.emitted requests).length
  reads : ∀ (i : Nat) (item : Item), (start.emitted requests)[i]? = some item →
    ∃ ins, l.instructions[i]? = some ins ∧ ins.op = item.op ∧
      (item.label? = none → ins.arg = item.arg)
  leads : ∀ (i : Nat) (item : Item) s before after, (start.emitted requests)[i]? = some item →
    item.label? = some s → requests = before ++ .label s :: after →
    ∃ ins ins', l.instructions[i]? = some ins ∧
      l.instructions[(start.emitted before).length]? = some ins' ∧
      ins.target? = some ins'.offset

section

variable {start : Assembly} {requests : List Request}
  (h : Regular start requests) {widths : List Nat}
  (hsettled : (start.performAll requests).needed widths = widths)
  (hstream : (start.performAll requests).stream =
    .ok (encodeAll ((start.performAll requests).settledPairs widths)))
include h hsettled

include hstream in
/-- Every argument fits its units. -/
theorem Regular.encodable (hstart : start.items = #[]) :
    ∀ q ∈ (start.performAll requests).settledPairs widths, Encodable q.1 q.2 :=
  encodable_settled h.clean hstart (h.linked hstart) hsettled (h.short _ hstream)

/-- Every instruction of the stream stands for something. -/
theorem Regular.denotes (hstart : start.items = #[]) {i : Nat} {item : Item}
    (hitem : (start.emitted requests)[i]? = some item) :
    ∃ o, ((start.performAll requests).settledPools widths).Denotes
        ((start.performAll requests).placedAt widths i item) o ∧
      ∀ s before after, item.label? = some s → requests = before ++ .label s :: after →
        o = .target (startAt widths (start.emitted before).length) := by
  have hsound := item_sound h.clean hitem
  have hat := (getElem?_items h.clean hstart i).trans hitem
  cases hlabel : item.label? with
  | none =>
      obtain ⟨before, r, after, hrequests, -, hr⟩ := emitted_split hitem
      obtain ⟨hgrows, -⟩ := clean_before h.clean hrequests
      -- without a label it cannot come from a jump
      have hplain : ∀ opcode s, r ≠ .jump opcode s := by
        rintro opcode s rfl
        have hname := (h.jumps _ _ _ _ hrequests).1
        obtain ⟨op, -, rfl⟩ := Option.map_eq_some_iff.mp hr
        simp [hname] at hlabel
      have hmeans := (h.meaningful r (by simp [hrequests])).item hgrows h.clean hr hplain
      have harg : (start.performAll requests).argument widths i item = item.arg := by
        simp [argument, hlabel]
      rw [← harg] at hmeans
      obtain ⟨o, ho⟩ := Meaningful.denotes
        (r := (start.performAll requests).placedAt widths i item) hmeans widths
      exact ⟨o, ho, by simp⟩
  | some s =>
      obtain ⟨k, hk, hlt, hforward, honly⟩ := h.jump_cases hstart hitem hlabel
      have hjump := (hsound.labelled (by simp [hlabel])).1
      refine ⟨_, denotes_jump hsettled hat hlabel hjump hk hlt hforward, ?_⟩
      intro s' before after hs hrequests
      obtain rfl : s = s' := by simpa using hs
      rw [honly before after hrequests]

include hstream in
/-- Decoding the code object reads back what was asked for. -/
theorem Regular.exists_decode (hstart : start.items = #[]) (serial : Nat) :
    ∃ l, ((start.performAll requests).code serial
        (encodeAll ((start.performAll requests).settledPairs widths))).decode = .ok l ∧
      Lists start requests l := by
  have hscan := scan_encodeAll (start.performAll requests).name
    (h.encodable hsettled hstream hstart)
  obtain ⟨l, hdecode, hraw, hdenotes⟩ := exists_decode_code hscan serial (by
    intro r hr
    obtain ⟨i, hi⟩ := Array.getElem?_of_mem hr
    rw [getElem?_settled hsettled, Option.map_eq_some_iff] at hi
    obtain ⟨item, hitem, rfl⟩ := hi
    rw [getElem?_items h.clean hstart] at hitem
    obtain ⟨o, ho, -⟩ := h.denotes hsettled hstart hitem
    exact ⟨o, ho⟩)
  have hfind {i : Nat} {item : Item} (hitem : (start.emitted requests)[i]? = some item) :
      ∃ ins, l.instructions[i]? = some ins ∧
        ins.toRawInstruction = (start.performAll requests).placedAt widths i item := by
    have hat := getElem?_settled hsettled i
    rw [← hraw, Listing.getElem?_raw, getElem?_items h.clean hstart, hitem, Option.map_some,
      Option.map_eq_some_iff] at hat
    exact hat
  refine ⟨l, hdecode, ?_, ?_, ?_⟩
  · have hsize := congrArg Array.size hraw
    have hitems := congrArg List.length (items_eq h.clean hstart)
    simp only [Listing.raw, Array.size_map, List.size_toArray, length_placed,
      length_settledPairs] at hsize
    simpa [hsize] using hitems
  · intro i item hitem
    obtain ⟨ins, hins, heq⟩ := hfind hitem
    refine ⟨ins, hins, congrArg RawInstruction.op heq, fun hlabel => ?_⟩
    rw [congrArg RawInstruction.arg heq]
    simp [placedAt, argument, hlabel]
  · intro i item s before after hitem hlabel hrequests
    obtain ⟨k, -, hlt, -, honly⟩ := h.jump_cases hstart hitem hlabel
    obtain rfl := honly before after hrequests
    rw [← Array.length_toList, items_eq h.clean hstart] at hlt
    obtain ⟨ins, hins, heq⟩ := hfind hitem
    obtain ⟨ins', hins', heq'⟩ := hfind (List.getElem?_eq_getElem hlt)
    refine ⟨ins, ins', hins, hins', ?_⟩
    -- both operands stand for the same argument
    obtain ⟨o, ho, htarget⟩ := h.denotes hsettled hstart hitem
    have hoperand := hdenotes ins (Array.mem_of_getElem? hins)
    rw [← Pools.operand_eq_ok_iff, heq] at hoperand
    rw [← Pools.operand_eq_ok_iff, hoperand] at ho
    rw [Instruction.target?, Except.ok.inj ho, htarget s before after hlabel hrequests]
    exact congrArg some (congrArg RawInstruction.offset heq').symm

end

/-- Requests that fit together are read back. When the code objects among the constants are
accepted, the assembly gives a code object, and decoding that gives the instructions that were asked
for. A list of names in memory is shorter than the largest count. -/
theorem exists_decode_assemble {name file id : String} {requests : List Request}
    (h : Regular (blank name file id) requests)
    (hnested : ∀ child ∈ ((blank name file id).performAll requests).constants.toList.flatMap
      Const.children, Code.Accepted child)
    (hsize : ((blank name file id).performAll requests).variableNames.size < 2 ^ 63)
    (serial : Nat) :
    ∃ code listing, ((blank name file id).performAll requests).assemble serial = .ok code ∧
      code.decode = .ok listing ∧ Lists (blank name file id) requests listing := by
  obtain ⟨widths, hsettled, hstream⟩ := stream_eq (h.linked rfl) (plain_items h.clean rfl)
  -- every unit is two bytes, so the stream passes validation
  have heven : (encodeAll (((blank name file id).performAll requests).settledPairs
      widths)).length % 2 = 0 := by
    rw [length_encodeAll_settled hsettled]
    exact Nat.mul_mod_right _ _
  have hsound := (sound_start name file id).performAll h.clean
  have hvalid := hsound.validate_eq hsize hnested serial heven
  obtain ⟨listing, hdecode, hlists⟩ := h.exists_decode hsettled hstream rfl serial
  exact ⟨_, listing, assemble_eq h.clean (h.linked rfl) serial hstream hvalid, hdecode, hlists⟩

/-- A jump over an instruction. -/
theorem exists_decode_assemble_jump :
    let requests : List Request := [.jump Opcode.jumpForward.number "end", .loadConst .none,
      .label "end", .emit Opcode.returnValue.number 0]
    Regular (blank "main" "" "main") requests ∧
      (∀ child ∈ ((blank "main" "" "main").performAll requests).constants.toList.flatMap
        Const.children, Code.Accepted child) ∧
      ((blank "main" "" "main").performAll requests).variableNames.size < 2 ^ 63 ∧
      ∃ code listing, ((blank "main" "" "main").performAll requests).assemble 0 = .ok code ∧
        code.decode = .ok listing ∧ Lists (blank "main" "" "main") requests listing := by
  intro requests
  -- that the requests are regular is checked one by one
  have hregular : Regular (blank "main" "" "main") requests := by
    refine ⟨by decide +kernel, ?_, ?_, ?_⟩
    · simp only [requests, List.forall_mem_cons, Request.Meaningful, true_and]
      refine ⟨?_, by simp⟩
      intro op hop
      obtain rfl : Opcode.returnValue = op := by simpa using hop
      trivial
    · intro before opcode label after hsplit
      cases before with
      | nil =>
          obtain ⟨⟨rfl, rfl⟩, rfl⟩ : (_ ∧ _) ∧ _ := by simpa [requests] using hsplit
          exact ⟨by decide, [_, _], [_], rfl, ⟨_, List.mem_singleton_self _, rfl⟩, by simp⟩
      | cons r before =>
          have htail := congrArg List.tail hsplit
          have hmem : Request.jump opcode label ∈ requests.tail := by simp [htail]
          simp [requests] at hmem
    · intro bytes hbytes
      have hstream : ((blank "main" "" "main").performAll requests).stream =
          .ok [110, 2, 100, 0, 83, 0] := by decide +kernel
      obtain rfl := Except.ok.inj (hstream.symm.trans hbytes)
      decide
  have hnested : ∀ child ∈ ((blank "main" "" "main").performAll requests).constants.toList.flatMap
      Const.children, Code.Accepted child := by
    have hconstants : ((blank "main" "" "main").performAll requests).constants = #[.none] := by cbv
    rw [hconstants]
    simp [Const.children]
  have hsize : ((blank "main" "" "main").performAll requests).variableNames.size < 2 ^ 63 := by
    decide +kernel
  exact ⟨hregular, hnested, hsize, exists_decode_assemble hregular hnested hsize 0⟩

/-- A nested code object that is not accepted, here one of a single byte, is a mistake that only
assembling finds. -/
theorem not_assemble_of_odd_child :
    let requests : List Request :=
      [.loadConst (.code { serial := 1, id := ⟨"n", by decide⟩, name := "n", instructions := [1] }),
        .emit Opcode.returnValue.number 0]
    Regular (blank "m" "" "m") requests ∧
      ((blank "m" "" "m").performAll requests).variableNames.size < 2 ^ 63 ∧
      ¬ ∃ code, ((blank "m" "" "m").performAll requests).assemble 0 = .ok code := by
  intro requests
  have hconstants : ((blank "m" "" "m").performAll requests).constants =
      #[.code { serial := 1, id := ⟨"n", by decide⟩, name := "n", instructions := [1] }] := by cbv
  have hstream : ((blank "m" "" "m").performAll requests).stream = .ok [100, 0, 83, 0] := by
    decide +kernel
  constructor
  · refine ⟨by decide +kernel, ?_, ?_, ?_⟩
    · simp only [requests, List.forall_mem_cons, Request.Meaningful, true_and]
      refine ⟨?_, by simp⟩
      intro op hop
      obtain rfl : Opcode.returnValue = op := by simpa using hop
      trivial
    · intro before opcode label after hsplit
      have hmem : Request.jump opcode label ∈ requests := by simp [hsplit]
      simp [requests] at hmem
    · intro bytes hbytes
      obtain rfl := Except.ok.inj (hstream.symm.trans hbytes)
      decide
  · refine ⟨by decide +kernel, ?_⟩
    -- assembling checks the nested code, too, whose length is odd
    rintro ⟨code, hcode⟩
    obtain ⟨bytes, -, rfl, hvalid⟩ := validate_of_assemble hcode
    have hchildren := (Code.validate_eq_ok_iff.mp hvalid).2
    rw [Code.children, (code_eq _ 0 bytes).2.2.1, hconstants] at hchildren
    obtain ⟨child, hchild, hok⟩ := hchildren _ (List.mem_singleton_self _)
    have heven := (Code.ownProblems_eq_nil_iff.mp (Code.validate_eq_ok_iff.mp hok).1).1
    rw [← Option.some.inj hchild] at heven
    exact absurd heven (by decide)

end Assembly

end Wordcode
