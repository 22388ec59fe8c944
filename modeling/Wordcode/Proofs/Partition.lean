import Wordcode.Proofs.Prefixes
import Mathlib

namespace Wordcode

/-! # Partition

A listing cuts its stream into instructions. They follow one another from the start to the end
without a gap, each of them is the reading of its own bytes, and what an argument stands for is
found in a pool or among the instructions.

* `Listing.Partitions` says this of a listing.
* `slice_of_instructionAt?`: the bytes of an instruction.
* `Listing.partitions_of_decode`: every listing that decoding gives is of this kind.
-/

/-! ## Following one another -/

section

variable {start stop : Nat} {rs : List RawInstruction}

theorem Covers.offset_zero (h : Covers start rs stop) {r : RawInstruction} (hr : rs[0]? = some r) :
    r.offset = start := by
  cases rs with
  | nil => simp at hr
  | cons r₀ rs =>
      obtain rfl : r₀ = r := by simpa using hr
      exact h.1

/-- The next instruction starts where one ends. -/
theorem Covers.offset_succ (h : Covers start rs stop) {j : Nat} {r r' : RawInstruction}
    (hr : rs[j]? = some r) (hr' : rs[j + 1]? = some r') : r'.offset = r.next := by
  induction rs generalizing start j with
  | nil => simp at hr
  | cons r₀ rs ih =>
      obtain ⟨hoffset, -, htail⟩ := h
      rw [List.getElem?_cons_succ] at hr'
      cases j with
      | zero =>
          obtain rfl : r₀ = r := by simpa using hr
          rw [htail.offset_zero hr', RawInstruction.next, hoffset]
      | succ j =>
          rw [List.getElem?_cons_succ] at hr
          exact ih htail hr hr'

/-- The last instruction ends where the stream does. -/
theorem Covers.next_last (h : Covers start rs stop) {r : RawInstruction}
    (hr : rs.getLast? = some r) : r.next = stop := by
  induction rs generalizing start with
  | nil => simp at hr
  | cons r₀ rs ih =>
      obtain ⟨hoffset, -, htail⟩ := h
      cases rs with
      | nil =>
          obtain rfl : r₀ = r := by simpa using hr
          rw [RawInstruction.next, hoffset]
          exact htail
      | cons r₁ rs => exact ih htail (by simpa using hr)

end

/-! ## The bytes of an instruction -/

/-- The prefixes in front of a unit are the units there. -/
theorem drop_take_prefixesAt (units : List (UInt8 × UInt8)) (n : Nat) :
    (units.take n).drop (n - (prefixesAt units n).length) =
      (prefixesAt units n).map fun b => (Opcode.extendedArg.number, b) := by
  induction n with
  | zero => simp [prefixesAt]
  | succ n ih =>
      have hle := length_prefixesAt_le units n
      have hfew : (prefixesAt units (n + 1)).length = 0 → prefixesAt units (n + 1) = [] :=
        List.length_eq_zero_iff.mp
      unfold prefixesAt
      split
      · rename_i opcode b hat
        split
        · -- one more prefix behind those that are there already
          rename_i hext
          have hlength : n - (prefixesAt units n).length ≤ (units.take n).length := by
            have hlt := (List.getElem?_eq_some_iff.mp hat).1
            simp
            omega
          rw [List.length_append, List.length_singleton, Nat.add_sub_add_right, List.take_add_one,
            hat, List.drop_append_of_le_length hlength, ih, hext]
          simp
        · simp
      · simp

/-- The bytes of units one after another. -/
def bytesOf (units : List (UInt8 × UInt8)) : List UInt8 :=
  units.flatMap fun (opcode, b) => [opcode, b]

theorem bytesOf_append (units units' : List (UInt8 × UInt8)) :
    bytesOf (units ++ units') = bytesOf units ++ bytesOf units' := by
  simp [bytesOf]

theorem length_bytesOf (units : List (UInt8 × UInt8)) :
    (bytesOf units).length = Opcode.unitSize * units.length := by
  simp [bytesOf, Opcode.unitSize, Nat.mul_comm]

theorem bytesOf_unitsOf {bytes : List UInt8} (heven : bytes.length % Opcode.unitSize = 0) :
    bytesOf (unitsOf bytes) = bytes := by
  fun_induction unitsOf bytes with
  | case1 opcode b rest ih =>
      have heven' : rest.length % Opcode.unitSize = 0 := by
        simp only [Opcode.unitSize, List.length_cons] at heven ⊢
        omega
      show opcode :: b :: bytesOf (unitsOf rest) = opcode :: b :: rest
      rw [ih heven']
  | case2 bytes hshort =>
      rw [Nat.mod_eq_of_lt (length_lt_unitSize hshort), List.length_eq_zero_iff] at heven
      rw [heven]
      rfl

/-- The bytes of units in the middle of a stream. -/
theorem take_drop_bytesOf (before middle after : List (UInt8 × UInt8)) :
    ((bytesOf (before ++ middle ++ after)).drop (Opcode.unitSize * before.length)).take
      (Opcode.unitSize * middle.length) = bytesOf middle := by
  rw [List.append_assoc, bytesOf_append, List.drop_left' (length_bytesOf before), bytesOf_append,
    List.take_left' (length_bytesOf middle)]

/-- An instruction as its bytes have it: the prefixes, then the opcode with the last byte. -/
structure RawInstruction.Reads (r : RawInstruction) (stream prefixes : List UInt8) (last : UInt8) :
    Prop where
  op_ne : r.op ≠ .extendedArg
  few : prefixes.length ≤ maxPrefixes
  size_eq : r.size = Opcode.unitSize * (prefixes.length + 1)
  bytes_eq : (stream.drop r.offset).take r.size =
    prefixes.flatMap (fun b => [Opcode.extendedArg.number, b]) ++ [r.op.number, last]
  arg_eq : r.arg = if r.op.hasArg then bigEndianValue (prefixes ++ [last]) else 0
  bare : r.op.hasArg = false → prefixes = []

/-- A stream around the instruction that a unit ends: what comes before, the prefixes with the unit
itself, and what comes after. -/
theorem split_at_instruction {units : List (UInt8 × UInt8)} {n : Nat} {u : UInt8 × UInt8}
    (hat : units[n]? = some u) :
    units = units.take (n - (prefixesAt units n).length) ++
      ((prefixesAt units n).map (fun b => (Opcode.extendedArg.number, b)) ++ [u]) ++
        units.drop (n + 1) := by
  have hn := (List.getElem?_eq_some_iff.mp hat).1
  have hbefore := List.take_append_drop (n - (prefixesAt units n).length) (units.take n)
  rw [drop_take_prefixesAt, List.take_take, Nat.min_eq_left (Nat.sub_le ..)] at hbefore
  calc units = units.take n ++ (u :: units.drop (n + 1)) := by
        rw [← (List.getElem?_eq_some_iff.mp hat).2, ← List.drop_eq_getElem_cons hn,
          List.take_append_drop]
    _ = _ := by
        rw [← hbefore]
        simp

/-- The instruction that a unit ends is the reading of the prefixes there and this unit. -/
theorem reads_of_instructionAt? {bytes : List UInt8} {n : Nat} {r : RawInstruction}
    (heven : bytes.length % Opcode.unitSize = 0)
    (hfits : ∀ j < (unitsOf bytes).length, Fits (unitsOf bytes) j)
    (hr : instructionAt? (unitsOf bytes) n = some r) :
    ∃ prefixes last, r.Reads bytes prefixes last := by
  have hn : n < (unitsOf bytes).length := by
    by_contra hge
    have hnone : (unitsOf bytes)[n]? = none := List.getElem?_eq_none_iff.mpr (by omega)
    simp [instructionAt?, hnone] at hr
  obtain ⟨op, last, hat, -, hbare⟩ := hfits n hn
  have hfew := length_prefixesAt_le_max fun j (hj : j < n) => hfits j (by omega)
  have hext : op ≠ .extendedArg := by
    rintro rfl
    simp [instructionAt?_eq hat] at hr
  rw [instructionAt?_eq hat, if_neg hext] at hr
  obtain rfl := Option.some.inj hr
  refine ⟨prefixesAt (unitsOf bytes) n, last, hext, hfew, rfl, ?_, rfl, hbare⟩
  have hle := length_prefixesAt_le (unitsOf bytes) n
  -- the bytes of the instruction are cut out of the stream
  have hslice := take_drop_bytesOf
    ((unitsOf bytes).take (n - (prefixesAt (unitsOf bytes) n).length))
    ((prefixesAt (unitsOf bytes) n).map (fun b => (Opcode.extendedArg.number, b)) ++
      [(op.number, last)]) ((unitsOf bytes).drop (n + 1))
  rw [← split_at_instruction hat, bytesOf_unitsOf heven, List.length_take_of_le (by omega),
    List.length_append, List.length_map, List.length_singleton] at hslice
  rw [hslice, bytesOf_append, bytesOf, List.flatMap_map]
  rfl

/-! ## Listings -/

/-- What the argument of an instruction is found in, if it is found in a pool. -/
structure Instruction.Refers (i : Instruction) (c : Code) : Prop where
  const : i.op.argKind = .const → ∃ k, c.constants[i.arg]? = some k ∧ i.operand = .const k
  name : i.op.argKind = .name → ∃ s, c.names[i.arg]? = some s ∧ i.operand = .name s
  slot : i.op.argKind = .slot → ∃ s, c.variableNames[i.arg]? = some s ∧ i.operand = .slot s

/-- The place that the argument of a jump stands for: an offset, or a distance from the end of the
instruction. -/
def RawInstruction.destination (r : RawInstruction) : Nat :=
  if r.op.argKind = .jumpRelative then r.next + r.arg else r.arg

/-- The instructions of a listing partition its stream. -/
structure Listing.Partitions (l : Listing) : Prop where
  empty : l.instructions = #[] → l.endOffset = 0
  first : ∀ i, l.instructions[0]? = some i → i.offset = 0
  next : ∀ j i i', l.instructions[j]? = some i → l.instructions[j + 1]? = some i' →
    i'.offset = i.next
  last : ∀ i, l.instructions.back? = some i → i.next = l.endOffset
  reads : ∀ i ∈ l.instructions, ∃ prefixes last, i.Reads l.code.instructions prefixes last
  index : ∀ (offset : Int) (j : Nat), l.indexOf? offset = some j ↔
    ∃ i, l.instructions[j]? = some i ∧ (i.offset : Int) = offset
  refers : ∀ i ∈ l.instructions, i.Refers l.code
  leads : ∀ i ∈ l.instructions, i.op.isJump = true →
    i.target? = some i.destination ∧ ∃ i' ∈ l.instructions, i'.offset = i.destination

section

variable {c : Code} {l : Listing} (h : c.decode = .ok l)
include h

/-- What an operand stands for. -/
theorem Listing.denotes {i : Instruction} (hi : i ∈ l.instructions) :
    (c.pools l.raw).Denotes i.toRawInstruction i.operand :=
  (Code.decode_eq_ok_iff.mp h).2.2.2 i hi

theorem Listing.refers_of_decode {i : Instruction} (hi : i ∈ l.instructions) : i.Refers c := by
  have hdenotes := Listing.denotes h hi
  unfold Pools.Denotes at hdenotes
  refine ⟨?_, ?_, ?_⟩
  · intro hkind
    rw [hkind] at hdenotes
    simpa [Code.pools] using hdenotes
  · intro hkind
    rw [hkind] at hdenotes
    simpa [Code.pools] using hdenotes
  · intro hkind
    rw [hkind] at hdenotes
    simpa [Code.pools] using hdenotes

/-- A jump leads to an instruction. -/
theorem Listing.leads_of_decode {i : Instruction} (hi : i ∈ l.instructions)
    (hjump : i.op.isJump = true) :
    i.target? = some i.destination ∧ ∃ i' ∈ l.instructions, i'.offset = i.destination := by
  have hdenotes := Listing.denotes h hi
  unfold Pools.Denotes at hdenotes
  unfold Opcode.isJump at hjump
  -- a jump is absolute or relative
  cases hkind : i.op.argKind with
  | jumpAbsolute =>
      simp only [hkind] at hdenotes
      obtain ⟨hstarts, hoperand⟩ := hdenotes
      have hplace : i.destination = i.arg := by simp [RawInstruction.destination, hkind]
      rw [hplace]
      exact ⟨by simp [Instruction.target?, hoperand], (Listing.starts_iff h).mp hstarts⟩
  | jumpRelative =>
      simp only [hkind] at hdenotes
      obtain ⟨hstarts, hoperand⟩ := hdenotes
      have hplace : i.destination = i.next + i.arg := by simp [RawInstruction.destination, hkind]
      rw [hplace]
      exact ⟨by simp [Instruction.target?, hoperand], (Listing.starts_iff h).mp hstarts⟩
  | none | count | const | name | slot | binaryOperator | comparison | flags =>
      simp [hkind, ArgKind.isJump] at hjump

/-- Decoding partitions the stream of a code object. -/
theorem Listing.partitions_of_decode : l.code = c ∧ l.Partitions := by
  obtain ⟨hcode, hscan, -, -⟩ := Code.decode_eq_ok_iff.mp h
  -- the scanned instructions cover the stream without gaps
  have hcovers := Listing.covers_raw h
  have hraw {j : Nat} {i : Instruction} (hi : l.instructions[j]? = some i) :
      l.raw.toList[j]? = some i.toRawInstruction := by
    rw [Array.getElem?_toList, Listing.getElem?_raw, hi, Option.map_some]
  obtain ⟨heven, hfits, -, hlist⟩ := scan_eq_ok_iff_fits.mp hscan
  refine ⟨hcode, ?_, ?_, ?_, ?_, ?_, fun offset j => Listing.indexOf?_eq_some_iff h,
    fun i hi => hcode ▸ Listing.refers_of_decode h hi, fun i => Listing.leads_of_decode h⟩
  · intro hnone
    have hnil : l.raw.toList = [] := by simp [Listing.raw, hnone]
    rw [hnil] at hcovers
    exact hcovers.symm
  · intro i hi
    exact hcovers.offset_zero (hraw hi)
  · intro j i i' hi hi'
    exact hcovers.offset_succ (hraw hi) (hraw hi')
  · intro i hi
    refine hcovers.next_last (r := i.toRawInstruction) ?_
    simp [Listing.raw, List.getLast?_eq_getElem?, ← Array.back?_eq_getElem?, hi]
  · intro i hi
    have hmem : i.toRawInstruction ∈ l.raw.toList :=
      Array.mem_toList_iff.mpr (Listing.mem_raw.mpr ⟨i, hi, rfl⟩)
    rw [hlist, List.mem_filterMap] at hmem
    obtain ⟨n, -, hn⟩ := hmem
    rw [hcode]
    exact reads_of_instructionAt? heven hfits hn

end

/-- A stream with a prefix that says nothing, one that does, and jumps both ways. -/
theorem Listing.partitions_of_decode_prefixed :
    let code : Code :=
      { name := "main", constants := [.int 5]
        instructions := [144, 0, 100, 0, 110, 4, 144, 1, 103, 2, 9, 7, 113, 0] }
    let listing : Listing :=
      { code
        instructions :=
          #[⟨⟨.loadConst, 0, 0, 4⟩, .const (.int 5)⟩, ⟨⟨.jumpForward, 4, 4, 2⟩, .target 10⟩,
            ⟨⟨.buildList, 258, 6, 4⟩, .number 258⟩, ⟨⟨.nop, 0, 10, 2⟩, .none⟩,
            ⟨⟨.jumpAbsolute, 0, 12, 2⟩, .target 0⟩]
        starts := #[some 0, none, some 1, some 2, none, some 3, some 4] }
    code.decode = .ok listing ∧ listing.code = code ∧ listing.Partitions := by
  intro code listing
  have hdecode : code.decode = .ok listing := by cbv
  exact ⟨hdecode, Listing.partitions_of_decode hdecode⟩

end Wordcode
