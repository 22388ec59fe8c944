import Wordcode.Assembly
import Wordcode.Proofs.Decoding
import Wordcode.Proofs.Layout
import Mathlib

namespace Wordcode

/-! # Encoding

Scanning undoes encoding: the units of an instruction are read back as that instruction, whatever
was read before and whatever comes after. Units carry the low 32 bits of an argument, and all of one
that has no more.

* `foldlM_encode` reads one instruction back.
* `scan_encodeAll_carried` reads a whole stream back; `placed` says where its instructions lie.
* `scan_encodeAll`: with arguments of at most 32 bits nothing is lost.
-/

/-- An opcode with an argument that its units can carry. -/
structure Encodable (op : Opcode) (arg : Nat) : Prop where
  op_ne : op ≠ .extendedArg
  arg_lt : arg < 2 ^ 32
  arg_eq : op.hasArg = false → arg = 0

/-- An opcode with an argument that units can be made of. -/
structure Emittable (op : Opcode) (arg : Nat) : Prop where
  op_ne : op ≠ .extendedArg
  arg_eq : op.hasArg = false → arg = 0

theorem Encodable.emittable {op : Opcode} {arg : Nat} (h : Encodable op arg) : Emittable op arg :=
  ⟨h.op_ne, h.arg_eq⟩

/-- An instruction with the part of its argument that units carry. -/
def RawInstruction.carried (r : RawInstruction) : RawInstruction :=
  { r with arg := r.arg % 2 ^ 32 }

/-- The number of bytes of an encoded instruction. -/
def encodedSize (arg : Nat) : Nat := Opcode.unitSize * (1 + Assembly.prefixCount arg)

theorem unitsOf_append {bytes : List UInt8} (heven : bytes.length % Opcode.unitSize = 0)
    (rest : List UInt8) : unitsOf (bytes ++ rest) = unitsOf bytes ++ unitsOf rest := by
  fun_induction unitsOf bytes with
  | case1 op arg bytes ih =>
      have heven' : bytes.length % Opcode.unitSize = 0 := by
        simp only [Opcode.unitSize, List.length_cons] at heven ⊢
        omega
      simp [unitsOf, ih heven']
  | case2 bytes hshort =>
      rw [Nat.mod_eq_of_lt (length_lt_unitSize hshort), List.length_eq_zero_iff] at heven
      rw [heven]
      rfl

@[simp]
theorem Assembly.length_encode (op : Opcode) (arg : Nat) :
    (encode op arg).length = encodedSize arg := by
  simp [encode, encodedSize, Opcode.unitSize, List.length_flatMap]
  omega

/-! ## One instruction -/

/-- Reading a prefix. -/
theorem Scan.step_prefix {name : String} {s : Scan} (b : UInt8)
    (hpending : s.pending < maxPrefixes) :
    s.step name (Opcode.extendedArg.number, b) =
      .ok { s with
        offset := s.offset + Opcode.unitSize, start := s.first, pending := s.pending + 1,
        high := s.high * 256 + b.toNat } := by
  simp [Scan.step, Scan.first, Nat.ne_of_lt hpending]

/-- Reading the unit that ends an instruction. -/
theorem Scan.step_op (name : String) {s : Scan} {op : Opcode} (b : UInt8) (hop : op ≠ .extendedArg)
    (harg : op.hasArg = false → s.pending = 0 ∧ s.high * 256 + b.toNat = 0) :
    s.step name (op.number, b) =
      .ok { offset := s.offset + Opcode.unitSize,
            done := s.done.push ⟨op, s.high * 256 + b.toNat, s.first,
              s.offset + Opcode.unitSize - s.first⟩ } := by
  cases h : op.hasArg with
  | true => simp [Scan.step, Scan.first, hop, h]
  | false =>
      obtain ⟨hpending, hzero⟩ := harg h
      simp [Scan.step, Scan.first, hop, h, hpending, hzero]

/-- The units of an encoded instruction: the high bytes of the argument, most significant first,
then the opcode with the lowest byte. -/
theorem unitsOf_encode (op : Opcode) (arg : Nat) :
    unitsOf (Assembly.encode op arg) =
      (List.range (Assembly.prefixCount arg)).reverse.map (fun k =>
        (Opcode.extendedArg.number, UInt8.ofNat (arg >>> (8 * (k + 1))))) ++
        [(op.number, UInt8.ofNat arg)] := by
  have hprefixes (ks : List Nat) (rest : List UInt8) :
      unitsOf (ks.flatMap (fun k =>
        [Opcode.extendedArg.number, UInt8.ofNat (arg >>> (8 * (k + 1)))]) ++ rest) =
        ks.map (fun k => (Opcode.extendedArg.number, UInt8.ofNat (arg >>> (8 * (k + 1))))) ++
          unitsOf rest := by
    induction ks with
    | nil => rfl
    | cons k ks ih => simp [unitsOf, ih]
  rw [Assembly.encode, hprefixes]
  rfl

/-- The prefixes leave their bytes, most significant first, in the high part of the argument. -/
theorem foldlM_prefixes (name : String) (arg : Nat) {n : Nat} {s : Scan}
    (hpending : s.pending + n ≤ maxPrefixes) :
    ∃ s', ((List.range n).reverse.map fun k =>
        (Opcode.extendedArg.number, UInt8.ofNat (arg >>> (8 * (k + 1))))).foldlM
          (Scan.step name) s = .ok s' ∧
      s'.first = s.first ∧ s'.offset = s.offset + Opcode.unitSize * n ∧
      s'.high = s.high * 256 ^ n + arg / 256 % 256 ^ n ∧ s'.done = s.done ∧
      (s'.pending = 0 ↔ s.pending = 0 ∧ n = 0) := by
  induction n generalizing s with
  | zero => exact ⟨s, rfl, rfl, rfl, by simp [Nat.mod_one], rfl, by simp⟩
  | succ n ih =>
      -- the most significant byte comes first, so the scan goes on from one more prefix
      let s₁ : Scan := { s with
        offset := s.offset + Opcode.unitSize, start := s.first, pending := s.pending + 1,
        high := s.high * 256 + (UInt8.ofNat (arg >>> (8 * (n + 1)))).toNat }
      have hstep : s.step name
          (Opcode.extendedArg.number, UInt8.ofNat (arg >>> (8 * (n + 1)))) = .ok s₁ :=
        Scan.step_prefix _ (by omega)
      obtain ⟨s', hrun, hfirst, hoffset, hhigh, hdone, hzero⟩ :=
        ih (s := s₁) (show s.pending + 1 + n ≤ maxPrefixes by omega)
      refine ⟨s', ?_, ?_, ?_, ?_, hdone, ?_⟩
      · rw [List.range_succ, List.reverse_append]
        simpa [hstep, bind, Except.bind] using hrun
      · rw [hfirst]
        simp [s₁, Scan.first]
      · rw [hoffset]
        simp only [s₁, Nat.mul_add]
        omega
      · have hbyte : arg >>> (8 * (n + 1)) = arg / 256 / 256 ^ n := by
          rw [Nat.shiftRight_eq_div_pow, Nat.div_div_eq_div_mul, Nat.pow_mul, Nat.pow_succ']
        rw [hhigh, Nat.mod_pow_succ]
        simp only [s₁, UInt8.toNat_ofNat', hbyte, Nat.pow_succ]
        ring
      · simp [hzero, s₁]

/-- The bytes that the prefixes have room for, and the lowest one. -/
theorem mod_pow_prefixCount (arg : Nat) :
    arg / 256 % 256 ^ Assembly.prefixCount arg * 256 + arg % 256 = arg % 2 ^ 32 := by
  unfold Assembly.prefixCount
  split_ifs <;> omega

/-- A scan reads an encoded instruction back. -/
theorem foldlM_encode {name : String} {op : Opcode} {arg : Nat} (h : Emittable op arg)
    (offset : Nat) (done : Array RawInstruction) :
    (unitsOf (Assembly.encode op arg)).foldlM (Scan.step name) { offset, done } =
      .ok { offset := offset + encodedSize arg,
            done := done.push (⟨op, arg, offset, encodedSize arg⟩ : RawInstruction).carried } := by
  obtain ⟨s, hrun, hfirst, hoffset, hhigh, hdone, hzero⟩ :=
    foldlM_prefixes name arg (n := Assembly.prefixCount arg)
      (s := { offset, done }) (by simpa [maxPrefixes] using Assembly.prefixCount_le arg)
  have hlast : s.high * 256 + (UInt8.ofNat arg).toNat = arg % 2 ^ 32 := by
    rw [hhigh, Nat.zero_mul, Nat.zero_add, UInt8.toNat_ofNat']
    exact mod_pow_prefixCount arg
  -- an opcode without argument has no prefixes either
  have hnone : op.hasArg = false → s.pending = 0 ∧ s.high * 256 + (UInt8.ofNat arg).toNat = 0 := by
    intro harg
    obtain rfl := h.arg_eq harg
    exact ⟨hzero.mpr ⟨rfl, rfl⟩, hlast⟩
  have hstep := Scan.step_op name (UInt8.ofNat arg) h.op_ne hnone
  have hsize : s.offset + Opcode.unitSize = offset + encodedSize arg := by
    rw [hoffset, encodedSize, Nat.mul_add]
    show offset + _ + _ = _
    omega
  rw [hlast, show s.first = offset from hfirst, hsize, Nat.add_sub_cancel_left, hdone] at hstep
  rw [unitsOf_encode, List.foldlM_append, hrun]
  simp only [bind, Except.bind, List.foldlM_cons, hstep, List.foldlM_nil, pure, Except.pure,
    RawInstruction.carried]

/-! ## A stream of instructions -/

/-- The encoded instructions one after another. -/
def encodeAll (pairs : List (Opcode × Nat)) : List UInt8 :=
  pairs.flatMap fun (op, arg) => Assembly.encode op arg

/-- The instructions as they lie in the stream from an offset on. -/
def placed : Nat → List (Opcode × Nat) → List RawInstruction
  | _, [] => []
  | offset, (op, arg) :: pairs =>
    ⟨op, arg, offset, encodedSize arg⟩ :: placed (offset + encodedSize arg) pairs

theorem length_placed (offset : Nat) (pairs : List (Opcode × Nat)) :
    (placed offset pairs).length = pairs.length := by
  induction pairs generalizing offset with
  | nil => rfl
  | cons p pairs ih => simp [placed, ih]

theorem length_encodeAll (pairs : List (Opcode × Nat)) :
    (encodeAll pairs).length = (pairs.map fun p => encodedSize p.2).sum := by
  simp [encodeAll, List.length_flatMap]

/-- The instruction at a position starts after all those before it. -/
theorem getElem?_placed (offset : Nat) (pairs : List (Opcode × Nat)) (i : Nat) :
    (placed offset pairs)[i]? = pairs[i]?.map fun (op, arg) =>
      ⟨op, arg, offset + ((pairs.take i).map fun p => encodedSize p.2).sum, encodedSize arg⟩ := by
  induction pairs generalizing offset i with
  | nil => rfl
  | cons p pairs ih =>
      cases i with
      | zero => simp [placed]
      | succ i => simp [placed, ih, Nat.add_assoc]

theorem covers_placed (offset : Nat) (pairs : List (Opcode × Nat)) :
    Covers offset (placed offset pairs) (offset + (encodeAll pairs).length) := by
  rw [length_encodeAll]
  induction pairs generalizing offset with
  | nil => rfl
  | cons p pairs ih =>
      refine ⟨rfl, ⟨_, Nat.add_pos_left Nat.one_pos _, rfl⟩, ?_⟩
      rw [List.map_cons, List.sum_cons, ← Nat.add_assoc]
      exact ih (offset + encodedSize p.2)

theorem encodedSize_even (arg : Nat) : encodedSize arg % Opcode.unitSize = 0 :=
  Nat.mul_mod_right _ _

/-- A scan reads encoded instructions back one by one. -/
theorem foldlM_encodeAll {name : String} {pairs : List (Opcode × Nat)}
    (h : ∀ p ∈ pairs, Emittable p.1 p.2) (offset : Nat) (done : Array RawInstruction) :
    (unitsOf (encodeAll pairs)).foldlM (Scan.step name) { offset, done } =
      .ok { offset := offset + (encodeAll pairs).length,
            done := done ++ (placed offset pairs).map RawInstruction.carried } := by
  induction pairs generalizing offset done with
  | nil => simp [encodeAll, unitsOf, placed, pure, Except.pure]
  | cons p pairs ih =>
      have hsplit : encodeAll (p :: pairs) = Assembly.encode p.1 p.2 ++ encodeAll pairs := rfl
      -- units do not straddle two instructions
      have heven : (Assembly.encode p.1 p.2).length % Opcode.unitSize = 0 := by
        rw [Assembly.length_encode]
        exact encodedSize_even p.2
      rw [hsplit, unitsOf_append heven, List.foldlM_append,
        foldlM_encode (h p List.mem_cons_self) offset done]
      simp only [bind, Except.bind]
      rw [ih fun q hq => h q (List.mem_cons_of_mem p hq)]
      simp [placed, Nat.add_assoc]

/-- Scanning undoes encoding up to what units carry. -/
theorem scan_encodeAll_carried (name : String) {pairs : List (Opcode × Nat)}
    (h : ∀ p ∈ pairs, Emittable p.1 p.2) :
    scan name (encodeAll pairs) = .ok ((placed 0 pairs).map RawInstruction.carried).toArray := by
  have heven : (encodeAll pairs).length % Opcode.unitSize = 0 := by
    simpa [Opcode.unitSize] using ((covers_placed 0 pairs).even (Nat.zero_mod 2)).1
  rw [scan_eq_ok_iff]
  exact ⟨heven, _, foldlM_encodeAll h 0 #[], rfl, by simp⟩

/-- Scanning undoes encoding. -/
theorem scan_encodeAll (name : String) {pairs : List (Opcode × Nat)}
    (h : ∀ p ∈ pairs, Encodable p.1 p.2) :
    scan name (encodeAll pairs) = .ok (placed 0 pairs).toArray := by
  have hwhole : (placed 0 pairs).map RawInstruction.carried = placed 0 pairs := by
    rw [List.map_eq_iff]
    intro i
    rw [getElem?_placed]
    cases hi : pairs[i]? with
    | none => rfl
    | some p =>
        have hlt := (h p (List.mem_of_getElem? hi)).arg_lt
        simp only [Option.map_some, RawInstruction.carried, Nat.mod_eq_of_lt hlt]
  rw [scan_encodeAll_carried name fun p hp => (h p hp).emittable, hwhole]

end Wordcode
