import Wordcode.Proofs.Decoding
import Mathlib

namespace Wordcode

/-! # Prefixes

A scan without its state. Which prefixes stand in front of a unit, whether the unit may stand there
and which instruction it ends can be said of each position of a stream by itself.

* `prefixesAt` and `instructionAt?` are read off the units alone.
* `Fits` says when a unit may stand where it stands.
* `foldlM_take_iff`: a scan reads the units as far as they fit, and `scanAt` is its state there.
* `scan_eq_ok_iff_fits` puts this together for a whole stream.
-/

/-- The number that bytes make up in base 256, most significant byte first. -/
def bigEndianValue (bytes : List UInt8) : Nat :=
  Nat.ofDigits 256 (bytes.reverse.map (·.toNat))

@[simp]
theorem bigEndianValue_append_singleton (bytes : List UInt8) (b : UInt8) :
    bigEndianValue (bytes ++ [b]) = bigEndianValue bytes * 256 + b.toNat := by
  simp [bigEndianValue, Nat.ofDigits_cons]
  omega

/-- The argument bytes of the prefixes that stand right in front of the unit at a position. -/
def prefixesAt (units : List (UInt8 × UInt8)) : Nat → List UInt8
  | 0 => []
  | n + 1 =>
    match units[n]? with
    | some (opcode, b) =>
      if opcode = Opcode.extendedArg.number then prefixesAt units n ++ [b] else []
    | none => []

/-- The instruction that the unit at a position ends; a prefix ends none. -/
def instructionAt? (units : List (UInt8 × UInt8)) (n : Nat) : Option RawInstruction :=
  match units[n]? with
  | some (opcode, last) =>
    match Opcode.ofNumber? opcode with
    | some op =>
      if op = .extendedArg then none
      else
        let before := prefixesAt units n
        some ⟨op, if op.hasArg then bigEndianValue (before ++ [last]) else 0,
          Opcode.unitSize * (n - before.length), Opcode.unitSize * (before.length + 1)⟩
    | none => none
  | none => none

/-- The unit at a position may stand there: it has a known opcode, a prefix has room, and behind a
prefix stands an opcode that takes an argument. -/
def Fits (units : List (UInt8 × UInt8)) (n : Nat) : Prop :=
  ∃ (op : Opcode) (last : UInt8), units[n]? = some (op.number, last) ∧
    (op = .extendedArg → (prefixesAt units n).length ≠ maxPrefixes) ∧
    (op.hasArg = false → prefixesAt units n = [])

/-- An opcode has the byte by which it was found. -/
theorem Opcode.number_of_ofNumber? {b : UInt8} {op : Opcode} (h : Opcode.ofNumber? b = some op) :
    op.number = b := by
  simpa using List.find?_some h

theorem Opcode.number_inj {o o' : Opcode} : o.number = o'.number ↔ o = o' := by
  constructor
  · intro h
    have hsome : some o = some o' := by
      rw [← ofNumber?_number o, h, ofNumber?_number o']
    exact Option.some.inj hsome
  · rintro rfl
    rfl

section

variable {units : List (UInt8 × UInt8)} {n : Nat} {op : Opcode} {last : UInt8}

/-- One more prefix, or none any more. -/
theorem prefixesAt_succ (h : units[n]? = some (op.number, last)) :
    prefixesAt units (n + 1) =
      if op = .extendedArg then prefixesAt units n ++ [last] else [] := by
  simp [prefixesAt, h, Opcode.number_inj]

theorem instructionAt?_eq (h : units[n]? = some (op.number, last)) :
    instructionAt? units n =
      if op = .extendedArg then none
      else some ⟨op, if op.hasArg then bigEndianValue (prefixesAt units n ++ [last]) else 0,
        Opcode.unitSize * (n - (prefixesAt units n).length),
        Opcode.unitSize * ((prefixesAt units n).length + 1)⟩ := by
  simp [instructionAt?, h]

theorem length_prefixesAt_le (units : List (UInt8 × UInt8)) (n : Nat) :
    (prefixesAt units n).length ≤ n := by
  induction n with
  | zero => simp [prefixesAt]
  | succ n ih =>
      unfold prefixesAt
      split
      · split
        · simpa using ih
        · simp
      · simp

end

/-! ## The state of a scan -/

/-- The state of a scan in front of the unit at a position. -/
def scanAt (units : List (UInt8 × UInt8)) (n : Nat) : Scan where
  offset := Opcode.unitSize * n
  start :=
    if (prefixesAt units n).length = 0 then 0
    else Opcode.unitSize * (n - (prefixesAt units n).length)
  pending := (prefixesAt units n).length
  high := bigEndianValue (prefixesAt units n)
  done := ((List.range n).filterMap (instructionAt? units)).toArray

theorem first_scanAt (units : List (UInt8 × UInt8)) (n : Nat) :
    (scanAt units n).first = Opcode.unitSize * (n - (prefixesAt units n).length) := by
  unfold Scan.first scanAt
  split_ifs with hnone
  · rw [hnone, Nat.sub_zero]
  · rfl

section

variable {units : List (UInt8 × UInt8)} {name : String} {n : Nat}

/-- As far as all units fit, there are never too many prefixes. -/
theorem length_prefixesAt_le_max (h : ∀ j < n, Fits units j) :
    (prefixesAt units n).length ≤ maxPrefixes := by
  induction n with
  | zero => simp [prefixesAt]
  | succ n ih =>
      have hle := ih fun j hj => h j (by omega)
      obtain ⟨op, last, hat, hroom, -⟩ := h n (by omega)
      rw [prefixesAt_succ hat]
      split_ifs with hext
      · have hne := hroom hext
        rw [List.length_append, List.length_singleton]
        omega
      · simp

/-- Reading one more prefix. -/
theorem step_scanAt_prefix {b : UInt8} (hat : units[n]? = some (Opcode.extendedArg.number, b))
    (hroom : (prefixesAt units n).length ≠ maxPrefixes) :
    (scanAt units n).step name (Opcode.extendedArg.number, b) = .ok (scanAt units (n + 1)) := by
  have hbefore : prefixesAt units (n + 1) = prefixesAt units n ++ [b] := by
    rw [prefixesAt_succ hat, if_pos rfl]
  have hnone : instructionAt? units n = none := by rw [instructionAt?_eq hat, if_pos rfl]
  have hle := length_prefixesAt_le units n
  -- a prefix that is not one too many is kept
  have hstep : (scanAt units n).step name (Opcode.extendedArg.number, b) =
      .ok { scanAt units n with
        offset := (scanAt units n).offset + Opcode.unitSize, start := (scanAt units n).first,
        pending := (scanAt units n).pending + 1,
        high := (scanAt units n).high * 256 + b.toNat } := by
    have hpending : (scanAt units n).pending ≠ maxPrefixes := hroom
    simp [Scan.step, Scan.first, hpending]
  rw [hstep, first_scanAt]
  refine congrArg Except.ok (Scan.mk.injEq .. |>.mpr ⟨?_, ?_, ?_, ?_, ?_⟩)
  · show Opcode.unitSize * n + Opcode.unitSize = Opcode.unitSize * (n + 1)
    rw [Nat.mul_succ]
  · simp [hbefore]
  · simp [scanAt, hbefore]
  · simp [scanAt, hbefore]
  · simp [scanAt, List.range_succ, List.filterMap_append, hnone]

/-- Reading the unit that ends an instruction. -/
theorem step_scanAt_op {op : Opcode} {last : UInt8} (hat : units[n]? = some (op.number, last))
    (hext : op ≠ .extendedArg) (hnone : op.hasArg = false → prefixesAt units n = []) :
    (scanAt units n).step name (op.number, last) = .ok (scanAt units (n + 1)) := by
  have hbefore : prefixesAt units (n + 1) = [] := by rw [prefixesAt_succ hat, if_neg hext]
  have hle := length_prefixesAt_le units n
  -- the instruction begins with its first prefix
  have hsize : Opcode.unitSize * n + Opcode.unitSize -
      Opcode.unitSize * (n - (prefixesAt units n).length) =
      Opcode.unitSize * ((prefixesAt units n).length + 1) := by
    simp only [Opcode.unitSize]
    omega
  have hstep : (scanAt units n).step name (op.number, last) =
      .ok { offset := (scanAt units n).offset + Opcode.unitSize,
            done := (scanAt units n).done.push
              ⟨op, if op.hasArg then (scanAt units n).high * 256 + last.toNat else 0,
                (scanAt units n).first,
                (scanAt units n).offset + Opcode.unitSize - (scanAt units n).first⟩ } := by
    cases harg : op.hasArg with
    | true => simp [Scan.step, Scan.first, hext, harg]
    | false =>
        have hpending : (scanAt units n).pending = 0 := by simp [scanAt, hnone harg]
        simp [Scan.step, Scan.first, hext, harg, hpending]
  rw [hstep, first_scanAt]
  refine congrArg Except.ok (Scan.mk.injEq .. |>.mpr ⟨?_, ?_, ?_, ?_, ?_⟩)
  · show Opcode.unitSize * n + Opcode.unitSize = Opcode.unitSize * (n + 1)
    rw [Nat.mul_succ]
  · simp [hbefore]
  · simp [hbefore]
  · simp [hbefore, bigEndianValue]
  · simp [scanAt, List.range_succ, List.filterMap_append, instructionAt?_eq hat, hext, hsize]

/-- A scan reads the unit at its position exactly when the unit fits there, and moves by one. -/
theorem step_scanAt_eq_ok_iff {u : UInt8 × UInt8} {s : Scan} (hu : units[n]? = some u) :
    (scanAt units n).step name u = .ok s ↔ Fits units n ∧ s = scanAt units (n + 1) := by
  have hread : Fits units n → (scanAt units n).step name u = .ok (scanAt units (n + 1)) := by
    rintro ⟨op, last, hat, hroom, hnone⟩
    obtain rfl : (op.number, last) = u := Option.some.inj (hat.symm.trans hu)
    by_cases hext : op = .extendedArg
    · subst hext
      exact step_scanAt_prefix hat (hroom rfl)
    · exact step_scanAt_op hat hext hnone
  constructor
  · intro h
    -- a unit that is accepted fits; which one it is tells the step
    have hfits : Fits units n := by
      obtain ⟨op, hop, hcases⟩ := Scan.step_cases h
      refine ⟨op, u.2, by rw [Opcode.number_of_ofNumber? hop, hu], ?_, ?_⟩
      · intro hext
        rcases hcases with ⟨-, hroom, -⟩ | ⟨hne, -, -⟩
        · exact hroom
        · exact absurd hext hne
      · intro harg
        rcases hcases with ⟨rfl, -, -⟩ | ⟨-, harg' | hpending, -⟩
        · exact absurd harg (by decide)
        · simp [harg] at harg'
        · exact List.length_eq_zero_iff.mp hpending
    exact ⟨hfits, Except.ok.inj (h.symm.trans (hread hfits))⟩
  · rintro ⟨hfits, rfl⟩
    exact hread hfits

/-- A scan reads units as far as all of them fit. -/
theorem foldlM_take_iff {s : Scan} (hn : n ≤ units.length) :
    (units.take n).foldlM (Scan.step name) {} = .ok s ↔
      (∀ j < n, Fits units j) ∧ s = scanAt units n := by
  induction n generalizing s with
  | zero => simp [scanAt, prefixesAt, bigEndianValue, pure, Except.pure, eq_comm]
  | succ n ih =>
      have hat : units[n]? = some units[n] := List.getElem?_eq_getElem hn
      rw [List.take_add_one, hat, List.foldlM_append]
      constructor
      · intro h
        -- all units but the last one, and then the last one
        obtain ⟨s₁, hbefore, hlast⟩ := except_bind_eq_ok h
        obtain ⟨hfits, rfl⟩ := (ih (by omega)).mp hbefore
        have hstep : (scanAt units n).step name units[n] = .ok s := by simpa using hlast
        obtain ⟨hfit, rfl⟩ := (step_scanAt_eq_ok_iff hat).mp hstep
        refine ⟨fun j hj => ?_, rfl⟩
        rcases Nat.lt_succ_iff_lt_or_eq.mp hj with hlt | rfl
        · exact hfits j hlt
        · exact hfit
      · rintro ⟨hfits, rfl⟩
        have hbefore := (ih (s := scanAt units n) (by omega)).mpr
          ⟨fun j hj => hfits j (by omega), rfl⟩
        have hstep : (scanAt units n).step name units[n] = .ok (scanAt units (n + 1)) :=
          (step_scanAt_eq_ok_iff hat).mpr ⟨hfits n (by omega), rfl⟩
        simp [hbefore, hstep, bind, Except.bind, pure, Except.pure]

end

/-- The instructions of a stream are those that its units end, when all units fit and no prefix is
left at the end. -/
theorem scan_eq_ok_iff_fits {name : String} {bytes : List UInt8} {raw : Array RawInstruction} :
    scan name bytes = .ok raw ↔
      bytes.length % Opcode.unitSize = 0 ∧ (∀ j < (unitsOf bytes).length, Fits (unitsOf bytes) j) ∧
        prefixesAt (unitsOf bytes) (unitsOf bytes).length = [] ∧
        raw.toList =
          (List.range (unitsOf bytes).length).filterMap (instructionAt? (unitsOf bytes)) := by
  rw [scan_eq_ok_iff]
  refine and_congr_right fun _ => ?_
  -- the scan is the run of its steps, and no prefix may be left at its end
  have hrun {s : Scan} : (unitsOf bytes).foldlM (Scan.step name) {} = .ok s ↔
      (∀ j < (unitsOf bytes).length, Fits (unitsOf bytes) j) ∧
        s = scanAt (unitsOf bytes) (unitsOf bytes).length := by
    simpa only [List.take_length] using foldlM_take_iff (Nat.le_refl (unitsOf bytes).length)
  constructor
  · rintro ⟨s, hs, hpending, rfl⟩
    obtain ⟨hfits, rfl⟩ := hrun.mp hs
    exact ⟨hfits, List.length_eq_zero_iff.mp hpending, rfl⟩
  · rintro ⟨hfits, hnone, hraw⟩
    refine ⟨_, hrun.mpr ⟨hfits, rfl⟩, List.length_eq_zero_iff.mpr hnone, ?_⟩
    rw [← Array.toList_inj, hraw]
    rfl

end Wordcode
