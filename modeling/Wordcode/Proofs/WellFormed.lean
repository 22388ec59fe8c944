import Wordcode.Proofs.Partition
import Mathlib

namespace Wordcode

/-! # Well-formed streams

Which code objects can be decoded. The conditions speak of the units of the stream and of the
instructions that they end, and not of how they are scanned; a stream that violates one is reported
as malformed.

An operator argument is read by its low 16 bits only, so the conditions are stated for a given
reading of operator arguments.

* `Code.WellFormed` lists the conditions.
* `fits_iff`: the conditions on prefixes.
* `exists_denotes_iff`: the conditions on an argument.
* `Code.failsMalformed_decode`: every failure is a fault about a malformed stream.
* `Code.decodes_iff_wellFormed` puts the parts together.
-/

/-- The stream of a code object holds an instruction. -/
def Code.Holds (c : Code) (r : RawInstruction) : Prop :=
  ∃ n, instructionAt? (unitsOf c.instructions) n = some r

/-- The argument of an instruction means something in a code object. An operator argument is read by
`operator`. -/
@[mk_iff]
structure RawInstruction.Sensible (operator : Nat → Nat) (c : Code) (r : RawInstruction) :
    Prop where
  const : r.op.argKind = .const → r.arg < c.constants.length
  name : r.op.argKind = .name → r.arg < c.names.length
  slot : r.op.argKind = .slot → r.arg < c.variableNames.length
  jump : r.op.isJump = true → ∃ r', c.Holds r' ∧ r'.offset = r.destination
  binary : r.op.argKind = .binaryOperator → 1 ≤ operator r.arg ∧ operator r.arg ≤ 12
  comparison : r.op.argKind = .comparison → 1 ≤ operator r.arg ∧ operator r.arg ≤ 6

/-- What a stream must satisfy to be decoded. -/
structure Code.WellFormed (operator : Nat → Nat) (c : Code) : Prop where
  even : c.instructions.length % 2 = 0
  known : ∀ u ∈ unitsOf c.instructions, ∃ op, Opcode.ofNumber? u.1 = some op
  /-- No run of prefixes is longer than three. -/
  few : ∀ n ≤ (unitsOf c.instructions).length,
    (prefixesAt (unitsOf c.instructions) n).length ≤ 3
  /-- Behind a prefix stands an opcode that takes an argument. -/
  followed : ∀ n ≤ (unitsOf c.instructions).length, prefixesAt (unitsOf c.instructions) n ≠ [] →
    ∃ (op : Opcode) (last : UInt8), (unitsOf c.instructions)[n]? = some (op.number, last) ∧
      op.hasArg = true
  sensible : ∀ r, c.Holds r → r.Sensible operator c

/-! ## Prefixes -/

/-- All units fit and no prefix is left over exactly when all opcodes are known, no run of prefixes
is too long, and every prefix is followed by an opcode that takes an argument. -/
theorem fits_iff (units : List (UInt8 × UInt8)) :
    (∀ j < units.length, Fits units j) ∧ prefixesAt units units.length = [] ↔
      (∀ u ∈ units, ∃ op, Opcode.ofNumber? u.1 = some op) ∧
      (∀ n ≤ units.length, (prefixesAt units n).length ≤ 3) ∧
      ∀ n ≤ units.length, prefixesAt units n ≠ [] →
        ∃ (op : Opcode) (last : UInt8), units[n]? = some (op.number, last) ∧ op.hasArg = true := by
  constructor
  · rintro ⟨hfits, hnone⟩
    refine ⟨?_, ?_, ?_⟩
    · intro u hu
      obtain ⟨j, hj⟩ := List.mem_iff_getElem?.mp hu
      obtain ⟨op, last, hat, -, -⟩ := hfits j (List.getElem?_eq_some_iff.mp hj).1
      obtain rfl := Option.some.inj (hj.symm.trans hat)
      exact ⟨op, Opcode.ofNumber?_number op⟩
    · intro n hn
      exact length_prefixesAt_le_max fun j hj => hfits j (by omega)
    · intro n hn hpending
      -- at the end there is nothing in front of which prefixes could stand
      have hlt : n < units.length := by
        rcases Nat.lt_or_eq_of_le hn with hlt | rfl
        · exact hlt
        · exact absurd hnone hpending
      obtain ⟨op, last, hat, -, hbare⟩ := hfits n hlt
      refine ⟨op, last, hat, ?_⟩
      by_contra harg
      exact hpending (hbare (by simpa using harg))
  · rintro ⟨hknown, hfew, hfollowed⟩
    constructor
    · intro j hj
      obtain ⟨op, hop⟩ := hknown _ (List.getElem_mem hj)
      have hat : units[j]? = some (op.number, units[j].2) := by
        rw [Opcode.number_of_ofNumber? hop, List.getElem?_eq_getElem hj]
      refine ⟨op, units[j].2, hat, ?_, ?_⟩
      · -- a prefix with no room would make the run behind it too long
        intro hext hmax
        have hlonger := hfew (j + 1) hj
        rw [prefixesAt_succ hat, if_pos hext, List.length_append, hmax,
          List.length_singleton] at hlonger
        exact absurd hlonger (by decide)
      · intro harg
        by_contra hpending
        obtain ⟨op', last, hat', harg'⟩ := hfollowed j (by omega) hpending
        have hnumber : op.number = op'.number :=
          congrArg Prod.fst (Option.some.inj (hat.symm.trans hat'))
        rw [Opcode.number_inj.mp hnumber, harg'] at harg
        exact absurd harg (by decide)
    · by_contra hpending
      obtain ⟨op, last, hat, -⟩ := hfollowed units.length (Nat.le_refl _) hpending
      simp at hat

/-! ## Arguments -/

theorem BinaryOperator.exists_ofNumber?_iff (n : Nat) :
    (∃ o, ofNumber? n = some o) ↔ 1 ≤ n ∧ n ≤ 12 := by
  constructor
  · rintro ⟨o, ho⟩
    have hnumber : o.number = n := by simpa using List.find?_some ho
    subst hnumber
    cases o <;> decide
  · rintro ⟨hlow, hhigh⟩
    interval_cases n <;> exact ⟨_, rfl⟩

theorem Comparison.exists_ofNumber?_iff (n : Nat) :
    (∃ o, ofNumber? n = some o) ↔ 1 ≤ n ∧ n ≤ 6 := by
  constructor
  · rintro ⟨o, ho⟩
    have hnumber : o.number = n := by simpa using List.find?_some ho
    subst hnumber
    cases o <;> decide
  · rintro ⟨hlow, hhigh⟩
    interval_cases n <;> exact ⟨_, rfl⟩

/-- The instructions of a scanned stream are those that its units end. -/
theorem Code.holds_iff_of_scan {c : Code} {raw : Array RawInstruction}
    (h : scan c.name c.instructions = .ok raw) {r : RawInstruction} : c.Holds r ↔ r ∈ raw := by
  obtain ⟨-, -, -, hlist⟩ := scan_eq_ok_iff_fits.mp h
  rw [← Array.mem_toList_iff, hlist, List.mem_filterMap]
  constructor
  · rintro ⟨n, hn⟩
    refine ⟨n, ?_, hn⟩
    rw [List.mem_range]
    by_contra hge
    have hnone : (unitsOf c.instructions)[n]? = none := List.getElem?_eq_none_iff.mpr (by omega)
    simp [instructionAt?, hnone] at hn
  · rintro ⟨n, -, hn⟩
    exact ⟨n, hn⟩

/-- An argument stands for something exactly when it is sensible, an operator by its low 16 bits. -/
theorem exists_denotes_iff {c : Code} {raw : Array RawInstruction}
    (h : scan c.name c.instructions = .ok raw) (r : RawInstruction) :
    (∃ o, (c.pools raw).Denotes r o) ↔ r.Sensible (· % operatorSpace) c := by
  have hstarts (target : Nat) :
      (c.pools raw).Starts target ↔ ∃ r', c.Holds r' ∧ r'.offset = target := by
    rw [Pools.starts_iff rfl (scan_covers h).1]
    exact exists_congr fun r' => and_congr_left fun _ => (Code.holds_iff_of_scan h).symm
  unfold Pools.Denotes
  rw [RawInstruction.sensible_iff]
  -- what an argument stands for depends on its kind
  cases hkind : r.op.argKind with
  | none | count | flags => simp [Opcode.isJump, hkind, ArgKind.isJump]
  | const | name | slot =>
      simp [Opcode.isJump, hkind, ArgKind.isJump, Code.pools, ← Option.isSome_iff_exists]
  | jumpAbsolute | jumpRelative =>
      simp [Opcode.isJump, hkind, ArgKind.isJump, RawInstruction.destination, hstarts]
  | binaryOperator =>
      simp only [Opcode.isJump, hkind, ArgKind.isJump, ← BinaryOperator.exists_ofNumber?_iff]
      simp
  | comparison =>
      simp only [Opcode.isJump, hkind, ArgKind.isJump, ← Comparison.exists_ofNumber?_iff]
      simp

/-! ## Failures -/

/-- A computation that fails only with faults about a malformed stream. -/
abbrev FailsMalformed {α : Type} (name : String) (x : Except Failure α) : Prop :=
  OnlyFails (fun e => ∃ message, e = malformed name message) x

theorem failsMalformed_error {α : Type} (name message : String) :
    FailsMalformed name (.error (malformed name message) : Except Failure α) :=
  onlyFails_error ⟨message, rfl⟩

theorem failsMalformed_step (name : String) (s : Scan) (unit : UInt8 × UInt8) :
    FailsMalformed name (s.step name unit) := by
  unfold Scan.step
  cases Opcode.ofNumber? unit.1 with
  | none => exact failsMalformed_error _ _
  | some op =>
      dsimp only
      split_ifs
      all_goals first
        | exact failsMalformed_error _ _
        | exact onlyFails_ok _

theorem failsMalformed_scan (name : String) (bytes : List UInt8) :
    FailsMalformed name (scan name bytes) := by
  have hunits := onlyFails_foldlM
    (fun unit (_ : unit ∈ unitsOf bytes) s => failsMalformed_step name s unit) {}
  unfold scan
  by_cases hodd : bytes.length % Opcode.unitSize = 0
  · simp only [hodd, ne_eq, not_true_eq_false, if_false]
    refine hunits.bind fun s => ?_
    split_ifs
    · exact (failsMalformed_error name _).bind fun _ => onlyFails_ok s.done
    · exact onlyFails_ok s.done
  · simp only [hodd, ne_eq, not_false_eq_true, if_true]
    exact failsMalformed_error name _

theorem Pools.failsMalformed_operand (p : Pools) (i : RawInstruction) :
    FailsMalformed p.name (p.operand i) := by
  have hentry {α : Type} (pool : Array α) (what : String) :
      FailsMalformed p.name (p.entry pool what i) := by
    unfold Pools.entry
    cases pool[i.arg]? with
    | none => exact failsMalformed_error _ _
    | some a => exact onlyFails_ok a
  have hjump (target : Nat) : FailsMalformed p.name (p.jump target i) := by
    unfold Pools.jump
    split_ifs
    · exact onlyFails_ok _
    · exact failsMalformed_error _ _
  unfold Pools.operand
  -- the kinds of operand that can fail each have a message
  cases i.op.argKind with
  | none | count | flags => exact onlyFails_ok _
  | const => exact (hentry p.constants _).map _
  | name => exact (hentry p.names _).map _
  | slot => exact (hentry p.variableNames _).map _
  | jumpAbsolute | jumpRelative => exact hjump _
  | binaryOperator =>
      dsimp only
      cases BinaryOperator.ofNumber? (i.arg % operatorSpace) with
      | none => exact failsMalformed_error _ _
      | some o => exact onlyFails_ok _
  | comparison =>
      dsimp only
      cases Comparison.ofNumber? (i.arg % operatorSpace) with
      | none => exact failsMalformed_error _ _
      | some o => exact onlyFails_ok _

/-- Whatever is wrong with a stream is reported as malformed code, under the name of the code
object. -/
theorem Code.failsMalformed_decode (c : Code) : FailsMalformed c.name c.decode := by
  unfold Code.decode
  refine (failsMalformed_scan c.name c.instructions).bind fun raw => ?_
  refine (onlyFails_array_mapM (fun r => ?_) raw).bind fun instructions => onlyFails_ok _
  exact (Pools.failsMalformed_operand (c.pools raw) r).map _

/-! ## Decoding -/

/-- The stream of a code object can be scanned exactly when its units are in order. -/
theorem Code.exists_scan_iff (c : Code) :
    (∃ raw, scan c.name c.instructions = .ok raw) ↔
      c.instructions.length % 2 = 0 ∧
        (∀ j < (unitsOf c.instructions).length, Fits (unitsOf c.instructions) j) ∧
        prefixesAt (unitsOf c.instructions) (unitsOf c.instructions).length = [] := by
  simp only [scan_eq_ok_iff_fits]
  constructor
  · rintro ⟨raw, heven, hfits, hnone, -⟩
    exact ⟨heven, hfits, hnone⟩
  · rintro ⟨heven, hfits, hnone⟩
    exact ⟨_, heven, hfits, hnone, rfl⟩

/-- A code object decodes exactly when its stream is well-formed. -/
theorem Code.exists_decode_iff (c : Code) :
    (∃ l, c.decode = .ok l) ↔ c.WellFormed (· % operatorSpace) := by
  constructor
  · rintro ⟨l, hl⟩
    obtain ⟨-, hscan, -, hdenotes⟩ := Code.decode_eq_ok_iff.mp hl
    obtain ⟨heven, hfits, hnone⟩ := c.exists_scan_iff.mp ⟨_, hscan⟩
    obtain ⟨hknown, hfew, hfollowed⟩ := (fits_iff _).mp ⟨hfits, hnone⟩
    refine ⟨heven, hknown, hfew, hfollowed, ?_⟩
    intro r hr
    obtain ⟨i, hi, rfl⟩ := Listing.mem_raw.mp ((Code.holds_iff_of_scan hscan).mp hr)
    exact (exists_denotes_iff hscan _).mp ⟨i.operand, hdenotes i hi⟩
  · intro h
    obtain ⟨hfits, hnone⟩ := (fits_iff _).mpr ⟨h.known, h.few, h.followed⟩
    obtain ⟨raw, hscan⟩ := c.exists_scan_iff.mpr ⟨h.even, hfits, hnone⟩
    obtain ⟨l, hl, -⟩ := Code.exists_decode hscan fun r hr =>
      (exists_denotes_iff hscan r).mpr (h.sensible r ((Code.holds_iff_of_scan hscan).mpr hr))
    exact ⟨l, hl⟩

/-- Decoding accepts exactly the well-formed streams, where operators are known by the low 16 bits
of their arguments, and reports exactly the others as malformed. -/
theorem Code.decodes_iff_wellFormed (c : Code) :
    ((∃ l, c.decode = .ok l) ↔ c.WellFormed (· % operatorSpace)) ∧
      ((∃ message, c.decode = .error (malformed c.name message)) ↔
        ¬ c.WellFormed (· % operatorSpace)) := by
  refine ⟨c.exists_decode_iff, ?_⟩
  rw [← c.exists_decode_iff]
  cases hdecode : c.decode with
  | ok l => simp
  | error e =>
      obtain ⟨message, rfl⟩ := c.failsMalformed_decode e hdecode
      simp

/-- With the whole argument in the conditions this fails: 65537 passes for the first operator. -/
theorem Code.not_decodes_iff_wellFormed_whole :
    let code : Code := { name := "m", instructions := [144, 1, 144, 0, 170, 1] }
    ¬ ((∃ l, code.decode = .ok l) ↔ code.WellFormed id) := by
  intro code hiff
  let add : RawInstruction := ⟨.binaryOp, 65537, 0, 6⟩
  let listing : Listing := ⟨code, #[⟨add, .binary .add⟩], #[some 0, none, none]⟩
  have hdecode : code.decode = .ok listing := by cbv
  have hholds : code.Holds add := ⟨2, by cbv⟩
  have hrange := ((hiff.mp ⟨listing, hdecode⟩).sensible add hholds).binary rfl
  exact absurd hrange.2 (by decide)

end Wordcode
