import Mathlib
import Wordcode.Store.Arithmetic

namespace Wordcode

/-! # Operators on integers

The operators on integers of 64 bits against exact arithmetic.

* `BinaryOperator.exactResult?` is the exact integer that an operator stands for, and
  `BinaryOperator.refusal?` the kind of fault that it ends with.
* `Op.intOp_exact`: the result of an operator is the exact integer, reduced to 64 bits; quotient and
  remainder belong together; and an operator fails exactly where it is refused.
-/

/-- The exact result of an operator on integers, where it has an integer as its result. Quotients
are rounded down, and bits are those of the two's complement. -/
def BinaryOperator.exactResult? (o : BinaryOperator) (a b : Int) : Option Int :=
  match o with
  | .add => some (a + b)
  | .subtract => some (a - b)
  | .multiply => some (a * b)
  | .trueDivide => none
  | .floorDivide => if b ≠ 0 then some (a.fdiv b) else none
  | .modulo => if b ≠ 0 then some (a - b * a.fdiv b) else none
  | .power => if 0 ≤ b then some (a ^ b.toNat) else none
  | .leftShift => if 0 ≤ b then some (a * 2 ^ b.toNat) else none
  | .rightShift => if 0 ≤ b then some (a.fdiv (2 ^ b.toNat)) else none
  | .bitAnd => some (a.land b)
  | .bitOr => some (a.lor b)
  | .bitXor => some (a.xor b)

/-- The fault of an operator on integers: division by zero, also as a negative power of zero, and
negative shift counts. -/
def BinaryOperator.refusal? (o : BinaryOperator) (a b : Int) : Option Fault.Kind :=
  match o with
  | .trueDivide | .floorDivide | .modulo => if b = 0 then some .zeroDivision else none
  | .power => if a = 0 ∧ b < 0 then some .zeroDivision else none
  | .leftShift | .rightShift => if b < 0 then some .value else none
  | .add | .subtract | .multiply | .bitAnd | .bitOr | .bitXor => none

/-! ## Quotients and remainders -/

section

variable {a b : Int64}

/-- The quotient toward zero is too large by one exactly when there is a remainder and the signs
differ. -/
theorem fdiv_eq_tdiv_sub {x y : Int} (hy : y ≠ 0) :
    x.fdiv y = x.tdiv y - if x.tmod y ≠ 0 ∧ (x < 0 ↔ ¬ y < 0) then 1 else 0 := by
  rw [Int.fdiv_eq_tdiv]
  have hdvd : y ∣ x ↔ x.tmod y = 0 := Int.dvd_iff_tmod_eq_zero
  have hsign : (0 < y → y.sign = 1) ∧ (y < 0 → y.sign = -1) :=
    ⟨Int.sign_eq_one_of_pos, Int.sign_eq_neg_one_of_neg⟩
  grind

/-- The floored remainder is the truncated one, moved by the divisor if their signs differ. -/
theorem fmod_eq_tmod_add {x y : Int} (hy : y ≠ 0) :
    x.fmod y = x.tmod y + if x.tmod y ≠ 0 ∧ (x < 0 ↔ ¬ y < 0) then y else 0 := by
  have hquotient := fdiv_eq_tdiv_sub (x := x) hy
  have hfloor := Int.mul_fdiv_add_fmod x y
  have htoward := Int.mul_tdiv_add_tmod x y
  rw [hquotient] at hfloor
  split at hfloor <;> grind

/-- The test of the corrections below, on exact integers. It may look at the sign of the dividend
or at that of the remainder. -/
theorem differ_iff {d r : Int64} (hr : r.toInt = a.toInt.tmod b.toInt)
    (hd : r.toInt ≠ 0 → (d.toInt < 0 ↔ a.toInt < 0)) :
    (decide (r ≠ 0) && (decide (d < 0) != decide (b < 0))) = true ↔
      a.toInt.tmod b.toInt ≠ 0 ∧ (a.toInt < 0 ↔ ¬ b.toInt < 0) := by
  simp only [ne_eq, ← Int64.toInt_inj, Int64.lt_iff_toInt_lt, Int64.toInt_zero, ← hr] at hd ⊢
  grind

/-- The truncated remainder has the sign of the dividend. -/
theorem tmod_neg_iff {x y : Int} (h : x.tmod y ≠ 0) : x.tmod y < 0 ↔ x < 0 := by
  have hup : 0 ≤ x → 0 ≤ x.tmod y := Int.tmod_nonneg y
  have hdown : x ≤ 0 → x.tmod y ≤ 0 := fun hx => by
    have := Int.tmod_nonneg y (Int.neg_nonneg_of_nonpos hx)
    rw [Int.neg_tmod] at this
    omega
  omega

/-- The quotient is the floored one, wrapped around. -/
theorem floorDivInt_eq (hb : b ≠ 0) :
    floorDivInt a b = Int64.ofInt (a.toInt.fdiv b.toInt) := by
  have hquotient : Int64.ofInt (a.toInt.tdiv b.toInt) = a / b := by
    rw [Int64.ofInt_eq_iff_bmod_eq_toInt, Int64.toInt_div]
  rw [fdiv_eq_tdiv_sub (Word.toInt_ne_zero hb), Int64.ofInt_sub, hquotient]
  unfold floorDivInt
  simp only [differ_iff (d := a) (Int64.toInt_mod a b) fun _ => Iff.rfl]
  split <;> simp

/-- The remainder is the floored one. -/
theorem floorModInt_eq (hb : b ≠ 0) : floorModInt a b = Int64.ofInt (a.toInt.fmod b.toInt) := by
  have hremainder : Int64.ofInt (a.toInt.tmod b.toInt) = a % b := by
    rw [← Int64.toInt_mod, Int64.ofInt_toInt]
  have hsign : (a % b).toInt ≠ 0 → ((a % b).toInt < 0 ↔ a.toInt < 0) := by
    rw [Int64.toInt_mod]
    exact tmod_neg_iff
  rw [fmod_eq_tmod_add (Word.toInt_ne_zero hb), Int64.ofInt_add, hremainder]
  unfold floorModInt
  simp only [differ_iff (Int64.toInt_mod a b) hsign]
  split <;> simp

/-- The remainder is smaller than the divisor and has its sign. -/
theorem fmod_bounds (x : Int) {y : Int} (hy : y ≠ 0) :
    (x.fmod y).natAbs < y.natAbs ∧ (x.fmod y = 0 ∨ (x.fmod y < 0 ↔ y < 0)) := by
  have hsmall := Int.natAbs_tmod x y ▸ Nat.mod_lt x.natAbs (Int.natAbs_pos.mpr hy)
  rw [fmod_eq_tmod_add hy]
  by_cases h : x.tmod y = 0
  · simp [h, Int.natAbs_pos.mpr hy]
  · have hsign := tmod_neg_iff h
    grind

/-- The remainder needs no reduction. -/
theorem toInt_floorModInt (hb : b ≠ 0) : (floorModInt a b).toInt = a.toInt.fmod b.toInt := by
  have hsmall := (fmod_bounds a.toInt (Word.toInt_ne_zero hb)).1
  have hlow := b.le_toInt
  have hhigh := b.toInt_lt
  rw [floorModInt_eq hb]
  exact Int64.toInt_ofInt_of_le (by grind) (by grind)

end

/-! ## Powers -/

/-- What repeated squaring keeps: the result times the base to the rest of the exponent. -/
theorem powerInt_eq (x r : Int) {fuel exponent : Nat} (hfuel : exponent < 2 ^ fuel) :
    powerInt fuel (Int64.ofInt x) exponent (Int64.ofInt r) = Int64.ofInt (r * x ^ exponent) := by
  induction fuel generalizing x r exponent with
  | zero =>
      obtain rfl : exponent = 0 := by simpa using hfuel
      simp [powerInt]
  | succ fuel ih =>
      rw [powerInt]
      split
      · next hzero => simp [hzero]
      · have hhalf : exponent / 2 < 2 ^ fuel := by omega
        -- the exponent is halved, and an odd one leaves a factor behind
        have hparts : x ^ exponent = x ^ (exponent % 2) * (x * x) ^ (exponent / 2) := by
          rw [← pow_two, ← pow_mul, ← pow_add, Nat.mod_add_div]
        have hnext : (if exponent % 2 = 1 then Int64.ofInt r * Int64.ofInt x else Int64.ofInt r) =
            Int64.ofInt (r * x ^ (exponent % 2)) := by
          rcases Nat.mod_two_eq_zero_or_one exponent with h | h <;> simp [h, Int64.ofInt_mul]
        rw [hnext, ← Int64.ofInt_mul, ih _ _ hhalf, hparts, mul_assoc]

/-! ## Shifts -/

section

variable {a b : Int64}

theorem toInt_nonneg_of_not_neg (hb : ¬ b < 0) : 0 ≤ b.toInt :=
  not_lt.mp (mt Word.toInt_neg_iff.mp hb)

/-- A count below the width is taken as it is. -/
theorem toNat_smod_width (hb : 0 ≤ b.toInt) (hsmall : b.toInt < 64) :
    (b.toBitVec.smod 64).toNat = b.toInt.toNat := by
  have hmod : (b.toBitVec.smod 64).toInt = b.toInt := by
    rw [BitVec.toInt_smod, Int64.toInt_toBitVec]
    exact Int.fmod_eq_of_lt hb hsmall
  have hword := BitVec.toInt_eq_toNat_cond (b.toBitVec.smod 64)
  have hlt := (b.toBitVec.smod 64).isLt
  split at hword <;> omega

theorem ofInt_two_pow (n : Nat) : BitVec.ofInt 64 (2 ^ n) = BitVec.twoPow 64 n := by
  have hcast : (2 : Int) ^ n = (2 ^ n : Nat) := by norm_cast
  apply BitVec.eq_of_toNat_eq
  rw [BitVec.toNat_twoPow, hcast, BitVec.ofInt_natCast, BitVec.toNat_ofNat]

/-- Beyond the width only multiples of the modulus are left. -/
theorem ofInt_mul_two_pow_of_le (x : Int) {n : Nat} (hn : 64 ≤ n) :
    Int64.ofInt (x * 2 ^ n) = 0 := by
  rw [Int64.ofInt_eq_iff_bmod_eq_toInt, Int64.toInt_zero]
  exact Int.bmod_eq_zero_of_dvd (Dvd.dvd.mul_left (pow_dvd_pow 2 hn) x)

/-- A left shift multiplies by a power of two, wrapped around. -/
theorem shiftLeftInt_eq (hb : ¬ b < 0) :
    shiftLeftInt a b = Int64.ofInt (a.toInt * 2 ^ b.toInt.toNat) := by
  have hb := toInt_nonneg_of_not_neg hb
  unfold shiftLeftInt
  split
  · next hlarge =>
      have hlarge : 64 ≤ b.toInt := Int64.le_iff_toInt_le.mp hlarge
      rw [ofInt_mul_two_pow_of_le _ (by omega)]
  · next hsmall =>
      have hsmall : b.toInt < 64 := by simpa [Int64.le_iff_toInt_le] using hsmall
      rw [← Int64.toBitVec_inj, Int64.toBitVec_shiftLeft, BitVec.shiftLeft_eq',
        toNat_smod_width hb hsmall, BitVec.shiftLeft_eq_mul_twoPow, ← ofInt_two_pow,
        Int64.toBitVec_ofInt, BitVec.ofInt_mul, ← Int64.toInt_toBitVec a, BitVec.ofInt_toInt]

/-- Beyond the width only the sign is left. -/
theorem ediv_two_pow_of_le (a : Int64) {n : Nat} (hn : 64 ≤ n) :
    a.toInt / 2 ^ n = if a < 0 then -1 else 0 := by
  have hlow := a.le_toInt
  have hhigh := a.toInt_lt
  have hpow : (2 : Int) ^ 64 ≤ 2 ^ n := pow_le_pow_right₀ (by decide) hn
  simp only [Int64.lt_iff_toInt_lt, Int64.toInt_zero]
  split
  · next hneg => exact Int.ediv_eq_neg_one_of_neg_of_le hneg (by omega)
  · next hpos => exact Int.ediv_eq_zero_of_lt (by omega) (by omega)

/-- A right shift divides by a power of two, rounding down. -/
theorem shiftRightInt_eq (hb : ¬ b < 0) :
    shiftRightInt a b = Int64.ofInt (a.toInt.fdiv (2 ^ b.toInt.toNat)) := by
  have hb := toInt_nonneg_of_not_neg hb
  rw [Int.fdiv_eq_ediv_of_nonneg _ (by positivity)]
  unfold shiftRightInt
  -- a shift by the word size or more leaves only the sign
  split
  · next hlarge =>
      have hlarge : 64 ≤ b.toInt := Int64.le_iff_toInt_le.mp hlarge
      rw [ediv_two_pow_of_le a (by omega)]
      split <;> rfl
  · next hsmall =>
      have hsmall : b.toInt < 64 := by simpa [Int64.le_iff_toInt_le] using hsmall
      have hshift : (a >>> b).toInt = a.toInt / 2 ^ b.toInt.toNat := by
        rw [← Int64.toInt_toBitVec, Int64.toBitVec_shiftRight, BitVec.sshiftRight_eq',
          toNat_smod_width hb hsmall, BitVec.toInt_sshiftRight, Int64.toInt_toBitVec,
          Int.shiftRight_eq_div_pow]
        norm_cast
      rw [← hshift, Int64.ofInt_toInt]

end

/-! ## Bits -/

/-- The bits of a word are the first bits of the integer it comes from. -/
theorem getLsbD_ofInt (x : Int) {k : Nat} (hk : k < 64) :
    (BitVec.ofInt 64 x).getLsbD k = x.testBit k := by
  rw [BitVec.getLsbD, BitVec.toNat_ofInt]
  cases x with
  | ofNat n =>
      have hrest : (Int.ofNat n % (2 ^ 64 : Nat)).toNat = n % 2 ^ 64 := by
        rw [Int.ofNat_eq_natCast]
        omega
      rw [hrest, Nat.testBit_mod_two_pow]
      simp [hk, Int.testBit]
  | negSucc n =>
      -- The two's complement of `-n - 1` inverts the bits of `n`.
      have hrest : (Int.negSucc n % (2 ^ 64 : Nat)).toNat = 2 ^ 64 - (n % 2 ^ 64 + 1) := by
        rw [Int.negSucc_emod] <;> omega
      rw [hrest, Nat.testBit_two_pow_sub_succ (Nat.mod_lt _ (by decide)),
        Nat.testBit_mod_two_pow]
      simp [hk, Int.testBit]

/-- An operation on words that combines bit by bit is the reduction of one on integers that does. -/
theorem eq_ofInt_of_testBit {a b r : Int64} {x : Int} (f : Bool → Bool → Bool)
    (hr : ∀ k, r.toBitVec.getLsbD k = f (a.toBitVec.getLsbD k) (b.toBitVec.getLsbD k))
    (hx : ∀ k, x.testBit k = f (a.toInt.testBit k) (b.toInt.testBit k)) :
    r = Int64.ofInt x := by
  rw [← Int64.toBitVec_inj, Int64.toBitVec_ofInt]
  refine BitVec.eq_of_getLsbD_eq fun k hk => ?_
  have hword (c : Int64) : c.toBitVec.getLsbD k = c.toInt.testBit k := by
    rw [← getLsbD_ofInt c.toInt hk, ← Int64.toInt_toBitVec, BitVec.ofInt_toInt]
  rw [hr, hword, hword, getLsbD_ofInt x hk, hx]

/-! ## The operators -/

namespace Op

variable {o : BinaryOperator} {a b : Int64}

/-- Where there is an exact integer, it is the result, reduced to 64 bits. -/
theorem intOp_of_exactResult? {n : Int} (hn : o.exactResult? a.toInt b.toInt = some n) :
    intOp o a b = pure (.int (Int64.ofInt n)) := by
  have hb : b.toInt ≠ 0 ↔ b ≠ 0 := by simp [← Int64.toInt_inj]
  have hneg : 0 ≤ b.toInt ↔ ¬ b < 0 := by rw [← Word.toInt_neg_iff, not_lt]
  -- sums, differences and products are reduced by the words, and bits are compared one by one
  cases o with
  | add | subtract | multiply =>
      cases hn
      simp [intOp, Int64.ofInt_add, Int64.ofInt_sub, Int64.ofInt_mul]
  | trueDivide => cases hn
  | floorDivide =>
      simp only [BinaryOperator.exactResult?, hb, Option.ite_none_right_eq_some,
        Option.some.injEq] at hn
      obtain ⟨hb, rfl⟩ := hn
      simp [intOp, hb, floorDivInt_eq hb]
  | modulo =>
      simp only [BinaryOperator.exactResult?, hb, Option.ite_none_right_eq_some,
        Option.some.injEq] at hn
      obtain ⟨hb, rfl⟩ := hn
      simp [intOp, hb, floorModInt_eq hb, Int.fmod_def]
  | power =>
      simp only [BinaryOperator.exactResult?, hneg, Option.ite_none_right_eq_some,
        Option.some.injEq] at hn
      obtain ⟨hb, rfl⟩ := hn
      have hfuel : b.toInt.toNat < 2 ^ 64 := by
        have := b.toInt_lt
        omega
      have hpower := powerInt_eq a.toInt 1 hfuel
      rw [Int64.ofInt_toInt, one_mul] at hpower
      simp only [intOp, hb, if_false]
      exact congrArg (fun n => pure (Value.int n)) hpower
  | leftShift =>
      simp only [BinaryOperator.exactResult?, hneg, Option.ite_none_right_eq_some,
        Option.some.injEq] at hn
      obtain ⟨hb, rfl⟩ := hn
      simp only [intOp, hb, if_false, shiftLeftInt_eq hb]
  | rightShift =>
      simp only [BinaryOperator.exactResult?, hneg, Option.ite_none_right_eq_some,
        Option.some.injEq] at hn
      obtain ⟨hb, rfl⟩ := hn
      simp only [intOp, hb, if_false, shiftRightInt_eq hb]
  | bitAnd =>
      cases hn
      exact congrArg (fun n => pure (Value.int n)) (eq_ofInt_of_testBit (· && ·) (by simp)
        (Int.testBit_land _ _))
  | bitOr =>
      cases hn
      exact congrArg (fun n => pure (Value.int n)) (eq_ofInt_of_testBit (· || ·) (by simp)
        (Int.testBit_lor _ _))
  | bitXor =>
      cases hn
      exact congrArg (fun n => pure (Value.int n)) (eq_ofInt_of_testBit xor (by simp)
        (Int.testBit_lxor _ _))

/-- A refused operator fails with a fault of the stated kind. -/
theorem intOp_of_refusal? {kind : Fault.Kind} (hkind : o.refusal? a.toInt b.toInt = some kind) :
    ∃ message, intOp o a b = raise kind message := by
  have hzero (c : Int64) : c.toInt = 0 ↔ c = 0 := by simp [← Int64.toInt_inj]
  -- sums, products and bit operators refuse nothing
  cases o with
  | add | subtract | multiply | bitAnd | bitOr | bitXor => cases hkind
  | trueDivide | floorDivide | modulo =>
      simp only [BinaryOperator.refusal?, hzero, Option.ite_none_right_eq_some,
        Option.some.injEq] at hkind
      obtain ⟨hb, rfl⟩ := hkind
      simp only [intOp, hb, if_true]
      exact ⟨_, rfl⟩
  | power =>
      simp only [BinaryOperator.refusal?, hzero, Word.toInt_neg_iff, Option.ite_none_right_eq_some,
        Option.some.injEq] at hkind
      obtain ⟨⟨ha, hb⟩, rfl⟩ := hkind
      simp only [intOp, ha, hb, if_true]
      exact ⟨_, rfl⟩
  | leftShift | rightShift =>
      simp only [BinaryOperator.refusal?, Word.toInt_neg_iff, Option.ite_none_right_eq_some,
        Option.some.injEq] at hkind
      obtain ⟨hb, rfl⟩ := hkind
      simp only [intOp, hb, if_true]
      exact ⟨_, rfl⟩

/-- An operator that is not refused has a result: an integer, or else a double. -/
theorem exists_intOp (hnone : o.refusal? a.toInt b.toInt = none) (s : Store) :
    ∃ v s', intOp o a b s = .ok v s' := by
  cases hexact : o.exactResult? a.toInt b.toInt with
  | some n =>
      rw [intOp_of_exactResult? hexact]
      exact ⟨_, _, rfl⟩
  | none =>
      -- without an exact result only quotients and powers by a negative number are left
      cases o with
      | add | subtract | multiply | bitAnd | bitOr | bitXor => cases hexact
      | floorDivide | modulo | leftShift | rightShift =>
          simp only [BinaryOperator.exactResult?, BinaryOperator.refusal?] at hexact hnone
          grind
      | trueDivide =>
          have hb : b ≠ 0 := by
            rintro rfl
            simp [BinaryOperator.refusal?] at hnone
          simp only [intOp, hb, if_false]
          exact ⟨_, _, rfl⟩
      | power =>
          simp only [BinaryOperator.exactResult?, BinaryOperator.refusal?] at hexact hnone
          have hb : b.toInt < 0 := by grind
          have ha : a ≠ 0 := by
            rintro rfl
            simp [hb] at hnone
          simp only [intOp, ha, Word.toInt_neg_iff.mp hb, if_true, if_false]
          exact ⟨_, _, rfl⟩

/-- The quotient and the remainder of one division. -/
theorem exists_division (hb : b ≠ 0) (s : Store) :
    ∃ q m : Int64, intOp .floorDivide a b s = .ok (.int q) s ∧
      intOp .modulo a b s = .ok (.int m) s ∧ q * b + m = a ∧
      m.toInt = a.toInt - b.toInt * a.toInt.fdiv b.toInt ∧
      m.toInt.natAbs < b.toInt.natAbs ∧ (m = 0 ∨ (m < 0 ↔ b < 0)) := by
  have hremainder := toInt_floorModInt (a := a) hb
  have hparts : floorDivInt a b * b + floorModInt a b = a := by
    rw [floorDivInt_eq hb, floorModInt_eq hb]
    -- the quotient and the remainder are reduced to words, and the law survives it
    calc Int64.ofInt (a.toInt.fdiv b.toInt) * b + Int64.ofInt (a.toInt.fmod b.toInt)
        = Int64.ofInt (a.toInt.fdiv b.toInt * b.toInt + a.toInt.fmod b.toInt) := by
          rw [Int64.ofInt_add, Int64.ofInt_mul, Int64.ofInt_toInt]
      _ = a := by rw [Int.fdiv_mul_add_fmod, Int64.ofInt_toInt]
  obtain ⟨hsmall, hsign⟩ := fmod_bounds a.toInt (Word.toInt_ne_zero hb)
  refine ⟨floorDivInt a b, floorModInt a b, ?_, ?_, hparts, ?_, ?_, ?_⟩
  · simp only [intOp, hb, if_false]
    rfl
  · simp only [intOp, hb, if_false]
    rfl
  · rw [hremainder, Int.fmod_def]
  · rwa [hremainder]
  · simpa only [← Int64.toInt_inj, Int64.lt_iff_toInt_lt, Int64.toInt_zero, hremainder] using hsign

/-- An operator on integers gives the exact integer, reduced to 64 bits, where there is one. It
fails exactly when it is refused. Quotient and remainder add up to the dividend modulo 2^64, and the
remainder is smaller than the divisor and has its sign. -/
theorem intOp_exact (o : BinaryOperator) (a b : Int64) (s : Store) :
    (∀ n, o.exactResult? a.toInt b.toInt = some n →
      intOp o a b s = .ok (.int (Int64.ofInt n)) s) ∧
    (match o.refusal? a.toInt b.toInt with
      | some kind => ∃ message, intOp o a b s = .error (.raise kind message) s
      | none => ∃ v s', intOp o a b s = .ok v s') ∧
    (b ≠ 0 → ∃ q m : Int64, intOp .floorDivide a b s = .ok (.int q) s ∧
      intOp .modulo a b s = .ok (.int m) s ∧ q * b + m = a ∧
      m.toInt = a.toInt - b.toInt * a.toInt.fdiv b.toInt ∧
      m.toInt.natAbs < b.toInt.natAbs ∧ (m = 0 ∨ (m < 0 ↔ b < 0))) := by
  refine ⟨fun n hn => ?_, ?_, fun hb => exists_division hb s⟩
  · rw [intOp_of_exactResult? hn]
    rfl
  · split
    · next kind hkind =>
        obtain ⟨message, hfails⟩ := intOp_of_refusal? hkind
        exact ⟨message, by rw [hfails]; rfl⟩
    · next hnone => exact exists_intOp hnone s

/-- The least integer divided by minus one is out of range and comes back as the least integer. -/
theorem intOp_exact_minimum :
    intOp .floorDivide Int64.minValue (-1) default = .ok (.int Int64.minValue) default ∧
      ∃ q m : Int64, q * -1 + m = Int64.minValue ∧ m.toInt.natAbs < 1 := by
  have hexact := intOp_exact .floorDivide Int64.minValue (-1) default
  obtain ⟨q, m, -, -, hparts, -, hsmall, -⟩ := hexact.2.2 (by decide)
  exact ⟨hexact.1 9223372036854775808 (by decide), q, m, hparts, hsmall⟩

end Op

end Wordcode
