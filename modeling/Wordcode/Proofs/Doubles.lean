import Wordcode.Cbor
import Mathlib

namespace Wordcode

/-! # Doubles

Taking the bits of doubles apart and putting them together loses nothing, neither the bits nor the
values in a narrower format that holds them.

* `Decimal.signed_of_decodeBits`: the bits of a finite double come back from its mantissa and
  exponent.
* `Decimal.ratioBits_eq`: a ratio that is a double is rounded to that double.
* `Cbor.FloatFormat.widen_of_bits?`: a narrow format gives back what it holds exactly.
* `Cbor.exists_encodeFloat`: a double is read back from its encoding.
-/

namespace Decimal

/-! ## Bits -/

/-- The fields of the bits of a double. -/
theorem fields_eq {bits : Nat} (hlt : bits < 2 * signBit) :
    bits = (if bits / signBit % 2 = 1 then signBit else 0) +
      bits / leadingMantissa % 2048 * leadingMantissa + bits % leadingMantissa := by
  by_cases hsign : bits / signBit % 2 = 1
  · rw [if_pos hsign]
    simp only [signBit, leadingMantissa] at hlt hsign ⊢
    omega
  · rw [if_neg hsign]
    simp only [signBit, leadingMantissa] at hlt hsign ⊢
    omega

/-! ## Mantissas and exponents -/

/-- A mantissa and an exponent as a double has them: 53 bits, or fewer with the least exponent. -/
structure Proper (m : Nat) (e : Int) : Prop where
  lt : m < 2 ^ 53
  least_le : -1074 ≤ e
  leading : 2 ^ 52 ≤ m ∨ e = -1074

theorem encodeBits_of_lt {m : Nat} (e : Int) (h : m < 2 ^ 52) : encodeBits m e = m := by
  have hleading : leadingMantissa = 2 ^ 52 := rfl
  unfold encodeBits
  rw [hleading, if_neg (by omega)]
  exact if_pos h

theorem encodeBits_of_le {m : Nat} {e : Int} (hle : 2 ^ 52 ≤ m) (hlt : m < 2 ^ 53) (he : e < 972) :
    encodeBits m e = (e + 1075).toNat * 2 ^ 52 + (m - 2 ^ 52) := by
  have hleading : leadingMantissa = 2 ^ 52 := rfl
  unfold encodeBits
  rw [hleading, if_neg (by omega)]
  simp only
  rw [if_neg (by omega), if_neg (by omega)]

/-- The bits of a finite double come back from its parts. -/
theorem decodeBits_finite {bits m : Nat} {e : Int} {negative : Bool} (hlt : bits < 2 * signBit)
    (h : decodeBits bits = .finite negative m e) :
    Proper m e ∧ bits = if negative then signBit + encodeBits m e else encodeBits m e := by
  -- the bits are the sign, the exponent and the fraction, which are split off by division
  have hfields := fields_eq hlt
  have hfraction : bits % leadingMantissa < 2 ^ 52 := Nat.mod_lt _ (by decide)
  have hfield : bits / leadingMantissa % 2048 < 2048 := Nat.mod_lt _ (by decide)
  unfold decodeBits at h
  simp only at h
  generalize bits / leadingMantissa % 2048 = field at h hfields hfield
  generalize bits % leadingMantissa = fraction at h hfields hfraction
  have hleading : leadingMantissa = 2 ^ 52 := rfl
  simp only [hleading] at h hfields
  split at h
  · split at h <;> cases h
  · split at h
    · rename_i hleast
      simp only [Parts.finite.injEq] at h
      obtain ⟨rfl, rfl, rfl⟩ := h
      refine ⟨⟨by omega, by decide, Or.inr rfl⟩, ?_⟩
      rw [encodeBits_of_lt _ hfraction]
      simp only [decide_eq_true_eq]
      split at hfields <;> rename_i hsign <;> simp only [hsign] <;> simp <;> omega
    · simp only [Parts.finite.injEq] at h
      obtain ⟨rfl, rfl, rfl⟩ := h
      refine ⟨⟨by omega, by omega, Or.inl (by omega)⟩, ?_⟩
      rw [encodeBits_of_le (by omega) (by omega) (by omega)]
      simp only [decide_eq_true_eq]
      split at hfields <;> rename_i hsign <;> simp only [hsign] <;> simp <;> omega

/-- A finite double comes back from its parts. -/
theorem signed_of_decodeBits {x : UInt64} {negative : Bool} {m : Nat} {e : Int}
    (h : decodeBits x.toNat = .finite negative m e) :
    Proper m e ∧ signed negative (encodeBits m e) = x := by
  obtain ⟨hproper, hbits⟩ := decodeBits_finite x.toNat_lt h
  refine ⟨hproper, ?_⟩
  rw [signed, ← hbits, UInt64.ofNat_toNat]

/-- So does an infinite one. -/
theorem signed_of_decodeBits_infinite {x : UInt64} {negative : Bool}
    (h : decodeBits x.toNat = .infinite negative) : signed negative infinityBits = x := by
  have hbits : x.toNat = if negative then signBit + infinityBits else infinityBits := by
    have hfields := fields_eq (show x.toNat < 2 * signBit from x.toNat_lt)
    unfold decodeBits at h
    simp only at h
    -- only the largest exponent with no fraction is infinite
    split at h
    · rename_i hfield
      split at h
      · rename_i hfraction
        simp only [Parts.infinite.injEq] at h
        rw [hfield, hfraction] at hfields
        rw [← h]
        simp only [decide_eq_true_eq]
        split at hfields <;> rename_i hsign <;> simp only [hsign] <;> exact hfields
      · cases h
    · split at h <;> cases h
  rw [signed, ← hbits, UInt64.ofNat_toNat]

/-! ## Ratios -/

theorem log2_mul_two_pow {n : Nat} (hn : n ≠ 0) (k : Nat) : (n * 2 ^ k).log2 = n.log2 + k := by
  induction k with
  | zero => simp
  | succ k ih =>
      rw [Nat.pow_succ', Nat.mul_left_comm, Nat.log2_two_mul (by positivity), ih, Nat.add_assoc]

/-- The number of binary places that doubles reach to. -/
def places : Nat := 1074

/-- The number `m * 2 ^ e` in units of the least positive double. -/
def units (m : Nat) (e : Int) : Nat := m * 2 ^ (e + places).toNat

theorem log2_units {m : Nat} {e : Int} (hm : m ≠ 0) (he : -1074 ≤ e) :
    ((units m e).log2 : Int) = m.log2 + e + places := by
  have hplaces : (places : Int) = 1074 := rfl
  rw [units, log2_mul_two_pow hm]
  omega

/-- A numerator and a denominator that is a power of two. -/
theorem scaleTwo_units {m n d : Nat} {e : Int} (he : -1074 ≤ e) (h : scaleTwo m e = (n, d)) :
    ∃ k, d = 2 ^ k ∧ n * 2 ^ places = units m e * 2 ^ k := by
  have hplaces : (places : Int) = 1074 := rfl
  unfold scaleTwo at h
  unfold units
  split at h
  · obtain ⟨rfl, rfl⟩ := Prod.mk.inj h
    refine ⟨0, rfl, ?_⟩
    rw [Nat.shiftLeft_eq, Nat.mul_assoc, ← Nat.pow_add, Nat.pow_zero, Nat.mul_one,
      show e.toNat + places = (e + places).toNat by omega]
  · obtain ⟨rfl, rfl⟩ := Prod.mk.inj h
    refine ⟨(-e).toNat, Nat.one_shiftLeft _, ?_⟩
    rw [Nat.mul_assoc, ← Nat.pow_add, show (e + places).toNat + (-e).toNat = places by omega]

theorem roundDiv_mul (m : Nat) {d : Nat} (hd : 0 < d) : roundDiv (m * d) d = m := by
  unfold roundDiv
  simp [Nat.mul_div_cancel _ hd, hd.ne]

section

variable {n k : Nat} {g : Int} {n' d' : Nat}
  (h : (if 0 ≤ g then (n, 2 ^ k <<< g.toNat) else (n <<< (-g).toNat, 2 ^ k)) = (n', d'))
include h

/-- In units of which it has 53 bits, a ratio is not below the leading mantissa. -/
theorem leading_le_div (hn : n ≠ 0) (hg : g = (n.log2 : Int) - k - 52) :
    2 ^ 52 ≤ n' / d' := by
  have hlog := Nat.log2_self_le hn
  have hscaled : 0 < d' ∧ 2 ^ 52 * d' ≤ n' := by
    -- the numerator is scaled up or the denominator is
    split at h
    · obtain ⟨rfl, rfl⟩ := Prod.mk.inj h
      rw [Nat.shiftLeft_eq]
      refine ⟨by positivity, ?_⟩
      rw [← Nat.pow_add, ← Nat.pow_add, show 52 + (k + g.toNat) = n.log2 by omega]
      exact hlog
    · obtain ⟨rfl, rfl⟩ := Prod.mk.inj h
      rw [Nat.shiftLeft_eq]
      refine ⟨by positivity, ?_⟩
      rw [← Nat.pow_add, show 52 + k = n.log2 + (-g).toNat by omega, Nat.pow_add]
      exact Nat.mul_le_mul_right _ hlog
  rw [Nat.le_div_iff_mul_le hscaled.1]
  exact hscaled.2

/-- In units of its exponent, a ratio is its mantissa. -/
theorem roundDiv_eq {m : Nat} (hg : -1074 ≤ g) (hunits : n * 2 ^ places = units m g * 2 ^ k) :
    roundDiv n' d' = m := by
  have hplaces : (g + places).toNat + (-g).toNat = places + g.toNat := by
    have hplaces : (places : Int) = 1074 := rfl
    clear hunits
    omega
  -- the number is a whole multiple, whichever side is scaled
  have hscaled : 0 < d' ∧ n' = m * d' := by
    split at h
    · rename_i hsign
      obtain ⟨rfl, rfl⟩ := Prod.mk.inj h
      rw [Int.toNat_of_nonpos (Int.neg_nonpos_of_nonneg hsign), Nat.add_zero] at hplaces
      rw [Nat.shiftLeft_eq]
      refine ⟨by positivity, Nat.eq_of_mul_eq_mul_right (Nat.two_pow_pos places) ?_⟩
      rw [hunits, units, hplaces, Nat.pow_add]
      ring
    · rename_i hsign
      obtain ⟨rfl, rfl⟩ := Prod.mk.inj h
      rw [Int.toNat_of_nonpos (Int.le_of_lt (Int.not_le.mp hsign)), Nat.add_zero] at hplaces
      rw [Nat.shiftLeft_eq]
      refine ⟨by positivity, Nat.eq_of_mul_eq_mul_right (Nat.two_pow_pos (g + places).toNat) ?_⟩
      rw [Nat.mul_assoc, ← Nat.pow_add, Nat.add_comm (-g).toNat, hplaces, hunits, units]
      ring
  rw [hscaled.2, roundDiv_mul m hscaled.1]

end

/-- A ratio that is a double is rounded to that double. -/
theorem ratioBits_eq {n k m : Nat} {e : Int} (h : Proper m e) (hm : m ≠ 0)
    (hunits : n * 2 ^ places = units m e * 2 ^ k) : ratioBits n (2 ^ k) = encodeBits m e := by
  have hn : n ≠ 0 := by
    rintro rfl
    simp [units, hm] at hunits
  have hguess : (n.log2 : Int) - k = m.log2 + e := by
    have hlog := congrArg Nat.log2 hunits
    have hne : units m e ≠ 0 := by simp [units, hm]
    have hlog' := log2_units hm h.least_le
    rw [log2_mul_two_pow hn, log2_mul_two_pow hne] at hlog
    clear hunits
    omega
  -- the exponent is the least one, or else the mantissa has 53 bits and the guess is the exponent
  have hexponent : (if (m.log2 : Int) + e - 52 < -1074 then -1074 else (m.log2 : Int) + e - 52) =
      e := by
    have hlt := (Nat.log2_lt hm).mpr h.lt
    have hleast := h.least_le
    rcases h.leading with hleading | rfl
    · have hge := (Nat.le_log2 hm).mpr hleading
      split <;> omega
    · split <;> omega
  obtain ⟨n₁, d₁, hfirst⟩ : ∃ n₁ d₁, (if 0 ≤ (m.log2 : Int) + e - 52
      then (n, 2 ^ k <<< ((m.log2 : Int) + e - 52).toNat)
      else (n <<< (-((m.log2 : Int) + e - 52)).toNat, 2 ^ k)) = (n₁, d₁) := ⟨_, _, rfl⟩
  obtain ⟨n₂, d₂, hsecond⟩ : ∃ n₂ d₂, (if 0 ≤ e then (n, 2 ^ k <<< e.toNat)
      else (n <<< (-e).toNat, 2 ^ k)) = (n₂, d₂) := ⟨_, _, rfl⟩
  have hleading : ¬ n₁ / d₁ < leadingMantissa := by
    have hle := leading_le_div hfirst hn (by omega)
    exact Nat.not_lt.mpr hle
  have hround := roundDiv_eq hsecond h.least_le hunits
  unfold ratioBits
  simp only [Nat.log2_two_pow, hguess, hfirst, hleading, if_false, minExponent, hexponent, hsecond,
    hround]

/-- A double comes back from a ratio with its value. -/
theorem bitsOfRatio_scaleTwo {m m' : Nat} {e e' : Int} (h : Proper m e) (hm : m ≠ 0)
    (he' : -1074 ≤ e') (hunits : units m' e' = units m e) (negative : Bool) :
    bitsOfRatio negative (scaleTwo m' e').1 (scaleTwo m' e').2 =
      signed negative (encodeBits m e) := by
  obtain ⟨k, hd, hn⟩ := scaleTwo_units he' (Prod.mk.eta (p := scaleTwo m' e')).symm
  have hpos : (scaleTwo m' e').1 ≠ 0 := by
    intro hzero
    rw [hzero, hunits] at hn
    simp [units, hm] at hn
  rw [hunits] at hn
  rw [bitsOfRatio, if_neg hpos, hd, ratioBits_eq h hm hn]

end Decimal

namespace Cbor

open Decimal

/-! ## Narrow formats -/

/-- A format that fills a number of bits with a sign, an exponent and a fraction, and whose numbers
are doubles. -/
structure FloatFormat.Fills (f : FloatFormat) (width : Nat) : Prop where
  precision_pos : 0 < f.precision
  precision_le : f.precision ≤ width
  capacity : 2 ^ (width - f.precision) = 2 * f.bias + 2
  least_le : -1074 ≤ f.minExponent

theorem half_fills : half.Fills 16 := by
  constructor <;> decide

theorem single_fills : single.Fills 32 := by
  constructor <;> decide

/-- A whole number of units has the value that it was made from. -/
theorem units_scaleTwo {m n d : Nat} {e unit : Int} (he : -1074 ≤ e) (hunit : -1074 ≤ unit)
    (h : scaleTwo m (e - unit) = (n, d)) (hwhole : n % d = 0) :
    units (n / d) unit = units m e := by
  have hplaces : (places : Int) = 1074 := rfl
  unfold scaleTwo at h
  unfold units
  split at h
  · obtain ⟨rfl, rfl⟩ := Prod.mk.inj h
    rw [Nat.shiftLeft_eq, Nat.div_one, Nat.mul_assoc, ← Nat.pow_add,
      show (e - unit).toNat + (unit + places).toNat = (e + places).toNat by omega]
  · obtain ⟨rfl, rfl⟩ := Prod.mk.inj h
    rw [Nat.one_shiftLeft] at hwhole ⊢
    rw [show (unit + places).toNat = (-(e - unit)).toNat + (e + places).toNat by omega,
      Nat.pow_add, ← Nat.mul_assoc, Nat.div_mul_cancel (Nat.dvd_of_mod_eq_zero hwhole)]

/-- The bits of a number are its significand, or an exponent field and a fraction. -/
theorem FloatFormat.bits?_cases {f : FloatFormat} (hpos : 0 < f.precision)
    (hleast : -1074 ≤ f.minExponent) {m bits : Nat} {e : Int} (hm : m ≠ 0) (he : -1074 ≤ e)
    (h : f.bits? m e = some bits) :
    ∃ (significand : Nat) (unit : Int), units significand unit = units m e ∧
      f.minExponent ≤ unit ∧
      (unit = f.minExponent ∧ significand < 2 ^ (f.precision - 1) ∧ bits = significand ∨
        2 ^ (f.precision - 1) ≤ significand ∧ significand < 2 ^ f.precision ∧
          unit - f.minExponent + 1 ≤ 2 * f.bias ∧
          bits = (unit - f.minExponent + 1).toNat * 2 ^ (f.precision - 1) +
            (significand - 2 ^ (f.precision - 1))) := by
  unfold bits? at h
  rw [if_neg hm] at h
  simp only at h
  generalize hunit : max f.minExponent ((m.log2 : Int) + e - (f.precision - 1 : Nat)) = unit at h
  obtain ⟨n, d, hscale⟩ : ∃ n d, scaleTwo m (e - unit) = (n, d) := ⟨_, _, rfl⟩
  rw [hscale] at h
  simp only at h
  split at h
  · cases h
  · rename_i hexact
    simp only [Bool.or_eq_true, ne_eq, decide_eq_true_eq, not_or, not_not] at hexact
    have hunits := units_scaleTwo he (by omega) hscale hexact.1
    have hne : n / d ≠ 0 := by
      intro hzero
      rw [hzero, units, Nat.zero_mul, units] at hunits
      simp [hm] at hunits
    -- significand and unit make up the same binary magnitude as mantissa and exponent
    have hlog : ((n / d).log2 : Int) + unit = m.log2 + e := by
      have hlog := congrArg Nat.log2 hunits
      have hlog₁ := log2_units hne (show -1074 ≤ unit by omega)
      have hlog₂ := log2_units hm he
      omega
    have hlt : n / d < 2 ^ f.precision := (Nat.log2_lt hne).mp (by omega)
    rw [Nat.one_shiftLeft] at h
    refine ⟨n / d, unit, hunits, by omega, ?_⟩
    split at h
    · rename_i hsmall
      have hlog' := (Nat.log2_lt hne).mpr hsmall
      exact Or.inl ⟨by omega, hsmall, (Option.some.inj h).symm⟩
    · rename_i hlarge
      have hlarge' := Nat.not_lt.mp hlarge
      have hlog' := (Nat.le_log2 hne).mpr hlarge'
      have hrange : unit - f.minExponent + 1 ≤ 2 * f.bias := by
        unfold minExponent at hunit ⊢
        omega
      exact Or.inr ⟨hlarge', hlt, hrange, (Option.some.inj h).symm⟩

/-- A number is read from its exponent field and its fraction. -/
theorem FloatFormat.widen_fields {f : FloatFormat} {width : Nat} (hf : f.Fills width)
    {field fraction : Nat} (hfield : field ≤ 2 * f.bias)
    (hfraction : fraction < 2 ^ (f.precision - 1)) (negative : Bool) :
    f.widen width ((if negative then 2 ^ (width - 1) else 0) +
        (field * 2 ^ (f.precision - 1) + fraction)) =
      let r := if field = 0 then scaleTwo fraction f.minExponent
        else scaleTwo (2 ^ (f.precision - 1) + fraction) (f.minExponent + field - 1)
      bitsOfRatio negative r.1 r.2 := by
  have hpos := hf.precision_pos
  have hle := hf.precision_le
  have hwidth : width - 1 = width - f.precision + (f.precision - 1) := by omega
  have hplaces : width - 1 - (f.precision - 1) = width - f.precision := by omega
  have hcapacity := hf.capacity
  generalize hbits : (if negative then 2 ^ (width - 1) else 0) +
    (field * 2 ^ (f.precision - 1) + fraction) = bits
  have hone : 0 < 2 ^ (f.precision - 1) := Nat.two_pow_pos _
  -- the sign is a multiple of what lies below it
  have hsplit : bits = ((if negative then 1 else 0) * 2 ^ (width - f.precision) + field) *
      2 ^ (f.precision - 1) + fraction := by
    rw [← hbits, hwidth]
    cases negative <;> simp [Nat.pow_add, Nat.add_mul, Nat.add_assoc]
  have hhigh : bits / 2 ^ (f.precision - 1) =
      (if negative then 1 else 0) * 2 ^ (width - f.precision) + field := by
    rw [hsplit, Nat.mul_comm, Nat.mul_add_div hone, Nat.div_eq_of_lt hfraction, Nat.add_zero]
  have hlow : bits % 2 ^ (f.precision - 1) = fraction := by
    rw [hsplit, Nat.mul_comm, Nat.mul_add_mod, Nat.mod_eq_of_lt hfraction]
  have hmiddle : bits / 2 ^ (f.precision - 1) % 2 ^ (width - f.precision) = field := by
    rw [hhigh, Nat.mul_comm, Nat.mul_add_mod, Nat.mod_eq_of_lt (by omega)]
  have hsign : decide (bits / 2 ^ (width - 1) % 2 = 1) = negative := by
    have htop : bits / 2 ^ (width - 1) = if negative then 1 else 0 := by
      rw [hwidth, Nat.add_comm, Nat.pow_add, ← Nat.div_div_eq_div_mul, hhigh, Nat.mul_comm,
        Nat.mul_add_div (Nat.two_pow_pos _), Nat.div_eq_of_lt (by omega), Nat.add_zero]
    rw [htop]
    cases negative <;> rfl
  unfold widen
  simp only [Nat.shiftRight_eq_div_pow, Nat.one_shiftLeft, hplaces, hmiddle, hlow, hsign]
  rw [if_neg (by omega)]
  by_cases hzero : field = 0 <;> simp [hzero]

/-- A format gives back what it holds exactly. -/
theorem FloatFormat.widen_of_bits? {f : FloatFormat} {width : Nat} (hf : f.Fills width)
    {m bits : Nat} {e : Int} (h : Proper m e) (hbits : f.bits? m e = some bits)
    (negative : Bool) :
    bits < 2 ^ (width - 1) ∧
      f.widen width ((if negative then 2 ^ (width - 1) else 0) + bits) =
        signed negative (encodeBits m e) := by
  have hpos := hf.precision_pos
  have hcapacity := hf.capacity
  have hhalf : 2 ^ (width - 1) = (2 * f.bias + 2) * 2 ^ (f.precision - 1) := by
    have hle := hf.precision_le
    rw [← hcapacity, ← Nat.pow_add, show width - f.precision + (f.precision - 1) = width - 1 by
      omega]
  have hone : 0 < 2 ^ (f.precision - 1) := Nat.two_pow_pos _
  by_cases hm : m = 0
  · subst hm
    have hzero : bits = 0 := by simpa [bits?, eq_comm] using hbits
    subst hzero
    have hread := widen_fields hf (Nat.zero_le (2 * f.bias)) hone negative
    refine ⟨Nat.two_pow_pos _, ?_⟩
    rw [Nat.zero_mul, Nat.zero_add] at hread
    rw [hread, encodeBits_of_lt e (by decide)]
    simp [scaleTwo, bitsOfRatio]
    split <;> simp
  · obtain ⟨significand, unit, hunits, hunit, hcases⟩ :=
      bits?_cases hpos hf.least_le hm h.least_le hbits
    have hleast := hf.least_le
    have hdouble : 2 ^ f.precision = 2 * 2 ^ (f.precision - 1) := by
      rw [← Nat.pow_succ', Nat.succ_eq_add_one, Nat.sub_add_cancel hpos]
    have hratio := bitsOfRatio_scaleTwo h hm (show -1074 ≤ unit by omega) hunits negative
    rcases hcases with ⟨rfl, hsmall, rfl⟩ | ⟨hlarge, hlt, hrange, rfl⟩
    -- below the least normal number the significand has no implicit bit
    · have hread := widen_fields hf (Nat.zero_le (2 * f.bias)) hsmall negative
      refine ⟨by nlinarith, ?_⟩
      rw [Nat.zero_mul, Nat.zero_add] at hread
      rw [hread, ← hratio]
      simp
    · have hfield : (unit - f.minExponent + 1).toNat ≤ 2 * f.bias := by omega
      have hread := widen_fields hf hfield
        (show significand - 2 ^ (f.precision - 1) < 2 ^ (f.precision - 1) by omega) negative
      have htop := Nat.mul_le_mul_right (2 ^ (f.precision - 1)) hfield
      rw [Nat.add_mul] at hhalf
      refine ⟨by omega, ?_⟩
      rw [hread, ← hratio, if_neg (by omega)]
      rw [show 2 ^ (f.precision - 1) + (significand - 2 ^ (f.precision - 1)) = significand by omega,
        show f.minExponent + ((unit - f.minExponent + 1).toNat : Int) - 1 = unit by omega]

/-- A double that is a number, or the one that is not, is read back from its encoding, which is as
short as its value allows. -/
theorem exists_encodeFloat {x : UInt64} (h : decodeBits x.toNat = .nan → x = quietNan) :
    ∃ size width n, (size, width) ∈ [(25, 2), (26, 4), (27, 8)] ∧ n < 256 ^ width ∧
      encodeFloat x = UInt8.ofNat (7 * 32 + size) :: bigEndian width n ∧
      readSimple? size n = some (.float x) := by
  unfold encodeFloat
  -- the shortest of the three forms that loses nothing is taken
  cases hdecode : decodeBits x.toNat with
  | nan =>
      refine ⟨25, 2, 0x7E00, by decide, by decide, rfl, ?_⟩
      rw [h hdecode]
      rfl
  | infinite negative =>
      rw [← signed_of_decodeBits_infinite hdecode]
      cases negative with
      | false => exact ⟨25, 2, 0x7C00, by decide, by decide, rfl, rfl⟩
      | true => exact ⟨25, 2, 0xFC00, by decide, by decide, rfl, rfl⟩
  | finite negative m e =>
      obtain ⟨hproper, hx⟩ := signed_of_decodeBits hdecode
      have hsigned (high bits : Nat) : (if negative then high + bits else bits) =
          (if negative then high else 0) + bits := by cases negative <;> simp
      simp only
      split
      · rename_i bits hhalf
        obtain ⟨hlt, hread⟩ := FloatFormat.widen_of_bits? half_fills hproper hhalf negative
        refine ⟨25, 2, _, by decide, ?_, rfl, ?_⟩
        · split <;> omega
        · rw [hsigned, readSimple?]
          exact congrArg (fun y => some (Item.float y)) (hread.trans hx)
      · rename_i bits hhalf hsingle
        obtain ⟨hlt, hread⟩ := FloatFormat.widen_of_bits? single_fills hproper hsingle negative
        refine ⟨26, 4, _, by decide, ?_, rfl, ?_⟩
        · split <;> omega
        · rw [hsigned, readSimple?]
          exact congrArg (fun y => some (Item.float y)) (hread.trans hx)
      · refine ⟨27, 8, _, by decide, x.toNat_lt, rfl, ?_⟩
        rw [readSimple?, UInt64.ofNat_toNat]

end Cbor

end Wordcode
