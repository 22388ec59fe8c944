namespace Wordcode.Word

/-! # Words

The range of the integers of 64 bits.
-/

/-- One more than the largest word with a sign: the 63rd power of two. -/
def limit : Int := 9223372036854775808

/-- One more than the largest word without a sign: the 64th power of two. -/
def modulus : Nat := 18446744073709551616

/-- Whether a number is a word with a sign. -/
def fits (n : Int) : Bool := decide (-limit ≤ n) && decide (n < limit)

theorem toInt_ne_zero {n : Int64} (h : n ≠ 0) : n.toInt ≠ 0 := by
  simpa [← Int64.toInt_inj] using h

theorem toInt_neg_iff {n : Int64} : n.toInt < 0 ↔ n < 0 := by
  rw [Int64.lt_iff_toInt_lt, Int64.toInt_zero]

end Wordcode.Word
