namespace Wordcode.Decimal

/-! # Binary floating point, exactly

A finite double is a natural number times a power of two. `decode` takes a double apart and
`ofRatio` finds the double nearest to a ratio, so that everything in between is exact arithmetic
on natural numbers.
-/

/-- A double taken apart. -/
inductive Parts
  /-- `mantissa * 2 ^ exponent`, negated if so marked. -/
  | finite (negative : Bool) (mantissa : Nat) (exponent : Int)
  | infinite (negative : Bool)
  | nan
  deriving DecidableEq, Repr, Inhabited

/-- The exponent of the smallest positive double. -/
def minExponent : Int := -1074

/-- The smallest mantissa of 53 bits: the 52nd power of two. -/
def leadingMantissa : Nat := 4503599627370496

/-- The bit that holds the sign: the 63rd power of two. -/
def signBit : Nat := 9223372036854775808

/-- The magnitude bits of infinity. -/
def infinityBits : Nat := 0x7FF0000000000000

/-- The bits of what is not a number. -/
def nanBits : Nat := 0x7FF8000000000001

/-- Takes the 64 bits of a double apart. -/
def decodeBits (bits : Nat) : Parts :=
  let negative := decide (bits / signBit % 2 = 1)
  let field : Nat := bits / leadingMantissa % 2048
  let fraction : Nat := bits % leadingMantissa
  if field = 2047 then
    if fraction = 0 then .infinite negative else .nan
  else if field = 0 then .finite negative fraction minExponent
  else .finite negative (leadingMantissa + fraction) ((field : Int) - 1075)

/-- Whether a double with the given bits is not a number. -/
def isNan (x : UInt64) : Bool := decodeBits x.toNat = .nan

/-- Whether a double with the given bits is equal to zero; there are two that are. -/
def isZero (x : UInt64) : Bool := x.toNat % signBit = 0

/-- Takes a double apart. -/
def decode (x : Float) : Parts :=
  decodeBits x.toBits.toNat

/-- Whether the sign of a double is negative, also for a negative zero. -/
def isNegative (x : Float) : Bool :=
  decide (x.toBits.toNat / signBit = 1)

/-- A numerator and denominator of `n * 2 ^ e`. -/
def scaleTwo (n : Nat) (e : Int) : Nat × Nat :=
  if 0 ≤ e then (n <<< e.toNat, 1) else (n, 1 <<< (-e).toNat)

/-- A numerator and denominator of `(num / den) * 10 ^ e`. -/
def scaleTen (num den : Nat) (e : Int) : Nat × Nat :=
  if 0 ≤ e then (num * Nat.pow 10 e.toNat, den) else (num, den * Nat.pow 10 (-e).toNat)

/-- The quotient rounded to the nearest natural number, a half to the even neighbour. -/
def roundDiv (num den : Nat) : Nat :=
  let q := num / den
  let r := num % den
  if den < 2 * r || (2 * r = den && q % 2 = 1) then q + 1 else q

/-- The bits of the positive double `m * 2 ^ e`, where `m` has at most 53 bits, and 53 of them
unless `e` is the least exponent. -/
def encodeBits (m : Nat) (e : Int) : Nat :=
  let (m, e) := if 2 * leadingMantissa ≤ m then (m / 2, e + 1) else (m, e)
  if m < leadingMantissa then m
  else
    let field := e + 1075
    if 2047 ≤ field then infinityBits
    else field.toNat * leadingMantissa + (m - leadingMantissa)

/-- The bits of the double nearest to the ratio of two positive numbers, a tie going to the even
mantissa; infinity when the ratio is too large. -/
def ratioBits (num den : Nat) : Nat :=
  let guess : Int := (Nat.log2 num : Int) - (Nat.log2 den : Int) - 52
  -- The ratio lies between `2 ^ 51` and `2 ^ 53` units of `2 ^ guess`.
  let (n, d) := if 0 ≤ guess then (num, den <<< guess.toNat) else (num <<< (-guess).toNat, den)
  let e := if n / d < leadingMantissa then guess - 1 else guess
  let e := if e < minExponent then minExponent else e
  let (n, d) := if 0 ≤ e then (num, den <<< e.toNat) else (num <<< (-e).toNat, den)
  encodeBits (roundDiv n d) e

/-- The 64 bits of the double with the given magnitude bits and sign. -/
def signed (negative : Bool) (bits : Nat) : UInt64 :=
  UInt64.ofNat (if negative then signBit + bits else bits)

/-- The double with the given magnitude bits and sign. -/
def ofBits (negative : Bool) (bits : Nat) : Float := Float.ofBits (signed negative bits)

/-- The 64 bits of the double nearest to a ratio. -/
def bitsOfRatio (negative : Bool) (num den : Nat) : UInt64 :=
  signed negative (if num = 0 then 0 else ratioBits num den)

/-- The double nearest to a ratio. -/
def ofRatio (negative : Bool) (num den : Nat) : Float := Float.ofBits (bitsOfRatio negative num den)

/-- The double nearest to an integer. -/
def ofInt (n : Int) : Float :=
  ofRatio (n < 0) n.natAbs 1

end Wordcode.Decimal
