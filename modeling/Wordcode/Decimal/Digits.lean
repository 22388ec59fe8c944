import Wordcode.Decimal.Binary

namespace Wordcode.Decimal

/-! # Decimal digits of a double

The digits of a positive double, either the fewest that still name it or a given number of them,
and the two ways to lay digits out: positional and scientific.
-/

/-- A decimal number `0.d₁d₂d₃… * 10 ^ point`, without trailing zeros. Zero has no digits. -/
structure Digits where
  digits : List Char
  point : Int
  deriving DecidableEq, Repr, Inhabited

/-- The decimal digits of a natural number, most significant first. -/
def natDigits (n : Nat) : List Char :=
  Nat.toDigits 10 n

/-- Drops zeros from the end. -/
def dropZeros (cs : List Char) : List Char :=
  (cs.reverse.dropWhile (· = '0')).reverse

/-- The digits of `n * 10 ^ e`. -/
def Digits.ofScaled (n : Nat) (e : Int) : Digits :=
  if n = 0 then ⟨[], 0⟩
  else
    let cs := natDigits n
    ⟨dropZeros cs, cs.length + e⟩

/-- The greatest `e` with `10 ^ e ≤ num / den`, for a positive ratio. -/
def decimalExponent (num den : Nat) : Int :=
  -- The binary exponent gives the decimal one up to one place on either side.
  let guess := ((Nat.log2 num : Int) - (Nat.log2 den : Int)) * 30103 / 100000
  let atMost (e : Int) : Bool :=
    let (a, b) := scaleTen 1 1 e
    decide (a * den ≤ num * b)
  if atMost (guess + 1) then guess + 1 else if atMost guess then guess else guess - 1

/-- The decimals that a double may be written as: those that round to it. Numbers are in units of
`2 ^ (exponent - 2)`; the ends belong to the interval when the mantissa is even. -/
structure Interval where
  low : Nat
  value : Nat
  high : Nat
  exponent : Int
  closed : Bool
  deriving Repr, Inhabited

/-- The interval of a positive double. Below a power of two the neighbour is nearer. -/
def Interval.ofParts (mantissa : Nat) (exponent : Int) : Interval :=
  let low := if mantissa = leadingMantissa && minExponent < exponent then 4 * mantissa - 1
    else 4 * mantissa - 2
  ⟨low, 4 * mantissa, 4 * mantissa + 2, exponent - 2, mantissa % 2 = 0⟩

/-- Whether `d * 10 ^ e` lies in the interval. -/
def Interval.contains (i : Interval) (d : Nat) (e : Int) : Bool :=
  let (dn, dd) := scaleTen d 1 e
  let (ln, ld) := scaleTwo i.low i.exponent
  let (hn, hd) := scaleTwo i.high i.exponent
  if i.closed then decide (ln * dd ≤ dn * ld) && decide (dn * hd ≤ hn * dd)
  else decide (ln * dd < dn * ld) && decide (dn * hd < hn * dd)

/-- The number with `count` digits that names the double: the nearer of the two neighbours on that
decimal grid, if one of them lies in the interval. -/
def Interval.nearest? (i : Interval) (exponent : Int) (count : Nat) : Option Digits :=
  let e := exponent - (count - 1 : Nat)
  let (vn, vd) := scaleTwo i.value i.exponent
  let (n, d) := scaleTen vn vd (-e)
  let below := n / d
  let rest := n % d
  let lowOk := i.contains below e
  let highOk := i.contains (below + 1) e
  let takeHigh := highOk && (!lowOk || decide (d < 2 * rest) || (2 * rest = d && below % 2 = 1))
  if takeHigh then some (Digits.ofScaled (below + 1) e)
  else if lowOk then some (Digits.ofScaled below e)
  else none

/-- The fewest digits that name a positive double; seventeen always do. -/
def shortest (mantissa : Nat) (exponent : Int) : Digits :=
  if mantissa = 0 then ⟨[], 0⟩
  else
    let i := Interval.ofParts mantissa exponent
    let (n, d) := scaleTwo mantissa exponent
    let e := decimalExponent n d
    ((List.range 17).findSome? fun k => i.nearest? e (k + 1)).getD
      (Digits.ofScaled (roundDiv (scaleTen n d (16 - e)).1 (scaleTen n d (16 - e)).2) (e - 16))

/-- The digits of a positive double rounded to `places` places after the point. -/
def toPlaces (mantissa : Nat) (exponent : Int) (places : Nat) : Digits :=
  let (n, d) := scaleTwo mantissa exponent
  Digits.ofScaled (roundDiv (n * Nat.pow 10 places) d) (-(places : Int))

/-- The digits of a positive double rounded to `count` significant ones. -/
def toSignificant (mantissa : Nat) (exponent : Int) (count : Nat) : Digits :=
  if mantissa = 0 then ⟨[], 0⟩
  else
    let (n, d) := scaleTwo mantissa exponent
    let e := decimalExponent n d - (count - 1 : Nat)
    let (n, d) := scaleTen n d (-e)
    Digits.ofScaled (roundDiv n d) e

/-! ## Layout -/

/-- The first `n` digits from position `start`, zeros where there are none. -/
def Digits.slice (d : Digits) (start n : Nat) : List Char :=
  (List.range n).map fun k => d.digits.getD (start + k) '0'

/-- Positional notation with a given number of places. -/
def Digits.positional (d : Digits) (places : Nat) : List Char :=
  let whole := if 0 < d.point then d.slice 0 d.point.toNat else ['0']
  let fraction := (List.range places).map fun (k : Nat) =>
    let position : Int := d.point + k
    if 0 ≤ position then d.digits.getD position.toNat '0' else '0'
  if places = 0 then whole else whole ++ '.' :: fraction

/-- Scientific notation with a given number of places; the exponent has at least two digits. -/
def Digits.scientific (d : Digits) (places : Nat) (mark : Char) : List Char :=
  let lead := d.digits.getD 0 '0'
  let fraction := d.slice 1 places
  let e : Int := if d.digits.isEmpty then 0 else d.point - 1
  let power := natDigits e.natAbs
  let power := if power.length < 2 then '0' :: power else power
  lead :: (if places = 0 then [] else '.' :: fraction) ++
    mark :: (if e < 0 then '-' else '+') :: power

/-- As few characters as the digits need: positional notation for exponents from -4 up to `limit`,
scientific notation otherwise. -/
def Digits.general (d : Digits) (limit : Int) (mark : Char) : List Char :=
  let e := d.point - 1
  if e < -4 || limit ≤ e then d.scientific (d.digits.length - 1) mark
  else d.positional ((d.digits.length : Int) - d.point).toNat

/-- All digits in positional notation. -/
def Digits.plain (d : Digits) : List Char :=
  d.positional ((d.digits.length : Int) - d.point).toNat

/-- A double in few characters: the fewest digits that read back, in scientific notation below
`1e-4` and from a million on. -/
def compact (x : Float) : String :=
  match decode x with
  | .nan => "NaN"
  | .infinite negative => if negative then "-Inf" else "+Inf"
  | .finite negative m e =>
    let body := if m = 0 then ['0'] else (shortest m e).general 6 'e'
    String.ofList (if negative then '-' :: body else body)

end Wordcode.Decimal
