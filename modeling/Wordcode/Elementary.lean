import Wordcode.Decimal.Binary
import Wordcode.Word

namespace Wordcode.Elementary

/-! # Elementary functions on doubles

Remainders and powers. Remainders are exact. Powers are computed from a logarithm, an exponential
and repeated squaring in double precision; the order of the operations decides the last bit and is
part of the definition.
-/

open Decimal

/-- Whether a double is not a number. -/
def isNaN (x : Float) : Bool := x != x

/-- Whether a double is infinite. -/
def isInfinite (x : Float) : Bool := x.abs == Float.ofBits 0x7FF0000000000000

def infinity : Float := Float.ofBits 0x7FF0000000000000

def notANumber : Float := Float.ofBits 0x7FF8000000000001

/-- The integral part, toward zero. -/
def truncate (x : Float) : Float :=
  if isInfinite x then x
  else match decode x with
    | .finite negative m e =>
      if 0 ≤ e then x else ofRatio negative (m >>> (-e).toNat) 1
    | _ => x

/-- The greatest integral double that is not above. -/
def floor (x : Float) : Float :=
  match decode x with
  | .finite negative m e =>
    if 0 ≤ e || m = 0 then x
    else
      let d := 1 <<< (-e).toNat
      let q := m / d
      if negative then ofRatio true (if m % d = 0 then q else q + 1) 1 else ofRatio false q 1
  | _ => x

/-- The integer that a finite double truncates to. -/
def toInt (x : Float) : Int :=
  match decode x with
  | .finite negative m e =>
    let n : Nat := if 0 ≤ e then m <<< e.toNat else m >>> (-e).toNat
    if negative then -(n : Int) else n
  | _ => 0

/-- The integer of 64 bits that a double is cut off to; one out of range gives the least integer. -/
def toWord (x : Float) : Int64 :=
  let n := toInt x
  if Word.fits n then Int64.ofInt n else Int64.minValue

/-- A double as a fraction of magnitude from a half to one, and a power of two. -/
def splitExponent (x : Float) : Float × Int :=
  match decode x with
  | .finite negative m e =>
    if m = 0 then (x, 0)
    else
      let k := Nat.log2 m + 1
      (ofRatio negative m (1 <<< k), e + k)
  | _ => (x, 0)

/-- `x * 2 ^ k`, rounded once. -/
def scale (x : Float) (k : Int) : Float :=
  match decode x with
  | .finite negative m e =>
    let (n, d) := scaleTwo m (max (-3000) (min 3000 (e + k)))
    ofRatio negative n d
  | _ => x

/-- `a * b + c`, rounded once. -/
def fusedMulAdd (a b c : Float) : Float :=
  match decode a, decode b, decode c with
  | .finite sa ma ea, .finite sb mb eb, .finite sc mc ec =>
    let low := min (ea + eb) ec
    let signed (s : Bool) (m : Nat) (e : Int) : Int :=
      let n : Nat := m <<< (e - low).toNat
      if s then -n else n
    let total := signed (sa != sb) (ma * mb) (ea + eb) + signed sc mc ec
    if total = 0 then a * b + c
    else
      let (n, d) := scaleTwo total.natAbs low
      ofRatio (total < 0) n d
  | _, _, _ => a * b + c

/-- The remainder of a division toward zero; it has the sign of the dividend. -/
def remainder (x y : Float) : Float :=
  match decode x, decode y with
  | .finite sx mx ex, .finite _ my ey =>
    if my = 0 then notANumber
    else
      let low := min ex ey
      let a := mx <<< (ex - low).toNat
      let b := my <<< (ey - low).toNat
      let (n, d) := scaleTwo (a % b) low
      ofRatio sx n d
  | .finite .., .infinite _ => x
  | _, _ => notANumber

/-- The natural logarithm. -/
def log (x : Float) : Float :=
  if isNaN x || x == infinity then x
  else if x < 0 then notANumber
  else if x == 0 then -infinity
  else
    let (f1, k) := splitExponent x
    let (f1, k) := if f1 < 0.70710678118654752440 then (f1 * 2, k - 1) else (f1, k)
    let f := f1 - 1
    let k := ofInt k
    let s := f / (2 + f)
    let s2 := s * s
    let s4 := s2 * s2
    let t1 := s2 * (6.666666666666735130e-01 + s4 * (2.857142874366239149e-01 +
      s4 * (1.818357216161805012e-01 + s4 * 1.479819860511658591e-01)))
    let t2 := s4 * (3.999999999940941908e-01 + s4 * (2.222219843214978396e-01 +
      s4 * 1.531383769920937332e-01))
    let r := t1 + t2
    let half := 0.5 * f * f
    k * 6.93147180369123816490e-01 -
      ((half - (s * (half + r) + k * 1.90821492927058770002e-10)) - f)

/-- The logarithm to base ten, a multiple of the natural one. -/
def log10 (x : Float) : Float :=
  log x * 0.434294481903251827651128918916605082

/-- The nearest integer, a half to the even neighbour. -/
def nearestInt (x : Float) : Int :=
  match decode x with
  | .finite negative m e =>
    let (n, d) := scaleTwo m e
    let q := roundDiv n d
    if negative then -(q : Int) else q
  | _ => 0

/-- The exponential function. -/
def exp (x : Float) : Float :=
  if isNaN x || x == infinity then x
  else if x == -infinity then 0
  else if x > 7.09782712893384e+02 then infinity
  else if x < -7.5e+02 then 0
  else
    let k := nearestInt (1.4426950408889634073599246810018920 * x)
    let kf := ofInt k
    let x := fusedMulAdd (-0.69314718055966295651160180568695068359375) kf x
    let x := fusedMulAdd (-0.28235290563031577122588448175013436025525412068e-12) kf x
    let x := x * 0.0625
    let poly := [1.9841269841269841270e-4, 1.3888888888888888889e-3, 8.3333333333333333333e-3,
      4.1666666666666666667e-2, 1.6666666666666666667e-1, 0.5, 1.0].foldl
        (fun p c => fusedMulAdd p x c) 2.4801587301587301587e-5
    let x := x * poly
    let x := x * (x + 2)
    let x := x * (x + 2)
    let x := x * (x + 2)
    scale (fusedMulAdd x (x + 2) 1) k

/-- Whether a double is an odd integer. -/
def isOdd (x : Float) : Bool :=
  match decode x with
  | .finite _ m e =>
    if 0 < e then false
    else
      let d := 1 <<< (-e).toNat
      m % d = 0 && m / d % 2 = 1
  | _ => false

/-- Repeated squaring on a fraction and its exponent. `n` is the rest of the power, `x` and `xe` the
current square, `a` and `ae` the product so far. -/
def powerLoop : Nat → Nat → Float → Int → Float → Int → Float × Int
  | 0, _, _, _, a, ae => (a, ae)
  | fuel + 1, n, x, xe, a, ae =>
    if n = 0 then (a, ae)
    else if xe < -4096 || 4096 < xe then (a, ae + xe)
    else
      let (a, ae) := if n % 2 = 1 then (a * x, ae + xe) else (a, ae)
      let x := x * x
      let xe := 2 * xe
      let (x, xe) := if x < 0.5 then (x + x, xe - 1) else (x, xe)
      powerLoop fuel (n / 2) x xe a ae

/-- A power of a finite base other than zero, with a finite exponent. -/
def finitePower (x y : Float) : Float :=
  let whole := truncate y.abs
  let part := y.abs - whole
  if part != 0 && x < 0 then notANumber
  else if whole >= 9.223372036854775808e18 then
    if x == -1 then 1
    else if (x.abs < 1) == (y > 0) then 0
    else infinity
  else
    let (part, whole) := if part > 0.5 then (part - 1, whole + 1) else (part, whole)
    let a := if part != 0 then exp (part * log x) else 1
    let (x1, xe) := splitExponent x
    let (a, ae) := powerLoop 64 (toInt whole).toNat x1 xe a 0
    if y < 0 then scale (1 / a) (-ae) else scale a ae

/-- The power `x ^ y`. -/
def power (x y : Float) : Float :=
  if y == 0 || x == 1 then 1
  else if y == 1 then x
  else if isNaN x || isNaN y then notANumber
  else if x == 0 then
    if y < 0 then (if isNegative x && isOdd y then -infinity else infinity)
    else (if isNegative x && isOdd y then x else 0)
  else if isInfinite y then
    if x == -1 then 1
    else if (x.abs < 1) == (y > 0) then 0
    else infinity
  else if isInfinite x then
    if x < 0 then
      if y < 0 then (if isOdd y then -(0 : Float) else 0)
      else (if isOdd y then -infinity else infinity)
    else if y < 0 then 0 else infinity
  else if y == 0.5 then x.sqrt
  else if y == -0.5 then 1 / x.sqrt
  else finitePower x y

end Wordcode.Elementary
