import Wordcode.Decimal.Binary
import Wordcode.Word

namespace Wordcode.Decimal

/-! # Reading numbers

Decimal and hexadecimal floating-point numerals, and integers of 64 bits, either decimal or in a
base that their first characters show. Underscores may stand between the digits of a floating-point
numeral and of an integer with a base of its own.
-/

/-- The value of a digit of any base up to sixteen. -/
def digitValue? (c : Char) : Option Nat :=
  if '0' ≤ c && c ≤ '9' then some (c.toNat - 48)
  else if 'a' ≤ c && c ≤ 'f' then some (c.toNat - 87)
  else if 'A' ≤ c && c ≤ 'F' then some (c.toNat - 55)
  else none

/-- Whether a character is a digit of the base. -/
def isDigitOf (base : Nat) (c : Char) : Bool :=
  match digitValue? c with
  | some d => decide (d < base)
  | none => false

/-- The number that digits of a base denote. -/
def ofDigits (base : Nat) (cs : List Char) : Nat :=
  cs.foldl (fun n c => n * base + (digitValue? c).getD 0) 0

/-- A sign in front, and whether it is a minus. -/
def readSign : List Char → Bool × List Char
  | '-' :: cs => (true, cs)
  | '+' :: cs => (false, cs)
  | cs => (false, cs)

/-- Checks that every underscore stands between digits; `afterDigit` says what came before. -/
def underscoresOk (base : Nat) : Bool → Bool → List Char → Bool
  | _, afterUnderscore, [] => !afterUnderscore
  | afterDigit, afterUnderscore, c :: cs =>
    if isDigitOf base c then underscoresOk base true false cs
    else if c = '_' then afterDigit && underscoresOk base false true cs
    else !afterUnderscore && underscoresOk base false false cs

/-- The two parts of a numeral around its point, and what follows. -/
def readMantissa (base : Nat) (cs : List Char) : List Char × List Char × List Char :=
  let digit c := isDigitOf base c || c = '_'
  let whole := cs.takeWhile digit
  match cs.dropWhile digit with
  | '.' :: rest => (whole, rest.takeWhile digit, rest.dropWhile digit)
  | rest => (whole, [], rest)

/-- An exponent after its mark: a sign and at least one digit, to the end. -/
def readExponent? (cs : List Char) : Option Int :=
  let (negative, cs) := readSign cs
  let digits := cs.filter (· ≠ '_')
  if digits.isEmpty || !digits.all (isDigitOf 10) then none
  else
    -- Beyond a million the digits no longer matter.
    let n := min (ofDigits 10 digits) 1000000
    some (if negative then -(n : Int) else n)

/-- An unsigned numeral as an exact ratio. -/
def readRatio? (cs : List Char) : Option (Nat × Nat) :=
  let (base, mark, body, lead) := match cs with
    | '0' :: 'x' :: rest => (16, 'p', rest, true)
    | '0' :: 'X' :: rest => (16, 'p', rest, true)
    | _ => (10, 'e', cs, false)
  let (whole, fraction, rest) := readMantissa base body
  let whole := whole.filter (· ≠ '_')
  let fraction := fraction.filter (· ≠ '_')
  if whole.isEmpty && fraction.isEmpty then none
  else if !underscoresOk base lead false body then none
  else
    let n := ofDigits base (whole ++ fraction)
    let exponent? := match rest with
      | [] => if base = 16 then none else some 0
      | c :: cs => if c.toLower = mark then readExponent? cs else none
    exponent?.map fun e =>
      if base = 16 then scaleTwo n (e - 4 * (fraction.length : Int))
      else
        let shift := e - (fraction.length : Int)
        let digits := (Nat.toDigits 10 n).length
        -- Far outside the range of doubles the power is cut off.
        if shift + digits < -400 then (0, 1)
        else if 400 < shift + digits then (if n = 0 then 0 else Nat.pow 10 400, 1)
        else scaleTen n 1 shift

/-- What a floating-point numeral denotes. -/
inductive Reading
  | value (x : Float)
  /-- The number is too large. -/
  | overflow (negative : Bool)
  | malformed
  deriving Inhabited

/-- Reads a floating-point numeral. -/
def readFloat (text : String) : Reading :=
  let cs := text.toList
  let (negative, body) := readSign cs
  let word := body.map Char.toLower
  if word = "inf".toList || word = "infinity".toList then
    .value (ofBits negative infinityBits)
  else if cs.map Char.toLower = "nan".toList then
    .value (ofBits false nanBits)
  else match readRatio? body with
    | none => .malformed
    | some (num, den) =>
      if num = 0 then .value (ofRatio negative 0 1)
      else if ratioBits num den = infinityBits then .overflow negative
      else .value (ofRatio negative num den)

/-- Reads a decimal integer of 64 bits: a sign and digits. -/
def readInt? (text : String) : Option Int64 :=
  let (negative, digits) := readSign text.toList
  if digits.isEmpty || !digits.all (isDigitOf 10) then none
  else
    let n : Int := ofDigits 10 digits
    let n := if negative then -n else n
    if Word.fits n then some (Int64.ofInt n) else none

/-- The base that the first characters of an unsigned numeral show, and the digits after them: `0x`,
`0o` or a plain `0`, `0b`, or ten. -/
def splitBase : List Char → Nat × List Char
  | '0' :: c :: d :: rest =>
    if c = 'x' || c = 'X' then (16, d :: rest)
    else if c = 'o' || c = 'O' then (8, d :: rest)
    else if c = 'b' || c = 'B' then (2, d :: rest)
    else (8, c :: d :: rest)
  | '0' :: rest => (8, rest)
  | cs => (10, cs)

/-- What an integer numeral denotes. -/
inductive IntReading
  | value (n : Int64)
  | outOfRange
  | malformed
  deriving DecidableEq, Repr, Inhabited

/-- Reads an integer of 64 bits in the base that it shows. Digits that leave the range decide, even
if something malformed follows them. -/
def readMarkedInt (text : String) : IntReading :=
  let (negative, body) := readSign text.toList
  let (base, digits) := splitBase body
  let digit c := isDigitOf base c || c = '_'
  let n := ofDigits base ((digits.takeWhile digit).filter (· ≠ '_'))
  if body.isEmpty then .malformed
  else if Word.modulus ≤ n then .outOfRange
  else if !digits.all digit || !underscoresOk base (digits.length < body.length) false digits then
    .malformed
  else
    let n : Int := if negative then -(n : Int) else n
    if Word.fits n then .value (Int64.ofInt n) else .outOfRange

end Wordcode.Decimal
