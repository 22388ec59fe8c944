import Wordcode.Store.Convert

namespace Wordcode

/-! # Formatted text

A format specification `[[fill]align][sign][0][width][,][.precision][type]` and the text of a value
under it.

* `Spec.parse` reads a specification.
* `Op.format` renders a value.
-/

/-- Where the fill goes. -/
inductive Align
  | left | right | center
  /-- Between the sign and the digits. -/
  | inside
  deriving DecidableEq, Repr, Inhabited

/-- A format specification. -/
structure Spec where
  fill : Char := ' '
  align? : Option Align := none
  sign? : Option Char := none
  width : Int := 0
  comma : Bool := false
  precision? : Option Int := none
  /-- The presentation type, one byte. -/
  type? : Option Char := none
  deriving DecidableEq, Repr, Inhabited

namespace Spec

def alignOf? : Char → Option Align
  | '<' => some .left
  | '>' => some .right
  | '^' => some .center
  | '=' => some .inside
  | _ => none

/-- The digits in front, and the rest. -/
def digits (cs : List Char) : List Char × List Char :=
  (cs.takeWhile Char.isDigit, cs.dropWhile Char.isDigit)

/-- The number that digits denote, at most the largest integer of 64 bits. -/
def number (cs : List Char) : Int :=
  min (cs.foldl (fun n c => n * 10 + (c.toNat - 48)) 0 : Nat) (Word.limit - 1)

/-- Fill and alignment. -/
def parseAlign (s : Spec) (cs : List Char) : Spec × List Char :=
  match cs with
  | c :: d :: rest =>
    match alignOf? d with
    | some a => ({ s with fill := c, align? := some a }, rest)
    | none =>
      match alignOf? c with
      | some a => ({ s with align? := some a }, d :: rest)
      | none => (s, cs)
  | [c] =>
    match alignOf? c with
    | some a => ({ s with align? := some a }, [])
    | none => (s, cs)
  | [] => (s, cs)

/-- The sign. -/
def parseSign (s : Spec) (cs : List Char) : Spec × List Char :=
  match cs with
  | c :: rest =>
    if c = '+' || c = '-' || c = ' ' then ({ s with sign? := some c }, rest) else (s, cs)
  | [] => (s, cs)

/-- A zero in front of the width fills with zeros, unless an alignment was given. -/
def parseZero (s : Spec) (cs : List Char) : Spec × List Char :=
  match cs with
  | '0' :: rest =>
    (if s.align?.isNone then { s with fill := '0', align? := some .inside } else s, rest)
  | _ => (s, cs)

/-- The width. -/
def parseWidth (s : Spec) (cs : List Char) : Spec × List Char :=
  let (ds, rest) := digits cs
  if ds.isEmpty then (s, cs) else ({ s with width := number ds }, rest)

/-- The grouping mark. -/
def parseComma (s : Spec) (cs : List Char) : Spec × List Char :=
  match cs with
  | ',' :: rest => ({ s with comma := true }, rest)
  | _ => (s, cs)

/-- The precision, which must have digits. -/
def parsePrecision (s : Spec) (cs : List Char) : Except Failure (Spec × List Char) :=
  match cs with
  | '.' :: rest =>
    let (ds, rest) := digits rest
    if ds.isEmpty then .error (.raise .value "format specifier missing precision")
    else .ok ({ s with precision? := some (number ds) }, rest)
  | _ => .ok (s, cs)

/-- Reads a specification. What is left at the end is a type of one byte. -/
def parse (text : String) : Except Failure Spec := do
  let (s, cs) := parseAlign {} text.toList
  let (s, cs) := parseSign s cs
  let (s, cs) := parseZero s cs
  let (s, cs) := parseWidth s cs
  let (s, cs) := parseComma s cs
  let (s, cs) ← parsePrecision s cs
  match cs with
  | [] => return s
  | [c] =>
    if c.toNat = 0 then return s
    else if c.toNat < 128 then return { s with type? := some c }
    else throw (.raise .value s!"invalid format specifier '{text}'")
  | _ => throw (.raise .value s!"invalid format specifier '{text}'")

/-! ## Rendering -/

/-- A text filled up by `n` characters. -/
def fillUp (s : Spec) (align : Align) (sign body : List Char) (n : Nat) : List Char :=
  let fill (k : Nat) := List.replicate k s.fill
  match align with
  | .left => sign ++ body ++ fill n
  | .right => fill n ++ sign ++ body
  | .center => fill (n / 2) ++ sign ++ body ++ fill (n - n / 2)
  | .inside => sign ++ fill n ++ body

/-- A text filled up to the width; a width that no memory holds has no result. -/
def pad (s : Spec) (align : Align) (sign body : List Char) : Except Failure String :=
  let n := (s.width - sign.length - body.length).toNat
  if maxMemory < n then .error .crash
  else .ok (String.ofList (s.fillUp align sign body n))

/-- Puts a comma before every group of three digits, counted from the right. -/
def groupThousands (ds : List Char) : List Char :=
  (go ds.reverse).reverse
where
  /-- Groups digits from the right. -/
  go : List Char → List Char
    | a :: b :: c :: d :: rest => a :: b :: c :: ',' :: go (d :: rest)
    | ds => ds

/-- The sign of a number: a minus, or what the specification asks for. -/
def signOf (s : Spec) (negative : Bool) : List Char :=
  if negative then ['-']
  else match s.sign? with
    | some '+' => ['+']
    | some ' ' => [' ']
    | _ => []

/-- A type that does not fit the value. -/
def unknownType {α : Type} (c : Char) (typeName : String) : Except Failure α :=
  .error (.raise .value (s!"unknown format code '{c}' for object of type '{typeName}'"))

/-- A string under a specification. -/
def formatStr (s : Spec) (text : String) : Except Failure String := do
  match s.type? with
  | none | some 's' => pure ()
  | some c => unknownType c "str"
  if s.sign?.isSome then throw (.raise .value "sign not allowed in string format specifier")
  if s.align? = some .inside then
    throw (.raise .value "'=' alignment not allowed in string format specifier")
  let cs := match s.precision? with
    | some p => text.toList.take p.toNat
    | none => text.toList
  s.pad (s.align?.getD .left) [] cs

/-- More digits than any double has; what follows them is zeros. -/
def enoughDigits : Nat := 1100

/-- The digits of a double and how it is laid out, for each presentation type. Without a type and
precision it is the text of the value. -/
def floatBody (s : Spec) (x : Float) : Except Failure (List Char) :=
  let parts (x : Float) : Nat × Int := match Decimal.decode x with
    | .finite _ m e => (m, e)
    | _ => (0, 0)
  let fixed (x : Float) (p : Nat) := let (m, e) := parts x
    (Decimal.toPlaces m e (min p enoughDigits)).positional p
  let general (p : Nat) (mark : Char) :=
    let (m, e) := parts x
    let p := min p enoughDigits
    let d := Decimal.toSignificant m e p
    -- Integers up to the number of their digits stay positional.
    let limit : Int :=
      if d.digits.length < p && d.point ≤ d.digits.length then d.digits.length else p
    if d.digits.isEmpty then ['0'] else d.general limit mark
  let precision := (s.precision?.getD 6).toNat
  match s.type? with
  | some 'f' | some 'F' => .ok (fixed x precision)
  | some 'e' | some 'E' =>
    let (m, e) := parts x
    let mark := s.type?.getD 'e'
    .ok ((Decimal.toSignificant m e (min (precision + 1) enoughDigits)).scientific precision mark)
  | some 'g' => .ok (general (max precision 1) 'e')
  | some 'G' => .ok (general (max precision 1) 'E')
  | some '%' =>
    -- A hundred times a large double may be too large.
    let scaled := x * 100
    .ok ((if Elementary.isInfinite scaled then "+Inf".toList else fixed scaled precision) ++ ['%'])
  | none | some 'n' =>
    match s.precision? with
    | none => .ok (floatText x).toList
    | some p => .ok (general (max p.toNat 1) 'e')
  | some c => unknownType c "float"

/-- A double under a specification. -/
def formatFloat (s : Spec) (x : Float) : Except Failure String := do
  let negative := Decimal.isNegative x && !Elementary.isNaN x
  let body ← s.floatBody x.abs
  let body :=
    if Elementary.isInfinite x then ['i', 'n', 'f']
    else if Elementary.isNaN x then ['n', 'a', 'n']
    else body
  let body := match s.type? with
    | some 'F' | some 'E' | some 'G' => body.map Char.toUpper
    | _ => body
  let body :=
    if s.comma then
      let whole c := !(c == '.' || c == 'e' || c == '%')
      groupThousands (body.takeWhile whole) ++ body.dropWhile whole
    else body
  s.pad (s.align?.getD .right) (s.signOf negative) body

/-- An integer under a specification. -/
def formatInt (s : Spec) (n : Int64) : Except Failure String := do
  let numeral (base : Nat) := Nat.toDigits base n.toInt.natAbs
  let integer (ds : List Char) : Except Failure String :=
    if s.precision?.isSome then
      .error (.raise .value "precision not allowed in integer format specifier")
    else s.pad (s.align?.getD .right) (s.signOf (n < 0)) ds
  match s.type? with
  | none | some 'd' | some 'n' =>
    integer (if s.comma then groupThousands (numeral 10) else numeral 10)
  | some 'x' => integer (numeral 16)
  | some 'X' => integer ((numeral 16).map Char.toUpper)
  | some 'o' => integer (numeral 8)
  | some 'b' => integer (numeral 2)
  | some c =>
    if "eEfFgG%".toList.contains c then s.formatFloat n.toFloat else unknownType c "int"

end Spec

/-- A value under a format specification; without one it is the informal text. -/
def Op.format (v : Value) (text : String) : Op String := do
  if text = "" then str v
  else
    let s ← ofExcept (Spec.parse text)
    match v with
    | .str t _ => ofExcept (s.formatStr t)
    | .float x _ => ofExcept (s.formatFloat x)
    | _ =>
      match v.int? with
      | some n => ofExcept (s.formatInt n)
      | none => typeError s!"unsupported format string passed to {v.typeName}.__format__"

end Wordcode
