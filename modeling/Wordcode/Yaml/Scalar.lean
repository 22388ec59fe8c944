import Wordcode.Datum
import Wordcode.Text.Octets
import Wordcode.Yaml.Timestamp
import Wordcode.Yaml.Token

namespace Wordcode.Yaml

/-! # The data of scalars

What a scalar stands for. The text of an untagged plain scalar decides its type: null, a truth
value, a number, a timestamp or, failing that, a text. A tag can ask for one of these types, and a
text that does not fit it is an error. Under any other tag a scalar is a text.

* `resolve` gives the type and the datum of a plain text.
* `scalarTag` and `scalarDatum` give the tag and the datum of a scalar.
-/

/-- A type that scalars can have. -/
inductive ScalarTag
  | null | bool | int | float | timestamp | str
  deriving DecidableEq, Repr, Inhabited

/-- The tag by which a type is asked for. -/
def ScalarTag.name : ScalarTag → String
  | null => "!!null"
  | bool => "!!bool"
  | int => "!!int"
  | float => "!!float"
  | timestamp => "!!timestamp"
  | str => "!!str"

/-- The tag of keys that merge other mappings into one. -/
def mergeTag : String := "!!merge"

/-- The tag of texts in base 64. -/
def binaryTag : String := "!!binary"

/-! ## Numbers -/

/-- An integer, and whether a sign was written. -/
structure Integer where
  value : Int
  signed : Bool
  deriving DecidableEq, Repr, Inhabited

/-- Digits of a base after an optional sign. -/
def signedDigits? (base : Nat) (cs : List Char) : Option Integer :=
  let (negative, digits) := Decimal.readSign cs
  if digits.isEmpty || !digits.all (Decimal.isDigitOf base) then none
  else
    let n : Int := Decimal.ofDigits base digits
    some ⟨if negative then -n else n, digits.length ≠ cs.length⟩

/-- An integer whose base shows in its first characters. -/
def integer? (cs : List Char) : Option Integer :=
  let (negative, body) := Decimal.readSign cs
  let (base, digits) := Decimal.splitBase body
  if !body.isEmpty && digits.all (Decimal.isDigitOf base) then
    let n : Int := Decimal.ofDigits base digits
    some ⟨if negative then -n else n, body.length ≠ cs.length⟩
  else
    -- A sign may also follow the mark of the base.
    match cs with
    | '0' :: 'b' :: rest => signedDigits? 2 rest
    | '0' :: 'o' :: rest => signedDigits? 8 rest
    | _ => none

/-- Whether a text is a decimal number: digits with an optional point and exponent. -/
def isDecimal (cs : List Char) : Bool :=
  let body := (Decimal.readSign cs).2
  let whole := body.takeWhile Char.isDigit
  let rest := body.drop whole.length
  let (fractionOk, rest) := match rest with
    | '.' :: rest =>
      let fraction := rest.takeWhile Char.isDigit
      (!whole.isEmpty || !fraction.isEmpty, rest.drop fraction.length)
    | _ => (!whole.isEmpty, rest)
  let exponentOk := match rest with
    | [] => true
    | e :: rest =>
      let digits := (Decimal.readSign rest).2
      (e = 'e' || e = 'E') && !digits.isEmpty && digits.all Char.isDigit
  fractionOk && exponentOk

/-- A floating-point number that does not overflow. -/
def float? (text : String) : Option Float :=
  match Decimal.readFloat text with
  | .value x => some x
  | _ => none

/-- The datum of an integer: a machine word or, if no sign was written, a word without sign. -/
def Integer.datum? (i : Integer) : Option Datum :=
  if Word.fits i.value then some (.int Datum.wordType i.value)
  else if !i.signed && i.value < Word.modulus then some (.int "uint64" i.value)
  else none

/-! ## Resolution -/

/-- The texts with a fixed meaning. -/
def keywords : List (String × ScalarTag × Datum) :=
  let infinite (negative : Bool) : ScalarTag × Datum :=
    (.float, .float Datum.floatType (Decimal.ofBits negative Decimal.infinityBits))
  let words (meaning : ScalarTag × Datum) (texts : List String) := texts.map fun t => (t, meaning)
  words (.bool, .bool Datum.boolType true) ["true", "True", "TRUE"] ++
    words (.bool, .bool Datum.boolType false) ["false", "False", "FALSE"] ++
    words (.null, .null) ["", "~", "null", "Null", "NULL"] ++
    words (.float, .float Datum.floatType (Decimal.ofBits false Decimal.nanBits))
      [".nan", ".NaN", ".NAN"] ++
    words (infinite false) [".inf", ".Inf", ".INF", "+.inf", "+.Inf", "+.INF"] ++
    words (infinite true) ["-.inf", "-.Inf", "-.INF"]

/-- The type and datum of a plain text. -/
def resolve (text : String) (timestamps : Bool) : ScalarTag × Datum :=
  let asText : ScalarTag × Datum := (.str, .str Datum.strType text)
  match keywords.lookup text with
  | some meaning => meaning
  | none =>
    match text.toList with
    | [] => asText
    | first :: _ =>
      if first = '.' then
        match float? text with
        | some x => (.float, .float Datum.floatType x)
        | none => asText
      else if first.isDigit || first = '+' || first = '-' then
        match if timestamps then Timestamp.parse? text.toList else none with
        | some t => (.timestamp, .other "time.Time" t.render)
        | none =>
          let plain := text.toList.filter (· ≠ '_')
          match (integer? plain).bind Integer.datum? with
          | some d => (.int, d)
          | none =>
            match if isDecimal plain then float? (String.ofList plain) else none with
            | some x => (.float, .float Datum.floatType x)
            | none => asText
      else asText

/-! ## Tags -/

/-- The tags that ask for a type. -/
def typeTags : List String :=
  [ScalarTag.null, .bool, .int, .float, .timestamp].map ScalarTag.name

/-- The bytes that a text in base 64 denotes; line breaks in it do not count. -/
def ofBase64? (text : String) : Option (List UInt8) :=
  let letters := "ABCDEFGHIJKLMNOPQRSTUVWXYZabcdefghijklmnopqrstuvwxyz0123456789+/".toList
  let cs := text.toList.filter fun c => c ≠ '\n' && c ≠ '\r'
  let body := cs.takeWhile (· ≠ '=')
  let padding := cs.drop body.length
  if cs.length % 4 ≠ 0 || 2 < padding.length || padding.any (· ≠ '=') then none
  else do
    let digits ← body.mapM letters.idxOf?
    let bits := digits.flatMap fun d => (List.range 6).map fun i => d.testBit (5 - i)
    let count := body.length * 6 / 8
    return (List.range count).map fun k =>
      UInt8.ofNat (((bits.drop (8 * k)).take 8).foldl (fun n b => 2 * n + b.toNat) 0)

/-- The tag of a scalar: the one it has, or else the one of its type. -/
def scalarTag (tag? : Option String) (style : ScalarStyle) (text : String) : String :=
  match tag? with
  | some tag => tag
  | none =>
    if style = .marked then ScalarTag.str.name
    else if text = "<<" then mergeTag
    else (resolve text true).1.name

/-- The datum of a scalar. -/
def scalarDatum (tag? : Option String) (style : ScalarStyle) (text : String) :
    Except String Datum :=
  match tag? with
  | none => .ok (if style = .marked then .str Datum.strType text else (resolve text true).2)
  | some tag =>
    if tag = binaryTag then
      match ofBase64? text with
      | some bytes => .ok (.ofOctets Datum.strType bytes)
      | none => .error "yaml: !!binary value contains invalid base64 data"
    else if !typeTags.contains tag then .ok (.str Datum.strType text)
    else
      let (actual, d) := resolve text (tag = ScalarTag.timestamp.name)
      if actual.name = tag then .ok d
      else
        match decide (tag = ScalarTag.float.name), d with
        | true, .int "int" n => .ok (.float Datum.floatType (Decimal.ofInt n))
        | _, _ => .error s!"yaml: cannot decode {actual.name} \x60{text}\x60 as a {tag}"

end Wordcode.Yaml
