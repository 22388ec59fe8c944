import Wordcode.Datum
import Wordcode.Fault
import Wordcode.Text.Quoted

namespace Wordcode

/-! # JSON documents

The printed form of data. A document is laid out over several lines, two blanks for each level;
an empty sequence or record stays on one line.

* `Document.ofDatum` makes the document of a datum; not every number has one.
* `Document.render` lays a document out, in colour or without.
-/

/-- A document. The fields of a record keep their order. -/
inductive Document
  | null
  | bool (b : Bool)
  /-- A number, already written. -/
  | number (text : String)
  | str (s : String)
  | list (items : List Document)
  | record (fields : List (String × Document))
  deriving Inhabited

namespace Document

/-! ## Making documents -/

/-- The document of a double: positional notation from `1e-6` up to `1e21`, scientific notation
beyond, where the exponent is not padded. What is not a number has no document. -/
def ofFloat (x : Float) : Except Failure Document :=
  match Decimal.decode x with
  | .nan => .error (.plain "json: unsupported value: NaN")
  | .infinite negative =>
    .error (.plain ("json: unsupported value: " ++ if negative then "-Inf" else "+Inf"))
  | .finite negative m e =>
    let d := Decimal.shortest m e
    let exponent := d.point - 1
    let body :=
      if m = 0 || (-6 ≤ exponent && exponent < 21) then d.plain
      else
        let mantissa := d.digits.take 1 ++
          (if d.digits.length ≤ 1 then [] else '.' :: d.digits.drop 1)
        mantissa ++ 'e' :: (if exponent < 0 then '-' else '+') ::
          Decimal.natDigits exponent.natAbs
    .ok (.number (String.ofList (if negative then '-' :: body else body)))

/-- The parts of a sequence, or the first error. -/
def sequence {α β : Type} (parts : List (α × Except Failure β)) : Except Failure (List (α × β)) :=
  parts.mapM fun (a, x) => do return (a, ← x)

mutual

/-- The document of a datum. Records are sorted by key; a datum without a visible part is an empty
record. -/
def ofDatum : Datum → Except Failure Document
  | .null => .ok .null
  | .bool _ b => .ok (.bool b)
  | .int _ n => .ok (.number (toString n))
  | .float _ x => ofFloat x
  | .str _ s => .ok (.str s)
  | .stray _ s => .ok (.str s.shown)
  | .list _ items => return .list (← ofData items)
  | .record _ entries => do
    let fields := (ofEntries entries).mergeSort fun a b => decide (a.1 ≤ b.1)
    return .record (← sequence fields)
  | .pointer _ none => .ok .null
  | .pointer _ (some d) => ofDatum d
  | .code _ | .mapping .. | .other .. => .ok (.record [])

/-- The documents of data. -/
def ofData : List Datum → Except Failure (List Document)
  | [] => .ok []
  | d :: ds => return (← ofDatum d) :: (← ofData ds)

/-- The documents of entries, each with its own error. -/
def ofEntries : List (String × Datum) → List (String × Except Failure Document)
  | [] => []
  | (k, d) :: es => (k, ofDatum d) :: ofEntries es

end

/-! ## Layout -/

/-- A character inside a string. Line and paragraph separators are escaped, and so are the three
characters that have a meaning in markup, if asked for. -/
def escapedChar (markup : Bool) (c : Char) : List Char :=
  if c = '"' || c = '\\' then ['\\', c]
  else if c = '\n' then ['\\', 'n']
  else if c = '\r' then ['\\', 'r']
  else if c = '\t' then ['\\', 't']
  else if c.toNat < 32 || c = '\u2028' || c = '\u2029' ||
      (markup && (c = '<' || c = '>' || c = '&')) then
    '\\' :: 'u' :: Text.hexDigits 4 c.toNat
  else [c]

/-- A string in quotes. -/
def quotedStr (markup : Bool) (s : String) : String :=
  String.ofList ('"' :: s.toList.flatMap (escapedChar markup) ++ ['"'])

/-- The key of a field. A coloured key is not escaped. -/
def keyText (color : Bool) (key : String) : String :=
  if color then (Style.boldColor 34).paint true ("\"" ++ key ++ "\"") else quotedStr true key

/-- The start of a line. -/
def indentation (level : Nat) : String := String.ofList (List.replicate (2 * level) ' ')

/-- Lines between two brackets, the last of which closes the given level. -/
def enclosed (left right : String) (level : Nat) (lines : List String) : String :=
  if lines.isEmpty then left ++ right
  else
    let lines := lines.map (indentation (level + 1) ++ ·)
    left ++ "\n" ++ String.intercalate ",\n" lines ++ "\n" ++ indentation level ++ right

mutual

/-- A document that starts at a level. In colour, the fields of a record are sorted by key. -/
def renderAt (color : Bool) (level : Nat) : Document → String
  | .null => (Style.boldColor 30).paint color "null"
  | .bool b => (Style.boldColor 33).paint color (if b then "true" else "false")
  | .number text => (Style.boldColor 36).paint color text
  | .str s => (Style.boldColor 32).paint color (quotedStr (!color) s)
  | .list items => enclosed "[" "]" level (renderItems color (level + 1) items)
  | .record fields =>
    let fields := renderFields color (level + 1) fields
    let fields := if color then fields.mergeSort fun a b => decide (a.1 ≤ b.1) else fields
    enclosed "\x7b" "\x7d" level (fields.map fun (k, text) => keyText color k ++ ": " ++ text)

/-- The items of a sequence. -/
def renderItems (color : Bool) (level : Nat) : List Document → List String
  | [] => []
  | d :: ds => renderAt color level d :: renderItems color level ds

/-- The fields of a record, each with its key. -/
def renderFields (color : Bool) (level : Nat) :
    List (String × Document) → List (String × String)
  | [] => []
  | (k, d) :: fs => (k, renderAt color level d) :: renderFields color level fs

end

/-- Lays a document out. -/
def render (color : Bool) (d : Document) : String := d.renderAt color 0

end Document

end Wordcode
