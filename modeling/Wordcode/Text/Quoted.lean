import Wordcode.Text.Octets
import Wordcode.Text.Printable

namespace Wordcode.Text

/-! # Quoted text

Two written forms of a text. Messages use double quotes and escape whatever does not print.
Values use single quotes, or double quotes when that saves an escape, and leave everything but
control characters as it is.
-/

/-- A hexadecimal digit in lower case. -/
def hexDigit (n : Nat) : Char :=
  if n < 10 then Char.ofNat (48 + n) else Char.ofNat (87 + n)

/-- The last `width` hexadecimal digits of a number. -/
def hexDigits (width n : Nat) : List Char :=
  match width with
  | 0 => []
  | w + 1 => hexDigits w (n / 16) ++ [hexDigit (n % 16)]

/-- One character of a message quotation. -/
def quotedChar (c : Char) : List Char :=
  if c = '"' || c = '\\' then ['\\', c]
  else if isPrintable c then [c]
  else match c.toNat with
    | 7 => ['\\', 'a']
    | 8 => ['\\', 'b']
    | 9 => ['\\', 't']
    | 10 => ['\\', 'n']
    | 11 => ['\\', 'v']
    | 12 => ['\\', 'f']
    | 13 => ['\\', 'r']
    | n =>
      if n < 32 || n = 127 then '\\' :: 'x' :: hexDigits 2 n
      else if n < 0x10000 then '\\' :: 'u' :: hexDigits 4 n
      else '\\' :: 'U' :: hexDigits 8 n

/-- A text in double quotes, as messages show it. -/
def quoted (s : String) : String :=
  String.ofList ('"' :: s.toList.flatMap quotedChar ++ ['"'])

/-- Bytes in double quotes, as messages show them. A stray byte shows its number. -/
def quotedStray (s : Stray) : String :=
  let piece : Char ⊕ UInt8 → List Char
    | .inl c => quotedChar c
    | .inr b => '\\' :: 'x' :: hexDigits 2 b.toNat
  String.ofList ('"' :: (pieces s.bytes).flatMap piece ++ ['"'])

/-- A character in single quotes, as messages show it. -/
def quotedSymbol (c : Char) : String :=
  let body := if c = '\'' then ['\\', c] else if c = '"' then [c] else quotedChar c
  String.ofList ('\'' :: body ++ ['\''])

/-- The quote that a value's text is written with: a single one, unless the text holds single
quotes and no double ones. -/
def literalQuote (cs : List Char) : Char :=
  if cs.contains '\'' && !cs.contains '"' then '"' else '\''

/-- One character of a value's text. -/
def literalChar (quote c : Char) : List Char :=
  if c = quote || c = '\\' then ['\\', c]
  else if c = '\n' then ['\\', 'n']
  else if c = '\r' then ['\\', 'r']
  else if c = '\t' then ['\\', 't']
  else if c.toNat < 32 || c.toNat = 127 then '\\' :: 'x' :: hexDigits 2 c.toNat
  else [c]

/-- A value's text as a literal. -/
def literal (cs : List Char) : List Char :=
  let quote := literalQuote cs
  quote :: cs.flatMap (literalChar quote) ++ [quote]

end Wordcode.Text
