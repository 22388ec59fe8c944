import Wordcode.Text.Blank

namespace Wordcode.Text

/-! # Searching text

Texts are lists of characters, so positions count characters. Occurrences are found from the left
and do not overlap. Each function below scans on its own: `splitFrom`, `countFrom` and
`replaceFrom` drop the `skip` characters that belong to an occurrence already seen.
-/

/-- The position of the first occurrence of a text. -/
def find? (sub : List Char) : List Char → Option Nat
  | [] => if sub.isEmpty then some 0 else none
  | c :: cs => if sub.isPrefixOf (c :: cs) then some 0 else (find? sub cs).map (· + 1)

/-- Whether a text occurs. -/
def contains (s sub : List Char) : Bool :=
  (find? sub s).isSome

/-- The parts between occurrences of a separator. -/
def splitFrom (sep : List Char) : Nat → List Char → List (List Char)
  | _, [] => [[]]
  | skip + 1, _ :: cs => splitFrom sep skip cs
  | 0, c :: cs =>
    if sep.isPrefixOf (c :: cs) then [] :: splitFrom sep (sep.length - 1) cs
    else match splitFrom sep 0 cs with
      | part :: parts => (c :: part) :: parts
      | [] => [[c]]

/-- Splits at every occurrence of a separator, which must not be empty. -/
def split (s sep : List Char) : List (List Char) :=
  splitFrom sep 0 s

/-- The number of occurrences of a text that is not empty. -/
def countFrom (sub : List Char) : Nat → List Char → Nat
  | _, [] => 0
  | skip + 1, _ :: cs => countFrom sub skip cs
  | 0, c :: cs =>
    if sub.isPrefixOf (c :: cs) then countFrom sub (sub.length - 1) cs + 1
    else countFrom sub 0 cs

/-- The number of occurrences; the empty text occurs around every character. -/
def count (s sub : List Char) : Nat :=
  if sub.isEmpty then s.length + 1 else countFrom sub 0 s

/-- Replaces the occurrences of a text that is not empty. -/
def replaceFrom (old new : List Char) : Nat → List Char → List Char
  | _, [] => []
  | skip + 1, _ :: cs => replaceFrom old new skip cs
  | 0, c :: cs =>
    if old.isPrefixOf (c :: cs) then new ++ replaceFrom old new (old.length - 1) cs
    else c :: replaceFrom old new 0 cs

/-- Replaces every occurrence; the empty text occurs around every character. -/
def replace (s old new : List Char) : List Char :=
  if old.isEmpty then new ++ s.flatMap (fun c => c :: new) else replaceFrom old new 0 s

/-- Puts a separator between parts. -/
def join (sep : List Char) : List (List Char) → List Char
  | [] => []
  | [part] => part
  | part :: parts => part ++ sep ++ join sep parts

/-- Splits at every character of a class. -/
def splitWhere (p : Char → Bool) : List Char → List (List Char)
  | [] => [[]]
  | c :: cs =>
    if p c then [] :: splitWhere p cs
    else match splitWhere p cs with
      | part :: parts => (c :: part) :: parts
      | [] => [[c]]

/-- The words of a text: the longest runs without white space. -/
def words (s : List Char) : List (List Char) :=
  (splitWhere isBlank s).filter (!·.isEmpty)

end Wordcode.Text
