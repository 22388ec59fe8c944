import Wordcode.Decimal.Digits
import Wordcode.Text.Octets

namespace Wordcode

/-! # Host data

Data of the program that embeds the machine: what it passes in as globals, what it gets back as a
result, and what a listing file holds. Every datum carries the name of its host type, because
messages about data that cannot be used name that type.
-/

/-- A datum of the embedding program. -/
inductive Datum
  | null
  | bool (type : String) (b : Bool)
  /-- An integer of any width, exact. -/
  | int (type : String) (n : Int)
  | float (type : String) (x : Float)
  | str (type : String) (s : String)
  /-- A text of the embedding program that is not UTF-8. -/
  | stray (type : String) (s : Text.Stray)
  /-- A sequence of fixed or variable length. -/
  | list (type : String) (items : List Datum)
  /-- A mapping from texts; the order of the entries means nothing. -/
  | record (type : String) (entries : List (String × Datum))
  /-- A mapping from other keys. -/
  | mapping (type keyType : String) (entries : List (Datum × Datum))
  /-- A reference, which may lead nowhere. -/
  | pointer (type : String) (target : Option Datum)
  /-- A code object, known by its name. -/
  | code (name : String)
  /-- A datum of a type that has no counterpart among values. -/
  | other (type text : String)
  deriving Inhabited

namespace Datum

/-- The types that the machine itself produces. -/
def boolType : String := "bool"
def wordType : String := "int"
def intType : String := "int64"
def floatType : String := "float64"
def strType : String := "string"
def listType : String := "[]interface \x7b\x7d"
def recordType : String := "map[string]interface \x7b\x7d"

/-- A mapping as messages show it. -/
def mapText (entries : List (String × String)) : String :=
  "map[" ++ String.intercalate " " (entries.map fun (k, v) => k ++ ":" ++ v) ++ "]"

/-- The order in which messages show the keys of a mapping: numbers by size, texts by their
characters. -/
def keyBefore : Datum → Datum → Bool
  | null, _ => true
  | _, null => false
  | int _ a, int _ b => decide (a ≤ b)
  | float _ a, float _ b => a ≤ b
  | str _ a, str _ b => decide (a ≤ b)
  | bool _ a, bool _ b => !a || b
  | int .., _ => true
  | _, int .. => false
  | float .., _ => true
  | _, float .. => false
  | bool .., _ => true
  | _, _ => false

/-- The text with the given bytes. -/
def ofOctets (type : String) (bytes : List UInt8) : Datum :=
  match h : Text.ofUtf8? bytes with
  | some s => str type s
  | none => stray type ⟨bytes, h⟩

/-- A datum as a name, if it is a text. Stray bytes are replaced. -/
def name? : Datum → Option String
  | str _ s => some s
  | stray _ s => some s.shown
  | _ => none

/-- The name of a datum's host type. -/
def type : Datum → String
  | null => "<nil>"
  | bool t _ | int t _ | float t _ | str t _ | stray t _ | list t _ | record t _ | mapping t _ _
  | pointer t _ | other t _ => t
  | code _ => "*bytecode.Code"

/-- Whether a datum can be the key of a mapping. -/
def isKey : Datum → Bool
  | list .. | record .. | mapping .. => false
  | _ => true

/-- Whether two data are the same key. Numbers of different types differ. -/
def sameKey : Datum → Datum → Bool
  | null, null => true
  | bool s a, bool t b => s = t && a = b
  | int s a, int t b => s = t && a = b
  | float s a, float t b => s = t && a == b
  | str s a, str t b => s = t && a = b
  | stray s a, stray t b => s = t && a.bytes = b.bytes
  | other s a, other t b => s = t && a = b
  | _, _ => false

mutual

/-- A datum as messages show it. -/
def text : Datum → String
  | null => "<nil>"
  | bool _ b => if b then "true" else "false"
  | int _ n => toString n
  | float _ x => Decimal.compact x
  | str _ s => s
  | stray _ s => s.shown
  | list _ items => "[" ++ String.intercalate " " (texts items) ++ "]"
  | record _ entries =>
    mapText ((entryTexts entries).mergeSort fun a b => decide (a.1 ≤ b.1))
  | mapping _ _ entries =>
    mapText (((pairTexts entries).mergeSort fun a b => keyBefore a.1 b.1).map
      fun (_, texts) => texts)
  | pointer _ none => "<nil>"
  | pointer _ (some d) => "&" ++ text d
  | code name => "<code " ++ name ++ ">"
  | other _ t => t

/-- The texts of items. -/
def texts : List Datum → List String
  | [] => []
  | d :: ds => text d :: texts ds

/-- The texts of entries of a mapping from texts. -/
def entryTexts : List (String × Datum) → List (String × String)
  | [] => []
  | (k, d) :: es => (k, text d) :: entryTexts es

/-- The keys of a mapping with the texts of its entries. -/
def pairTexts : List (Datum × Datum) → List (Datum × String × String)
  | [] => []
  | (k, d) :: es => (k, text k, text d) :: pairTexts es

end

end Datum

end Wordcode
