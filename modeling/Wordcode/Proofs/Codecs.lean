import Wordcode.Artifact
import Wordcode.Word

namespace Wordcode.Artifact

/-! # Codecs

What a codec of artifacts is trusted with. A field that holds the zero of its type is left out and
comes back as that zero, and every other field comes back as it was. The one zero that is not told
apart from another one is the negative zero of the doubles.

* `restored` is what becomes of a double, and `Returns` what becomes of a record.
* `Contents.fits` says that a record keeps to the limits of a codec.
* `Codec.Lawful` puts together what a codec is trusted with.
-/

/-! ## What comes back -/

/-- A double as it comes back. One that is equal to zero is left out, and what is left out is the
positive zero. -/
def restored (x : UInt64) : UInt64 := if Decimal.isZero x then 0 else x

section

variable (f : UInt64 → UInt64)

mutual

/-- The record of a code object with its doubles mapped. -/
def mapCode : CodeRecordOf ConstRecord → CodeRecordOf ConstRecord
  | { id, name, file, stream?, constants, names, variableNames, positionalOnly, positional,
      keywordOnly, flags } =>
    { id, name, file, stream?, constants := mapConsts constants, names, variableNames
      positionalOnly, positional, keywordOnly, flags }

/-- The record of a constant with its doubles mapped. -/
def mapConst : ConstRecord → ConstRecord
  | .mk kind bool int float str code? items =>
    .mk kind bool int (f float) str (mapCode? code?) (mapConsts items)

/-- The record of a code object that may be missing, with its doubles mapped. -/
def mapCode? : Option (CodeRecordOf ConstRecord) → Option (CodeRecordOf ConstRecord)
  | none => none
  | some r => some (mapCode r)

/-- The records of constants with their doubles mapped. -/
def mapConsts : List ConstRecord → List ConstRecord
  | [] => []
  | r :: rs => mapConst r :: mapConsts rs

end

/-- What an artifact holds with its doubles mapped. -/
def Contents.map (a : Contents) : Contents := { a with code? := mapCode? f a.code? }

end

/-- What was written has come back: all of it, with doubles as they are restored. Nothing is said
about what is not a number. -/
def Returns (a b : Contents) : Prop :=
  ∃ f : UInt64 → UInt64, (∀ x, Decimal.isNan x = false → f x = restored x) ∧ b = a.map f

/-! ## Limits -/

/-- How deep records and sequences may nest. -/
def maxNesting : Nat := 32

/-- How many items a sequence may have. -/
def maxItems : Nat := 131072

/-- Bytes whose number is a word. -/
def isShort (bytes : List UInt8) : Bool := bytes.length < Word.modulus

/-- A text of which the number of bytes is a word. -/
def isShortText (s : String) : Bool := isShort (Text.octets s)

/-- A sequence that may nest so many levels deep: it has not too many items, and if it has one, it
takes a level of its own. -/
def isRoomy {α : Type} (nesting : Nat) (items : List α) : Bool :=
  (items.isEmpty || 0 < nesting) && items.length ≤ maxItems

mutual

/-- Whether the record of a code object nests at most so many levels deep, keeps to the other
limits, and has texts in UTF-8 only. -/
def codeFits : Nat → CodeRecordOf ConstRecord → Bool
  | 0, _ => false
  | n + 1, { id, name, file, stream?, constants, names, variableNames, .. } =>
    [id, name, file].all isShortText && isShort (stream?.getD []) &&
      (isRoomy n names && names.all isShortText) &&
      (isRoomy n variableNames && variableNames.all isShortText) &&
      (isRoomy n constants && constsFit (n - 1) constants)

/-- Whether the record of a constant does. -/
def constFits : Nat → ConstRecord → Bool
  | 0, _ => false
  | n + 1, .mk kind _ _ _ str code? items =>
    isShortText kind && (isShort str && (Text.ofUtf8? str).isSome) &&
      codeFits? n code? && (isRoomy n items && constsFit (n - 1) items)

/-- Whether the record of a code object does, if there is one. -/
def codeFits? : Nat → Option (CodeRecordOf ConstRecord) → Bool
  | _, none => true
  | n, some r => codeFits n r

/-- Whether the records of constants do. -/
def constsFit : Nat → List ConstRecord → Bool
  | _, [] => true
  | n, r :: rs => constFits n r && constsFit n rs

end

/-- Whether the contents of an artifact keep to the limits of a codec. -/
def Contents.fits (a : Contents) : Bool := codeFits? (maxNesting - 1) a.code?

/-! ## Laws -/

/-- What a codec is trusted with. It reads what it has written within its limits, and where it has
written something it reads nothing else. -/
structure Codec.Lawful (codec : Codec) : Prop where
  decode?_encode : ∀ a, a.fits → ∃ b, codec.decode? (codec.encode a) = some b ∧ Returns a b
  eq_of_decode? : ∀ a b, (codec.encode a).length < Word.modulus →
    codec.decode? (codec.encode a) = some b → Returns a b

end Wordcode.Artifact
