import Wordcode.Artifact
import Wordcode.Cbor

namespace Wordcode.Artifact

/-! # Records as concise binary objects

The codec of artifacts: records are maps with text keys in canonical order, and fields that hold the
zero of their type are left out, except for some that are always there.

* `codeItem` and `constItem` write a record, `toCodeRecord?` and `toConstRecord?` read one.
* `binary` is the codec.
-/

open Cbor

/-! ## Writing -/

/-- A map with text keys; canonical order has shorter keys first. -/
def record (fields : List (String × Option Item)) : Item :=
  .map (fields.filterMap fun (key, value?) => value?.map fun value => (.ofString key, value))

/-- A field that is left out when it is empty or zero. -/
def nonzero (isZero : Bool) (item : Item) : Option Item :=
  if isZero then none else some item

/-- An array of texts, left out when empty. -/
def texts (xs : List String) : Option Item :=
  nonzero xs.isEmpty (.array (xs.map .ofString))

/-- A count, left out when zero. -/
def count (n : Int64) : Option Item :=
  nonzero (n == 0) (.ofInt n.toInt)

/-- The fields of the record of a code object, given the items of its constants. -/
def codeFields (r : CodeRecord) (constants : List Item) : List (String × Option Item) :=
  [("id", some (.ofString r.id)),
   ("ins", some (r.stream?.elim .null .bytes)),
   ("args", count r.positional),
   ("file", nonzero (r.file == "") (.ofString r.file)),
   ("name", some (.ofString r.name)),
   ("vars", texts r.variableNames),
   ("flags", nonzero (r.flags == 0) (.unsigned r.flags.toNat)),
   ("names", texts r.names),
   ("consts", nonzero constants.isEmpty (.array constants)),
   ("kwonly", count r.keywordOnly),
   ("posonly", count r.positionalOnly)]

/-- The fields of the record of a constant, given the items in it. -/
def constFields (kind : String) (bool : Bool) (int : Int64) (float : UInt64) (str : List UInt8)
    (code? : Option Item) (items : List Item) : List (String × Option Item) :=
  [("b", nonzero (!bool) (.bool bool)),
   ("c", code?),
   ("f", nonzero (Decimal.isZero float) (.ofFloat float)),
   ("i", count int),
   ("k", some (.ofString kind)),
   ("s", nonzero str.isEmpty (.text [str])),
   ("t", nonzero items.isEmpty (.array items))]

mutual

/-- Writes the record of a code object. -/
def codeItem : CodeRecordOf ConstRecord → Item
  | r@{ constants := rs, .. } => record (codeFields r (constItems rs))

/-- Writes the record of a constant. -/
def constItem : ConstRecord → Item
  | .mk kind bool int float str code? items =>
    record (constFields kind bool int float str (codeItem? code?) (constItems items))

/-- Writes the record of a code object that may be missing. -/
def codeItem? : Option (CodeRecordOf ConstRecord) → Option Item
  | none => none
  | some r => some (codeItem r)

/-- Writes the records of constants. -/
def constItems : List ConstRecord → List Item
  | [] => []
  | r :: rs => constItem r :: constItems rs

end

/-- Writes the outer record. -/
def contentsItem (a : Contents) : Item :=
  record
    [("v", some (.ofInt a.version.toInt)), ("code", some (a.code?.elim .null codeItem))]

/-! ## Reading -/

/-- Reads a field, which is zero when missing. -/
def field {α : Type} (fields : List (String × Item)) (name : String) (zero : α)
    (read : Item → Option α) : Option α :=
  match fields.lookup name with
  | some item => read item
  | none => some zero

/-- Reads a value that may be null. -/
def optional {α : Type} (read : Item → Option α) (item : Item) : Option (Option α) := do
  match ← untag? item with
  | .null => return none
  | item => some <$> read item

mutual

/-- Reads the record of a code object; `fuel` bounds the nesting. -/
def toCodeRecord? : Nat → Item → Option (CodeRecordOf ConstRecord)
  | 0, _ => none
  | fuel + 1, item => do
    let fields ← toFields?
      ["id", "name", "file", "ins", "consts", "names", "vars", "posonly", "args", "kwonly",
        "flags"] item
    let texts (item : Item) : Option (List String) := do (← toItems? item).mapM toText?
    return {
      id := ← field fields "id" "" toText?
      name := ← field fields "name" "" toText?
      file := ← field fields "file" "" toText?
      stream? := ← field fields "ins" none toBytes?
      constants := ← field fields "consts" [] fun item => do
        (← toItems? item).mapM (toConstRecord? fuel)
      names := ← field fields "names" [] texts
      variableNames := ← field fields "vars" [] texts
      positionalOnly := ← field fields "posonly" 0 toInt64?
      positional := ← field fields "args" 0 toInt64?
      keywordOnly := ← field fields "kwonly" 0 toInt64?
      flags := ← field fields "flags" 0 toByte? }

/-- Reads the record of a constant. -/
def toConstRecord? : Nat → Item → Option ConstRecord
  | 0, _ => none
  | fuel + 1, item => do
    let fields ← toFields? ["k", "b", "i", "f", "s", "c", "t"] item
    return .mk (← field fields "k" "" toText?) (← field fields "b" false toBool?)
      (← field fields "i" 0 toInt64?) (← field fields "f" 0 toFloat?)
      (← field fields "s" [] fun item => (toText? item).map Text.octets)
      (← field fields "c" none (optional (toCodeRecord? fuel)))
      (← field fields "t" [] fun item => do (← toItems? item).mapM (toConstRecord? fuel))

end

/-- Reads the outer record. -/
def toContents? (item : Item) : Option Contents := do
  let fields ← toFields? ["v", "code"] item
  return ⟨← field fields "v" 0 toInt64?,
    ← field fields "code" none (optional (toCodeRecord? (2 * maxNesting)))⟩

/-- The codec that stores records as concise binary objects. -/
def binary : Codec where
  encode a := encode (contentsItem a)
  decode? bytes := (decode? bytes).bind toContents?

end Wordcode.Artifact
