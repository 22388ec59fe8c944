import Wordcode.Assoc
import Wordcode.Store.Repr

namespace Wordcode

/-! # Conversions

Values seen as a given type, constants as values, and values to and from data of the embedding
program.

* `Op.ofConst` makes the value of a constant.
* `Op.ofDatum` makes a value from a datum and `Store.toDatum` gives a value back as one.
-/

namespace Op

/-! ## Typed views -/

def asBool : Value → Op Bool
  | .bool b => return b
  | v => typeError s!"expected a bool ({v.typeName} given)"

def asStr : Value → Op String
  | .str s _ => return s
  | v => typeError s!"expected a str ({v.typeName} given)"

/-- An integer or a truth value. -/
def asInt (v : Value) : Op Int64 :=
  match v.int? with
  | some n => return n
  | none => typeError s!"expected an int ({v.typeName} given)"

/-- Any number. -/
def asFloat (v : Value) : Op Float :=
  match v.float? with
  | some x => return x
  | none => typeError s!"expected a number ({v.typeName} given)"

def asList : Value → Op Nat
  | .list ref => return ref
  | v => typeError s!"expected a list ({v.typeName} given)"

def asDict : Value → Op Nat
  | .dict ref => return ref
  | v => typeError s!"expected a dict ({v.typeName} given)"

end Op

/-- A subscript as an integer; `what` names the subscripted type in the message. -/
def indexOf (v : Value) (what : String) : Except Failure Int64 :=
  match v.int? with
  | some n => .ok n
  | none => .error (.raise .type s!"{what} indices must be integers, not {v.typeName}")

/-- An index that may count from the end, as a position. -/
def resolveIndex (index length : Int64) (what : String) : Except Failure Nat :=
  let i := if index < 0 then index + length else index
  if i < 0 || length ≤ i then .error (.raise .index s!"{what} index out of range")
  else .ok i.toInt.toNat

/-! ## Constants -/

namespace Op

mutual

/-- The value of a constant. -/
def ofConst : Const → Op Value
  | .none => return .none
  | .bool b => return .bool b
  | .int n => return .int n
  | .float bits => newFloat (Float.ofBits bits)
  | .str s => newStr s
  | .stray s => newStr s.shown
  | .tuple items => do newTuple (← ofConsts items)
  | .code c => newCode c
  | .noCode => throw .crash
  | .array _ => raise .malformedCode ("unsupported constant type " ++ Datum.listType)
  | .foreign d => raise .malformedCode ("unsupported constant type " ++ d.type)

/-- The values of constants. -/
def ofConsts : List Const → Op (List Value)
  | [] => return []
  | c :: cs => do return (← ofConst c) :: (← ofConsts cs)

end

end Op

/-! ## Host data -/

namespace Op

/-- Labels the error of a part. -/
def labelled {α : Type} (label : String) (x : Op α) : Op α :=
  tryCatch x fun e => throw (if e.isError then .within label e else e)

/-- Makes a value and sets a key to it. -/
def setConverted (d : Dict) : String × Op Value → Op Dict
  | (key, value) => do
    let v ← labelled ("failed to convert map value for key " ++ Text.quoted key) value
    return d.set (.str key) (← newStr key) v

mutual

/-- The value of a datum. Sequences become lists, mappings from texts become dicts with sorted
keys, which are gone through in this order, and references are followed. -/
def ofDatum : Datum → Op Value
  | .null => return .none
  | .bool _ b => return .bool b
  | .int _ n =>
    if n < Word.limit then return .int (Int64.ofInt n)
    else valueError s!"integer {n} overflows int"
  | .float _ x => newFloat x
  | .str _ s => newStr s
  | .stray _ s => newStr s.shown
  | .list _ items => do newList (← ofItems 0 items)
  | .record _ entries => do
    newDict (← (Assoc.sort (ofEntries entries)).foldlM setConverted {})
  | .mapping _ keyType _ =>
    typeError s!"unsupported map key type: {keyType} (only string keys supported)"
  | .pointer _ none => return .none
  | .pointer _ (some d) => ofDatum d
  | .code _ => typeError "cannot convert go value of type bytecode.Code"
  | .other t _ => typeError ("cannot convert go value of type " ++ t)

/-- The values of the items of a sequence, from position `i` on. -/
def ofItems (i : Nat) : List Datum → Op (List Value)
  | [] => return []
  | d :: ds => do
    let v ← labelled s!"failed to convert slice element {i}" (ofDatum d)
    return v :: (← ofItems (i + 1) ds)

/-- How the values of a mapping are made. -/
def ofEntries : List (String × Datum) → List (String × Op Value)
  | [] => []
  | (key, d) :: es => (key, ofDatum d) :: ofEntries es

end

/-- The values of globals that the embedding program provides. -/
def ofGlobals (globals : List (String × Datum)) : Op Bindings :=
  globals.mapM fun (name, d) => do
    return (name, ← labelled ("failed to convert " ++ Text.quoted name) (ofDatum d))

end Op

mutual

/-- A value as a datum, given the data of lists and dicts. -/
def Value.toDatumWith (lists dicts : Nat → Except Failure Datum) :
    Value → Except Failure Datum
  | .bool b => .ok (.bool Datum.boolType b)
  | .int n => .ok (.int Datum.intType n.toInt)
  | .float x _ => .ok (.float Datum.floatType x)
  | .str s _ => .ok (.str Datum.strType s)
  | .range r _ =>
    match r.toList? with
    | some ns => .ok (.list Datum.listType (ns.map fun n => .int Datum.intType n.toInt))
    | Option.none => .error .crash
  | .tuple items _ => do
    return .list Datum.listType (← Value.toDataWith lists dicts items)
  | .list ref => lists ref
  | .dict ref => dicts ref
  | .code c _ => .ok (.code c.name)
  | _ => .ok .null

/-- Values as data. -/
def Value.toDataWith (lists dicts : Nat → Except Failure Datum) :
    List Value → Except Failure (List Datum)
  | [] => .ok []
  | v :: vs => do
    return (← Value.toDatumWith lists dicts v) :: (← Value.toDataWith lists dicts vs)

end

namespace Store

/-- A value that goes through at most `depth` references as a datum. -/
def toDatumUpTo (s : Store) : Nat → Value → Except Failure Datum
  | 0 => Value.toDatumWith (fun _ => .ok .null) (fun _ => .ok .null)
  | depth + 1 => Value.toDatumWith
      (fun ref => do
        return .list Datum.listType (← (s.items ref).mapM (s.toDatumUpTo depth)))
      (fun ref => do
        let entries ← (s.entries ref).mapM fun e => do
          return (s.str e.key, ← s.toDatumUpTo depth e.value)
        return .record Datum.recordType
          (Assoc.setAll [] entries))

/-- A value as a datum of the embedding program. The keys of a dict become texts; a value without a
counterpart becomes null. -/
def toDatum (s : Store) (v : Value) : Except Failure Datum :=
  s.toDatumUpTo s.size v

end Store

end Wordcode
