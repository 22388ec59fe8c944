import Wordcode.Builtin
import Wordcode.Code
import Wordcode.Decimal.Digits
import Wordcode.Elementary
import Wordcode.Method
import Wordcode.Range

namespace Wordcode

/-! # Values

What programs compute with. Immutable values hold their parts. Lists, dicts and iterators change
over time, and functions hold dicts, so a value of these types is only a reference, and a store says
what it refers to.

Values that could be told apart although they look alike carry an identity: a number that is fresh
whenever such a value is made. Numbers, truth values and builtins have none, because no operation
can tell two equal ones apart.

* `Value.typeName` names the type of a value.
* `Value.same` is identity.
* `Value.hash` is the key under which a dict files a value.
-/

/-- The key under which a dict files a value. Values that are equal have equal keys. A key that
holds a float which is not a number differs from itself. -/
inductive HashKey
  | none
  | int (n : Int64)
  | float (x : Float)
  | str (s : String)
  /-- The keys of the items of a tuple, as text. -/
  | tuple (text : String)
  deriving BEq, Inhabited

/-- How a host callable takes its arguments. -/
inductive Convention
  | positional
  | keywords
  /-- Positional, and the value passes for `None` apart from being callable. -/
  | bare
  deriving DecidableEq, Repr, Inhabited

/-- A callable of the embedding program, known by its name. -/
structure Host where
  name : String
  convention : Convention
  deriving DecidableEq, Repr, Inhabited

/-- A value. -/
inductive Value
  | none
  | bool (b : Bool)
  | int (n : Int64)
  | float (x : Float) (id : Nat)
  | str (s : String) (id : Nat)
  | range (r : Range) (id : Nat)
  | tuple (items : List Value) (id : Nat)
  | slice (start stop step : Value) (id : Nat)
  | list (ref : Nat)
  | dict (ref : Nat)
  | iterator (ref : Nat)
  | function (ref : Nat)
  | code (c : Code) (id : Nat)
  | method (receiver : Value) (m : Method) (id : Nat)
  | builtin (b : Builtin)
  | host (h : Host)
  deriving Inhabited

/-- An entry of a dict: a key, what it is filed under, and its value. -/
structure Entry where
  hash : HashKey
  key : Value
  value : Value
  deriving Inhabited

/-- Names with their values, each name at most once. -/
abbrev Bindings := List (String × Value)

namespace Value

/-- The name of a value's type. -/
def typeName : Value → String
  | none => "NoneType"
  | bool _ => "bool"
  | int _ => "int"
  | float .. => "float"
  | str .. => "str"
  | range .. => "range"
  | tuple .. => "tuple"
  | slice .. => "slice"
  | list _ => "list"
  | dict _ => "dict"
  | iterator _ => "iterator"
  | function _ => "function"
  | code .. => "code"
  | method .. => "method"
  | builtin _ => "builtin_function"
  | host h => match h.convention with
    | .bare => "NoneType"
    | _ => "builtin_function"

/-- Whether two values are one and the same. -/
def same : Value → Value → Bool
  | none, none => true
  | bool a, bool b => a == b
  | int a, int b => a == b
  | float _ a, float _ b | str _ a, str _ b | range _ a, range _ b | tuple _ a, tuple _ b
  | slice _ _ _ a, slice _ _ _ b | code _ a, code _ b | method _ _ a, method _ _ b => a == b
  | list a, list b | dict a, dict b | iterator a, iterator b | function a, function b => a == b
  | builtin a, builtin b => a == b
  | host a, host b => a == b
  | _, _ => false

/-- Whether a value is `None`. -/
def isNone : Value → Bool
  | none => true
  | _ => false

/-- Whether a value can be called. -/
def isCallable : Value → Bool
  | function _ | method .. | builtin _ | host _ => true
  | _ => false

/-- A truth value as a number. -/
def ofBool (b : Bool) : Int64 := if b then 1 else 0

/-- An integer or a truth value as a number. -/
def int? : Value → Option Int64
  | int n => some n
  | bool b => some (ofBool b)
  | _ => Option.none

/-- Any number as a double. -/
def float? : Value → Option Float
  | int n => some n.toFloat
  | bool b => some (ofBool b).toFloat
  | float x _ => some x
  | _ => Option.none

/-- The text of a string. -/
def str? : Value → Option String
  | str s _ => some s
  | _ => Option.none

/-- The methods of a value. -/
def methods (v : Value) : List Method :=
  match v with
  | str .. | list _ | dict _ | tuple .. => Method.ofOwner v.typeName
  | _ => []

end Value

/-! ## Hash keys -/

namespace HashKey

/-- The type whose values are filed under this kind of key. -/
def typeName : HashKey → String
  | none => "NoneType"
  | int _ => "int"
  | float _ => "float"
  | str _ => "str"
  | tuple _ => "tuple"

/-- The text of a key inside the key of a tuple. -/
def text : HashKey → String
  | none => "<nil>"
  | int n => toString n.toInt
  | float x => Decimal.compact x
  | str s => s
  | tuple t => t

end HashKey

namespace Value

/-- The key of a double. A double that stands for an integer of 64 bits has that integer's key,
except for the least one. -/
def hashFloat (x : Float) : HashKey :=
  if x == Elementary.truncate x && x.abs < 9223372036854775808 then
    .int (Int64.ofInt (Elementary.toInt x))
  else .float x

mutual

/-- The key of a value; only immutable values have one. -/
def hash : Value → Except Failure HashKey
  | none => .ok .none
  | bool b => .ok (.int (ofBool b))
  | int n => .ok (.int n)
  | float x _ => .ok (hashFloat x)
  | str s _ => .ok (.str s)
  | tuple items _ => (hashItems items).map .tuple
  | host ⟨_, .bare⟩ => .ok .none
  | v => .error (.raise .type s!"unhashable type: '{v.typeName}'")

/-- The keys of items as text: the type, the key and a separator for each. -/
def hashItems : List Value → Except Failure String
  | [] => .ok ""
  | v :: vs => do
    let key ← hash v
    return key.typeName ++ ":" ++ key.text ++ "\x00" ++ (← hashItems vs)

end

end Value

end Wordcode
