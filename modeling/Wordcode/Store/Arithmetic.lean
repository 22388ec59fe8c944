import Wordcode.Store.Convert
import Wordcode.Store.Dict

namespace Wordcode

/-! # Operators

Unary and binary operators on values. Integers have 64 bits and wrap around; a truth value counts as
an integer; an integer next to a double becomes one. Sequences can be joined and repeated, dicts
merged.
-/

/-- Repeated squaring, modulo 2^64. -/
def powerInt : Nat → Int64 → Nat → Int64 → Int64
  | 0, _, _, result => result
  | fuel + 1, base, exponent, result =>
    if exponent = 0 then result
    else powerInt fuel (base * base) (exponent / 2)
      (if exponent % 2 = 1 then result * base else result)

/-- The quotient rounded down. -/
def floorDivInt (a b : Int64) : Int64 :=
  let q := a / b
  if a % b ≠ 0 && (decide (a < 0) != decide (b < 0)) then q - 1 else q

/-- The remainder with the sign of the divisor. -/
def floorModInt (a b : Int64) : Int64 :=
  let m := a % b
  if m ≠ 0 && (decide (m < 0) != decide (b < 0)) then m + b else m

/-- A shift to the left; counts beyond the width give zero. -/
def shiftLeftInt (a b : Int64) : Int64 :=
  if 64 ≤ b then 0 else a <<< b

/-- A shift to the right; counts beyond the width leave only the sign. -/
def shiftRightInt (a b : Int64) : Int64 :=
  if 64 ≤ b then (if a < 0 then -1 else 0) else a >>> b

namespace Op

def zeroDivision {α : Type} (message : String) : Op α := raise .zeroDivision message

/-- An operator on two integers. -/
def intOp (o : BinaryOperator) (a b : Int64) : Op Value :=
  match o with
  | .add => return .int (a + b)
  | .subtract => return .int (a - b)
  | .multiply => return .int (a * b)
  | .trueDivide =>
    if b = 0 then zeroDivision "division by zero" else newFloat (a.toFloat / b.toFloat)
  | .floorDivide =>
    if b = 0 then zeroDivision "integer division or modulo by zero"
    else return .int (floorDivInt a b)
  | .modulo =>
    if b = 0 then zeroDivision "integer division or modulo by zero"
    else return .int (floorModInt a b)
  | .power =>
    if b < 0 then
      if a = 0 then zeroDivision "0.0 cannot be raised to a negative power"
      else newFloat (Elementary.power a.toFloat b.toFloat)
    else return .int (powerInt 64 a b.toInt.toNat 1)
  | .leftShift =>
    if b < 0 then valueError "negative shift count" else return .int (shiftLeftInt a b)
  | .rightShift =>
    if b < 0 then valueError "negative shift count" else return .int (shiftRightInt a b)
  | .bitAnd => return .int (a &&& b)
  | .bitOr => return .int (a ||| b)
  | .bitXor => return .int (a ^^^ b)

/-- A type error about operands; the name of a truth value's type on the left is that of an
integer. -/
def unsupported {α : Type} (symbol : String) (a b : Value) : Op α :=
  let left := match a with
    | .bool _ => "int"
    | _ => a.typeName
  typeError s!"unsupported operand type(s) for {symbol}: '{left}' and '{b.typeName}'"

/-- The remainder of two doubles with the sign of the divisor. -/
def floorModFloat (a b : Float) : Float :=
  let m := Elementary.remainder a b
  if m != 0 && (decide (m < 0) != decide (b < 0)) then m + b else m

/-- An operator on two doubles; `left` and `right` are the operands they come from. -/
def floatOp (o : BinaryOperator) (a b : Float) (left right : Value) : Op Value :=
  match o with
  | .add => newFloat (a + b)
  | .subtract => newFloat (a - b)
  | .multiply => newFloat (a * b)
  | .trueDivide => if b == 0 then zeroDivision "float division by zero" else newFloat (a / b)
  | .floorDivide =>
    if b == 0 then zeroDivision "float floor division by zero"
    else newFloat (Elementary.floor (a / b))
  | .modulo =>
    if b == 0 then zeroDivision "float modulo" else newFloat (floorModFloat a b)
  | .power =>
    if a == 0 && b < 0 then zeroDivision "0.0 cannot be raised to a negative power"
    else if a < 0 && b != Elementary.truncate b then valueError "math domain error"
    else newFloat (Elementary.power a b)
  | _ => unsupported o.symbol left right

/-- A sequence repeated, given the size of its items in bytes; a result that no memory holds does
not exist. -/
def repeatList {α : Type} (items : List α) (times : Int64) (bytes : Nat) : Op (List α) :=
  let n := times.toInt.toNat
  if items.isEmpty then return []
  else if maxMemory < bytes * n then throw .crash
  else return (List.replicate n items).flatten

/-- The bytes that a reference to a value takes up. -/
def referenceBytes : Nat := 16

/-- A binary operator on values. -/
def binary (o : BinaryOperator) (a b : Value) : Op Value := do
  match o, a, b with
  | .bitAnd, .bool x, .bool y => return .bool (x && y)
  | .bitOr, .bool x, .bool y => return .bool (x || y)
  | .bitXor, .bool x, .bool y => return .bool (x != y)
  | .add, .str s _, .str t _ => newStr (s ++ t)
  | .add, .tuple xs _, .tuple ys _ => newTuple (xs ++ ys)
  | .add, .list x, .list y => newList ((← items x) ++ (← items y))
  | .bitOr, .dict x, .dict y => dictUnion x y
  | _, _, _ =>
    match a.int?, b.int? with
    | some m, some n => intOp o m n
    | _, _ =>
      match a.float?, b.float? with
      | some x, some y => floatOp o x y a b
      | _, _ =>
        match o, repeated? a b with
        | .multiply, some (sequence, n) =>
          match sequence with
          | .str s _ => newStr (String.ofList (← repeatList s.toList n s.utf8ByteSize))
          | .tuple xs _ => newTuple (← repeatList xs n (referenceBytes * xs.length))
          | .list ref =>
            let xs ← items ref
            newList (← repeatList xs n (referenceBytes * xs.length))
          | _ => unsupported o.symbol a b
        | _, _ => unsupported o.symbol a b
where
  /-- A sequence and a number of repetitions, in either order. -/
  repeated? (a b : Value) : Option (Value × Int64) :=
    match a, b with
    | .str .., _ | .tuple .., _ | .list _, _ => b.int?.map (a, ·)
    | _, .str .. | _, .tuple .. | _, .list _ => a.int?.map (b, ·)
    | _, _ => none

/-- A binary operator by its number; a number that names none is a type error on any operands. -/
def binaryNumbered (n : Nat) (a b : Value) : Op Value :=
  match BinaryOperator.ofNumber? n with
  | some o => binary o a b
  | none =>
    match a.int?, b.int? with
    | some _, some _ => typeError "unsupported operand type(s) for : 'int' and 'int'"
    | _, _ => unsupported "" a b

/-- A comparison by its number; with a number that names none, comparable operands are malformed
code and others a type error. -/
def compareNumbered (n : Nat) (a b : Value) : Op Bool := do
  match Comparison.ofNumber? n with
  | some c => compare c a b
  | none =>
    match (← get).compare? a b with
    | some _ => raise .malformedCode s!"unknown comparison operator: {n}"
    | none =>
      typeError s!"'' not supported between instances of '{a.typeName}' and '{b.typeName}'"

def negate : Value → Op Value
  | .int n => return .int (-n)
  | .bool b => return .int (-Value.ofBool b)
  | .float x _ => newFloat (-x)
  | v => typeError s!"bad operand type for unary -: '{v.typeName}'"

def positive : Value → Op Value
  | .int n => return .int n
  | .float x id => return .float x id
  | .bool b => return .int (Value.ofBool b)
  | v => typeError s!"bad operand type for unary +: '{v.typeName}'"

def invert (v : Value) : Op Value :=
  match v.int? with
  | some n => return .int (~~~n)
  | none => typeError s!"bad operand type for unary ~: '{v.typeName}'"

/-- Whether a value counts as true: numbers other than zero, sequences and dicts that are not
empty, and every value of another type but `None`. -/
def truthy (v : Value) : Op Bool := do
  match v with
  | .none => return false
  | .bool b => return b
  | .int n => return n != 0
  | .float x _ => return x != 0
  | .str s _ => return s != ""
  | .range r _ => return decide (0 < r.length)
  | .tuple items _ => return !items.isEmpty
  | .list ref => return !(← items ref).isEmpty
  | .dict ref => return !(← entries ref).isEmpty
  | .host h => return h.convention != .bare
  | _ => return true

end Op

end Wordcode
