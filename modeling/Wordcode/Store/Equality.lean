import Wordcode.Opcode
import Wordcode.Store

namespace Wordcode

/-! # Equality and order of values

Numbers are equal across their types, sequences item by item, dicts entry by entry in any order;
other values only to themselves. Both relations go through tuples structurally and through
references by a count of references, which is enough for values that do not contain themselves.

* `Store.equals` is equality.
* `Store.compare?` is the order; it is undefined between values of unlike types.
-/

mutual

/-- Equality of values, given that of the contents of lists and of dicts. -/
def Value.equalsWith (lists dicts : Nat → Nat → Bool) : Value → Value → Bool
  | .none, .none => true
  | .bool a, .bool b => a == b
  | .bool a, .int b => Value.ofBool a == b
  | .int a, .bool b => a == Value.ofBool b
  | .int a, .int b => a == b
  | .int a, .float b _ => a.toFloat == b
  | .bool a, .float b _ => (Value.ofBool a).toFloat == b
  | .float a _, .int b => a == b.toFloat
  | .float a _, .bool b => a == (Value.ofBool b).toFloat
  | .float a _, .float b _ => a == b
  | .str a _, .str b _ => a == b
  | .range a _, .range b _ => a.equals b
  | .tuple as _, .tuple bs _ => Value.equalItemsWith lists dicts as bs
  | .slice a b c _, .slice a' b' c' _ =>
    Value.equalsWith lists dicts a a' && Value.equalsWith lists dicts b b' &&
      Value.equalsWith lists dicts c c'
  | .list a, .list b => lists a b
  | .dict a, .dict b => dicts a b
  | .iterator a, .iterator b => a == b
  | .function a, .function b => a == b
  | .code a _, .code b _ => a.serial == b.serial
  | .method a m _, .method b n _ => m == n && a.same b
  | .builtin a, .builtin b => a == b
  | .host a, .host b => a == b && a.convention != .bare
  | .host a, .none => a.convention == .bare
  | _, _ => false

/-- Equality of sequences. -/
def Value.equalItemsWith (lists dicts : Nat → Nat → Bool) : List Value → List Value → Bool
  | [], [] => true
  | a :: as, b :: bs =>
    Value.equalsWith lists dicts a b && Value.equalItemsWith lists dicts as bs
  | _, _ => false

end

namespace Store

/-- Equality of values that go through at most `depth` references. -/
def equalsUpTo (s : Store) : Nat → Value → Value → Bool
  | 0 => Value.equalsWith (fun _ _ => false) (fun _ _ => false)
  | depth + 1 =>
    let eq := s.equalsUpTo depth
    Value.equalsWith
      (fun a b => a == b || (let xs := s.items a; let ys := s.items b
        xs.length == ys.length && (xs.zip ys).all fun (x, y) => eq x y))
      (fun a b => let d := s.dict a; let d' := s.dict b
        d.size == d'.size && d.entries.all fun e =>
          match d'.find? e.hash with
          | some v => eq e.value v
          | none => false)

/-- Equality of values. -/
def equals (s : Store) (a b : Value) : Bool :=
  s.equalsUpTo s.size a b

end Store

/-! ## Order -/

/-- The order of doubles; undefined when one of them is not a number. -/
def compareFloats? (a b : Float) : Option Ordering :=
  if a < b then some .lt else if a > b then some .gt else if a == b then some .eq else none

/-- The order of sequences: the first items that differ decide, then the lengths. -/
def compareItems? (eq : Value → Value → Bool) (order? : Value → Value → Option Ordering) :
    List Value → List Value → Option Ordering
  | [], [] => some .eq
  | [], _ :: _ => some .lt
  | _ :: _, [] => some .gt
  | a :: as, b :: bs => if eq a b then compareItems? eq order? as bs else order? a b

mutual

/-- The order of values, given equality and the order of lists. -/
def Value.compareWith? (eq : Value → Value → Bool) (lists : Nat → Nat → Option Ordering) :
    Value → Value → Option Ordering
  | .str a _, .str b _ => some (compare a b)
  | .tuple as _, .tuple bs _ => Value.compareTuplesWith? eq lists as bs
  | .list a, .list b => lists a b
  | a, b =>
    match a.int?, b.int? with
    | some m, some n => some (compare m n)
    | _, _ =>
      match a.float?, b.float? with
      | some x, some y => compareFloats? x y
      | _, _ => Option.none

/-- The order of the items of two tuples. -/
def Value.compareTuplesWith? (eq : Value → Value → Bool) (lists : Nat → Nat → Option Ordering) :
    List Value → List Value → Option Ordering
  | [], [] => some .eq
  | [], _ :: _ => some .lt
  | _ :: _, [] => some .gt
  | a :: as, b :: bs =>
    if eq a b then Value.compareTuplesWith? eq lists as bs else Value.compareWith? eq lists a b

end

namespace Store

/-- The order of values that go through at most `depth` references. -/
def compareUpTo? (s : Store) : Nat → Value → Value → Option Ordering
  | 0 => Value.compareWith? s.equals (fun _ _ => none)
  | depth + 1 =>
    Value.compareWith? s.equals fun a b =>
      compareItems? s.equals (s.compareUpTo? depth) (s.items a) (s.items b)

/-- The order of values; undefined between values of unlike types. -/
def compare? (s : Store) (a b : Value) : Option Ordering :=
  s.compareUpTo? s.size a b

end Store

namespace Op

def equals (a b : Value) : Op Bool := return (← get).equals a b

/-- Whether two values are identical: the same value, or equal numbers or strings of one type. -/
def identical (a b : Value) : Op Bool := do
  if a.same b then return true
  else match a, b with
    | .int _, .int _ | .float .., .float .. | .str .., .str .. => equals a b
    | _, _ => return false

/-- Compares two values. Equality is always defined; an order that is undefined is a type error. -/
def compare (c : Comparison) (a b : Value) : Op Bool := do
  match c with
  | .equal => equals a b
  | .notEqual => return !(← equals a b)
  | _ =>
    match (← get).compare? a b with
    | none =>
      typeError (s!"'{c.symbol}' not supported between instances of " ++
        s!"'{a.typeName}' and '{b.typeName}'")
    | some order =>
      return match c with
        | .less => order == .lt
        | .lessEqual => order != .gt
        | .greater => order == .gt
        | _ => order != .lt

/-- Whether one value orders before another. -/
def less (a b : Value) : Op Bool := compare .less a b

/-- The position of the first item that is the given value or equal to it. -/
def indexOf? (items : List Value) (v : Value) : Op (Option Nat) := do
  let s ← get
  return items.findIdx? fun item => item.same v || s.equals item v

/-- How many items are equal to a value. -/
def countOf (items : List Value) (v : Value) : Op Nat := do
  let s ← get
  return items.countP fun item => s.equals item v

end Op

end Wordcode
