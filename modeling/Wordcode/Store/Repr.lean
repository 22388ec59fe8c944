import Wordcode.Store
import Wordcode.Text.Quoted

namespace Wordcode

/-! # The text of values

`Store.repr` is a value's text as a program would write it; `Store.str` is its informal text, which
for a string is the string itself. A list or dict that contains itself is cut short where it comes
around.
-/

/-- The text of a double: the fewest digits that read back, positional with a point from `1e-4` up
to below `1e16`, scientific outside of that. The decimal magnitude is taken from the logarithm, so
numbers just below a power of ten may count as that power. -/
def floatText (x : Float) : String :=
  match Decimal.decode x with
  | .nan => "nan"
  | .infinite negative => if negative then "-inf" else "inf"
  | .finite negative m e =>
    let d := Decimal.shortest m e
    let magnitude := Elementary.floor (Elementary.log10 x.abs)
    let body :=
      if m ≠ 0 && (magnitude < -4 || magnitude >= 16) then d.scientific (d.digits.length - 1) 'e'
      else
        let plain := d.plain
        if plain.contains '.' then plain else plain ++ ['.', '0']
    String.ofList (if negative then '-' :: body else body)

/-- The text of a string as a literal. -/
def literalText (s : String) : String := String.ofList (Text.literal s.toList)

mutual

/-- The text of a value, given that of lists and dicts, the kinds of iterators and the names of
functions. -/
def Value.reprWith (lists dicts iterators functions : Nat → String) : Value → String
  | .none => "None"
  | .bool b => if b then "True" else "False"
  | .int n => toString n.toInt
  | .float x _ => floatText x
  | .str s _ => literalText s
  | .range r _ => r.render
  | .tuple items _ =>
    let parts := Value.reprItemsWith lists dicts iterators functions items
    match parts with
    | [part] => "(" ++ part ++ ",)"
    | _ => "(" ++ String.intercalate ", " parts ++ ")"
  | .slice a b c _ =>
    "slice(" ++ Value.reprWith lists dicts iterators functions a ++ ", " ++
      Value.reprWith lists dicts iterators functions b ++ ", " ++
      Value.reprWith lists dicts iterators functions c ++ ")"
  | .list ref => lists ref
  | .dict ref => dicts ref
  | .iterator ref => "<" ++ iterators ref ++ " object>"
  | .function ref => "<function " ++ functions ref ++ ">"
  | .code c _ => "<code object " ++ c.name ++ ">"
  | .method _ m _ => "<bound method " ++ m.fullName ++ ">"
  | .builtin b => "<built-in function " ++ b.name ++ ">"
  | .host h => match h.convention with
    | .bare => "<" ++ h.name ++ ">"
    | _ => "<built-in function " ++ h.name ++ ">"

/-- The texts of the items of a tuple. -/
def Value.reprItemsWith (lists dicts iterators functions : Nat → String) :
    List Value → List String
  | [] => []
  | v :: vs =>
    Value.reprWith lists dicts iterators functions v ::
      Value.reprItemsWith lists dicts iterators functions vs

end

/-- The references that are being written, so that one inside itself is noticed. -/
structure Open where
  lists : List Nat := []
  dicts : List Nat := []

namespace Store

/-- The text of a value inside the given references. Every level opens another one, so the number of
references bounds the depth. -/
def reprIn (s : Store) : Nat → Open → Value → String
  | 0, _ => Value.reprWith (fun _ => "[...]") (fun _ => "\x7b...\x7d")
      (fun ref => (s.iterator ref).cursor.kind) (fun ref => (s.function ref).code.name)
  | depth + 1, o => Value.reprWith
      (fun ref =>
        if o.lists.contains ref then "[...]"
        else
          let inner := s.reprIn depth { o with lists := ref :: o.lists }
          "[" ++ String.intercalate ", " ((s.items ref).map inner) ++ "]")
      (fun ref =>
        if o.dicts.contains ref then "\x7b...\x7d"
        else
          let inner := s.reprIn depth { o with dicts := ref :: o.dicts }
          "\x7b" ++ String.intercalate ", "
            ((s.entries ref).map fun e => inner e.key ++ ": " ++ inner e.value) ++ "\x7d")
      (fun ref => (s.iterator ref).cursor.kind) (fun ref => (s.function ref).code.name)

/-- The text of a value as a program would write it. -/
def repr (s : Store) (v : Value) : String :=
  s.reprIn s.size {} v

/-- The informal text of a value. -/
def str (s : Store) (v : Value) : String :=
  match v with
  | .str text _ => text
  | _ => s.repr v

end Store

namespace Op

def repr (v : Value) : Op String := return (← get).repr v
def str (v : Value) : Op String := return (← get).str v

end Op

/-- Whether a value has an informal text of its own: slices, code and bound methods have none. -/
def Value.hasText : Value → Bool
  | .slice .. | .code .. | .method .. => false
  | _ => true

end Wordcode
