import Wordcode.Store.Dict
import Wordcode.Store.Slice

namespace Wordcode

/-! # Subscripts, lengths and methods

Reading an item of a container by index, slice or key, deleting one, lengths, and looking up a
method. Assignment through a slice takes the values of any iterable and is defined with iteration.
-/

namespace Op

/-- The item of a sequence at an index. -/
def itemAt (items : List Value) (key : Value) (what : String) : Op Value := do
  let index ← ofExcept (indexOf key what)
  let i ← ofExcept (resolveIndex index (Int64.ofNat items.length) what)
  match items[i]? with
  | some v => return v
  | none => throw .crash

/-- Reads an item. -/
def getItem (container key : Value) : Op Value := do
  match container, key with
  | .str s _, .slice a b c _ =>
    newStr (String.ofList (← ofExcept (Slice.select s.toList a b c)))
  | .str s _, _ =>
    let cs := s.toList
    let index ← ofExcept (indexOf key "string")
    let i ← ofExcept (resolveIndex index (Int64.ofNat cs.length) "string")
    match cs[i]? with
    | some c => newStr (String.ofList [c])
    | none => throw .crash
  | .list ref, .slice a b c _ => newList (← ofExcept (Slice.select (← items ref) a b c))
  | .list ref, _ => itemAt (← items ref) key "list"
  | .tuple items _, .slice a b c _ => newTuple (← ofExcept (Slice.select items a b c))
  | .tuple items _, _ => itemAt items key "tuple"
  | .range r _, .slice a b c _ =>
    let positions ← ofExcept (Slice.indices a b c r.length.toInt)
    newList (positions.map fun i => .int (r.nth (Int64.ofInt i)))
  | .range r _, _ =>
    let index ← ofExcept (indexOf key "range")
    let i ← ofExcept (resolveIndex index r.length "range object")
    return .int (r.nth (Int64.ofNat i))
  | .dict ref, _ =>
    match ← dictGet? ref key with
    | some v => return v
    | none => missingKey key
  | _, _ => typeError s!"'{container.typeName}' object is not subscriptable"

/-- Deletes an item. -/
def delItem (container key : Value) : Op Unit := do
  match container, key with
  | .list ref, .slice a b c _ => moveItems ref (← ofExcept (Slice.delete (← items ref) a b c))
  | .list ref, _ =>
    let xs ← items ref
    let index ← ofExcept (indexOf key "list")
    let i ← ofExcept (resolveIndex index (Int64.ofNat xs.length) "list assignment")
    setItems ref (xs.eraseIdx i)
  | .dict ref, _ => dictDelete ref key
  | _, _ => typeError s!"'{container.typeName}' object doesn't support item deletion"

/-- The length of a container. -/
def length (v : Value) : Op Int64 := do
  match v with
  | .str s _ => return Int64.ofNat s.length
  | .range r _ => return r.length
  | .tuple items _ => return Int64.ofNat items.length
  | .list ref => return Int64.ofNat (← items ref).length
  | .dict ref => return Int64.ofNat (← dict ref).size
  | _ => typeError s!"object of type '{v.typeName}' has no len()"

/-- A method of a value, bound to it. -/
def getMethod (v : Value) (name : String) : Op Value :=
  match v.methods.find? (·.signature.name = name) with
  | some m => newMethod v m
  | none => raise .missingMethod s!"'{v.typeName}' object has no attribute '{name}'"

end Op

end Wordcode
