import Wordcode.Machine.World
import Wordcode.Text.Search

namespace Wordcode

/-! # Iteration

Iterators are advanced one item at a time. Some call back into the program, so everything here takes
a way to call values, and a fuel that bounds the number of nested and repeated steps.

* `Exec.iterate` makes an iterator over a value.
* `Exec.next` advances an iterator.
* `Exec.collect` takes all items.
-/

namespace Op

/-- The reference of an iterator over a value. An iterator is its own. -/
def cursorOf (v : Value) : Op Nat := do
  match v with
  | .iterator ref => return ref
  | .str s _ => newCursor (.chars s.toList)
  | .tuple items _ => newCursor (.items "tuple_iterator" items)
  | .list ref => newCursor (.list ref 0)
  | .range r _ => newCursor (.range r 0 r.length)
  | .dict ref => newCursor (.keys ref 0 (← dict ref).size)
  | _ => typeError s!"'{v.typeName}' object is not iterable"

/-- An iterator over a value. -/
def iterate (v : Value) : Op Value := return .iterator (← cursorOf v)

/-- Takes the next item of an iterator that has no other iterator as its source. -/
def advance (ref : Nat) : Cursor → Op (Option Value)
  | .items kind rest =>
    match rest with
    | [] => return none
    | v :: vs => do
      setCursor ref (.items kind vs)
      return some v
  | .chars rest =>
    match rest with
    | [] => return none
    | c :: cs => do
      setCursor ref (.chars cs)
      return some (← newStr (String.ofList [c]))
  | .list source position => do
    match (← items source)[position]? with
    | none => return none
    | some v =>
      setCursor ref (.list source (position + 1))
      return some v
  | .range r position length => do
    if length ≤ position then return none
    setCursor ref (.range r (position + 1) length)
    return some (.int (r.nth position))
  | .keys source position size => do
    let es ← entries source
    if es.length ≠ size then valueError "dictionary changed size during iteration"
    match es[position]? with
    | none => return none
    | some e =>
      setCursor ref (.keys source (position + 1) size)
      return some e.key
  | _ => return none

end Op

namespace Exec

/-- Takes an item from each source; the first one that is exhausted ends it. -/
def nextAll (next : Nat → Exec (Option Value)) : List Nat → Exec (Option (List Value))
  | [] => return some []
  | source :: rest => do
    match ← next source with
    | none => return none
    | some v =>
      match ← nextAll next rest with
      | none => return none
      | some vs => return some (v :: vs)

/-- Takes the next item of an iterator, or nothing at its end, which is final. A function that
returns nothing gives a `map` no item to pass on and a `filter` no decision, which breaks the run
off. -/
def next (call : Callback) : Nat → Nat → Exec (Option Value)
  | 0, _ => throw .exhausted
  | fuel + 1, ref => do
    let it ← (Op.iterator ref : Op Iteration)
    if it.done then return none
    let item ← match it.cursor with
      | .enumerate source _ => do
        match ← next call fuel source with
        | none => pure none
        | some v =>
          -- The count may have moved on while the source was asked.
          let count := match (← (Op.iterator ref : Op Iteration)).cursor with
            | .enumerate _ count => count
            | _ => 0
          let pair ← Op.newTuple [.int count, v]
          Op.setCursor ref (.enumerate source (count + 1))
          pure (some pair)
      | .zip sources => do
        if sources.isEmpty then pure none
        else
          match ← nextAll (next call fuel) sources with
          | none => pure none
          | some vs => pure (some (← Op.newTuple vs))
      | .map f sources => do
        match ← nextAll (next call fuel) sources with
        | none => pure none
        | some vs => pure (some (← call.value f vs))
      | .filter f? source => do
        match ← next call fuel source with
        | none => pure none
        | some v =>
          let decision ← match f? with
            | none => pure v
            | some f => call.value f [v]
          if ← Op.truthy decision then pure (some v) else next call fuel ref
      | cursor => Op.advance ref cursor
    if item.isNone then Op.setDone ref
    return item

/-- The items still to come from an iterator. -/
def drain (call : Callback) : Nat → Nat → Exec (List Value)
  | 0, _ => throw .exhausted
  | fuel + 1, ref => go fuel ref #[]
where
  /-- Collects items one by one. -/
  go : Nat → Nat → Array Value → Exec (List Value)
    | 0, _, _ => throw .exhausted
    | fuel + 1, ref, seen => do
      match ← next call fuel ref with
      | none => return seen.toList
      | some v => go fuel ref (seen.push v)

/-- All items of a value. -/
def collect (call : Callback) (fuel : Nat) (v : Value) : Exec (List Value) := do
  match v with
  | .list ref => Op.items ref
  | .tuple items _ => return items
  | _ => drain call fuel (← Op.cursorOf v)

/-- Whether an item passes a test, asking for items until one does. -/
def anyItem (call : Callback) (test : Value → Exec Bool) : Nat → Nat → Exec Bool
  | 0, _ => throw .exhausted
  | fuel + 1, ref => do
    match ← next call fuel ref with
    | none => return false
    | some v => if ← test v then return true else anyItem call test fuel ref

/-- Whether a container holds an item. -/
def contains (call : Callback) (fuel : Nat) (container item : Value) : Exec Bool := do
  match container with
  | .list ref => return (← Op.indexOf? (← Op.items ref) item).isSome
  | .tuple items _ => return (← Op.indexOf? items item).isSome
  | .dict ref => return (← Op.dictGet? ref item).isSome
  | .range r _ =>
    match item.int? with
    | some n => return r.contains n
    | none => return false
  | .str s _ =>
    match item with
    | .str t _ => return Text.contains s.toList t.toList
    | _ => typeError s!"'in <string>' requires string as left operand, not {item.typeName}"
  | .iterator ref =>
    anyItem call (fun v => do
      if ← Op.identical v item then return true else Op.equals v item) fuel ref
  | _ => typeError s!"argument of type '{container.typeName}' is not iterable"

/-- Appends all items of an iterable to a list. -/
def extend (call : Callback) (fuel : Nat) (ref : Nat) (iterable : Value) : Exec Unit := do
  let new ← collect call fuel iterable
  Op.setItems ref ((← Op.items ref) ++ new)

/-- An operator that may change its left operand: joining to a list extends it. -/
def inplace (call : Callback) (fuel : Nat) (o : BinaryOperator) (a b : Value) : Exec Value := do
  match o, a with
  | .add, .list ref =>
    extend call fuel ref b
    return a
  | _, _ => Op.binary o a b

/-- Assigns an item. -/
def setItem (call : Callback) (fuel : Nat) (container key value : Value) : Exec Unit := do
  match container, key with
  | .list ref, .slice a b c _ =>
    let values ← collect call fuel value
    let new ← ofExcept (Slice.assign (← Op.items ref) a b c values)
    if Slice.isContiguous c then Op.moveItems ref new else Op.setItems ref new
  | .list ref, _ =>
    let xs ← Op.items ref
    let index ← ofExcept (indexOf key "list")
    let i ← ofExcept (resolveIndex index (Int64.ofNat xs.length) "list assignment")
    Op.setItems ref (xs.set i value)
  | .dict ref, _ => Op.dictSet ref key value
  | _, _ => typeError s!"'{container.typeName}' object does not support item assignment"

/-- Files pairs, which are iterables of two items, in a dict. -/
def updatePairs (call : Callback) (fuel : Nat) (ref : Nat) : Nat → List Value → Exec Unit
  | _, [] => return ()
  | i, item :: rest => do
    let pair ← orError (collect call fuel item)
      (.raise .type s!"cannot convert dictionary update sequence element #{i} to a sequence")
    match pair with
    | [key, value] =>
      Op.dictSet ref key value
      updatePairs call fuel ref (i + 1) rest
    | _ =>
      valueError
        s!"dictionary update sequence element #{i} has length {pair.length}; 2 is required"

/-- Merges a dict, or an iterable of pairs, into a dict. -/
def update (call : Callback) (fuel : Nat) (ref : Nat) (other : Value) : Exec Unit := do
  match other with
  | .dict source => Op.dictMerge ref (← Op.entries source)
  | _ => updatePairs call fuel ref 0 (← collect call fuel other)

/-- Merges what a call is given into a dict: a dict or an iterable of pairs, if there is one, and
then the keyword arguments. -/
def merge (call : Callback) (fuel : Nat) (ref : Nat) (args : List Value) (keywords : List Entry) :
    Exec Unit := do
  match args with
  | other :: _ => update call fuel ref other
  | [] => pure ()
  Op.dictMerge ref keywords

end Exec

end Wordcode
