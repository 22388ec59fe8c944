import Wordcode.Machine.Iteration
import Wordcode.Sort
import Wordcode.Text.LetterCase

namespace Wordcode

/-! # Calling methods

What the methods of strings, lists, dicts and tuples do. The number of arguments is checked against
the signature first, then keyword arguments are refused unless the method takes them.
-/

namespace Exec

/-! ## Sorting -/

/-- How to sort: by which key, and in which direction. -/
structure SortOptions where
  key? : Option Value := none
  descending : Bool := false

/-- Reads sorting options from keyword arguments. A key of `None` means no key. -/
def sortOptions (name : String) (keywords : List Entry) : Exec SortOptions :=
  keywords.foldlM (fun options e => do
    match e.key.str? with
    | some "key" =>
      if e.value.isNone then return options
      else if e.value.isCallable then return { options with key? := some e.value }
      else typeError s!"'{e.value.typeName}' object is not callable"
    | some "reverse" => return { options with descending := ← Op.truthy e.value }
    | _ =>
      let key ← Op.repr e.key
      raise .unexpectedKeyword s!"{name}() got an unexpected keyword argument {key}") {}

/-- The key of an item, which is the item itself if there is no key function. A key function that
returns nothing gives no key. -/
def keyOf (call : Callback) (key? : Option Value) (item : Value) : Exec (Option Value) :=
  match key? with
  | none => return some item
  | some f => call f [item]

/-- Whether one key orders before another. Without one of them they cannot be compared. -/
def lessKey : Option Value → Option Value → Op Bool
  | some a, some b => Op.less a b
  | _, _ => throw .crash

/-- Brings things into the order of their keys. -/
def inOrder {α : Type} (descending : Bool) (keyed : List (Option Value × α)) : Op (List α) := do
  let less (a b : Option Value × α) : Op Bool :=
    if descending then lessKey b.1 a.1 else lessKey a.1 b.1
  return (← Sort.stable less keyed).map (·.2)

/-- Sorts items by their keys; the key function is called once for each item, in order. -/
def sortItems (call : Callback) (options : SortOptions) (items : List Value) :
    Exec (List Value) := do
  let keyed ← items.mapM fun item => return (← keyOf call options.key? item, item)
  inOrder options.descending keyed

/-- The keys of what is in the first cells of a block, with the positions of the cells. Each cell is
read when its turn comes. -/
def cellKeys (call : Callback) (key? : Option Value) (block count : Nat) :
    Exec (List (Option Value × Nat)) :=
  (List.range count).mapM fun i => do
    let item := (← Op.cells block).getD i .none
    return (← keyOf call key? item, i)

/-- Sorts a list where it is. The items are read again when they have been ordered, so what the key
function does to them shows, and a list that moves elsewhere meanwhile stays as it is. -/
def sortList (call : Callback) (options : SortOptions) (ref : Nat) : Exec Unit := do
  let count := (← Op.items ref).length
  let block ← Op.blockOf ref
  let keyed ← cellKeys call options.key? block count
  let order ← inOrder options.descending keyed
  let cells ← Op.cells block
  Op.setCells block (order.map fun i => cells.getD i .none)

/-! ## Methods by type -/

/-- Removes characters from the ends of a string: white space, or the given characters. -/
def strip (trim : (Char → Bool) → List Char → List Char) (s : String) (args : List Value) :
    Exec Value := do
  match args with
  | [] | [.none] => Op.newStr (String.ofList (trim Text.isAsciiBlank s.toList))
  | chars :: _ =>
    let chars := (← Op.asStr chars).toList
    Op.newStr (String.ofList (trim chars.contains s.toList))

/-- The texts of the items to be joined. -/
def joinTexts : Nat → List Value → Exec (List (List Char))
  | _, [] => return []
  | i, v :: vs => do
    match v with
    | .str s _ => return s.toList :: (← joinTexts (i + 1) vs)
    | _ => typeError s!"sequence item {i}: expected str instance, {v.typeName} found"

/-- A method of a string. -/
def strMethod (call : Callback) (fuel : Nat) (s : String) (m : StrMethod) (args : List Value) :
    Exec Value := do
  let cs := s.toList
  let first := args.headD .none
  match m with
  | .count => return .int (Int64.ofNat (Text.count cs (← Op.asStr first).toList))
  | .endswith => return .bool ((← Op.asStr first).toList.isSuffixOf cs)
  | .find =>
    match Text.find? (← Op.asStr first).toList cs with
    | some i => return .int (Int64.ofNat i)
    | none => return .int (-1)
  | .join =>
    let parts ← joinTexts 0 (← collect call fuel first)
    Op.newStr (String.ofList (Text.join cs parts))
  | .lower => Op.newStr (String.ofList (cs.map Text.toLower))
  | .lstrip => strip Text.trimLeft s args
  | .replace =>
    let old ← Op.asStr first
    let new ← Op.asStr (args.getD 1 .none)
    Op.newStr (String.ofList (Text.replace cs old.toList new.toList))
  | .rstrip => strip Text.trimRight s args
  | .split =>
    let parts ← if first.isNone then pure (Text.words cs)
      else
        let sep ← Op.asStr first
        if sep = "" then valueError "empty separator" else pure (Text.split cs sep.toList)
    Op.newList (← Op.newStrs (parts.map String.ofList))
  | .startswith => return .bool ((← Op.asStr first).toList.isPrefixOf cs)
  | .strip => strip Text.trim s args
  | .upper => Op.newStr (String.ofList (cs.map Text.toUpper))

/-- The position before which an item is inserted: a negative index counts from the end, and one
outside goes to the end on its side. -/
def insertPosition (index : Int64) (length : Nat) : Nat :=
  let i := if index < 0 then max 0 (index.toInt + length) else index.toInt
  (min i length).toNat

/-- A method of a list. -/
def listMethod (call : Callback) (fuel : Nat) (ref : Nat) (m : ListMethod) (args : List Value)
    (keywords : List Entry) : Exec Value := do
  let xs ← Op.items ref
  let first := args.headD .none
  match m with
  | .append =>
    Op.setItems ref (xs ++ [first])
    return .none
  | .clear =>
    Op.moveItems ref []
    return .none
  | .copy => Op.newList xs
  | .count => return .int (Int64.ofNat (← Op.countOf xs first))
  | .extend =>
    extend call fuel ref first
    return .none
  | .index =>
    match ← Op.indexOf? xs first with
    | some i => return .int (Int64.ofNat i)
    | none => valueError ((← Op.repr first) ++ " is not in list")
  | .insert =>
    let index ← ofExcept (indexOf first "list")
    Op.setItems ref (xs.insertIdx (insertPosition index xs.length) (args.getD 1 .none))
    return .none
  | .pop =>
    let index ← match args with
      | [] => pure (-1)
      | v :: _ => ofExcept (indexOf v "list")
    if xs.isEmpty then raise .index "pop from empty list"
    let i ← ofExcept (resolveIndex index (Int64.ofNat xs.length) "pop")
    match xs[i]? with
    | some v =>
      Op.setItems ref (xs.eraseIdx i)
      return v
    | none => throw .crash
  | .remove =>
    match ← Op.indexOf? xs first with
    | some i =>
      Op.setItems ref (xs.eraseIdx i)
      return .none
    | none => valueError "list.remove(x): x not in list"
  | .reverse =>
    Op.setItems ref xs.reverse
    return .none
  | .sort =>
    sortList call (← sortOptions "list.sort" keywords) ref
    return .none

/-- A method of a dict. -/
def dictMethod (call : Callback) (fuel : Nat) (ref : Nat) (m : DictMethod) (args : List Value)
    (keywords : List Entry) : Exec Value := do
  let key := args.headD .none
  match m with
  | .clear =>
    Op.dictClear ref
    return .none
  | .copy => Op.dictCopy ref
  | .get =>
    match ← Op.dictGet? ref key with
    | some v => return v
    | none => return args.getD 1 .none
  | .items => Op.dictItems ref
  | .keys => Op.dictKeys ref
  | .pop =>
    match ← Op.dictPop? ref key with
    | some v => return v
    | none =>
      match args with
      | [_, fallback] => return fallback
      | _ => Op.missingKey key
  | .setdefault => Op.dictSetDefault ref key (args.getD 1 .none)
  | .update =>
    merge call fuel ref args keywords
    return .none
  | .values => Op.dictValues ref

/-- A method of a tuple. -/
def tupleMethod (items : List Value) (m : TupleMethod) (args : List Value) : Exec Value := do
  let first := args.headD .none
  match m with
  | .count => return .int (Int64.ofNat (← Op.countOf items first))
  | .index =>
    match ← Op.indexOf? items first with
    | some i => return .int (Int64.ofNat i)
    | none => valueError "tuple.index(x): x not in tuple"

/-- The message about a wrong number of arguments. -/
def argumentCountText (name : String) (low high got : Nat) : String :=
  if low ≠ high then s!"{name}: expected {low} to {high} arguments, got {got}"
  else if low = 1 then s!"{name}: expected 1 argument, got {got}"
  else s!"{name}: expected {low} arguments, got {got}"

/-- Calls a method of a value. -/
def callMethod (call : Callback) (fuel : Nat) (receiver : Value) (m : Method) (args : List Value)
    (keywords : List Entry) : Exec Value := do
  let s := m.signature
  let low := s.required.length
  let high := s.parameters.length
  if args.length < low || high < args.length then
    typeError (argumentCountText m.fullName low high args.length)
  if !s.takesKeywords && !keywords.isEmpty then
    typeError s!"{m.fullName}() takes no keyword arguments"
  match receiver, m with
  | .str t _, .str m => strMethod call fuel t m args
  | .list ref, .list m => listMethod call fuel ref m args keywords
  | .dict ref, .dict m => dictMethod call fuel ref m args keywords
  | .tuple items _, .tuple m => tupleMethod items m args
  | _, _ => throw .crash

end Exec

end Wordcode
