import Wordcode.Dict

namespace Wordcode

/-! # The store

What lists, dicts, iterators and functions refer to, the variables of frames, and the supply of
identities. Operations on values run in `Op`: they may change the store and may fail, and a failed
operation leaves the changes it made before.

* `Op.newList`, `Op.newDict`, `Op.newIterator` and `Op.newFunction` extend the store.
* `Op.items`, `Op.dict`, `Op.iterator` and `Op.closure` look a reference up.
-/

/-- Where an iterator stands. Iterators over iterators refer to their sources. -/
inductive Cursor
  /-- The items still to come, under the name of what they come from. -/
  | items (kind : String) (rest : List Value)
  | chars (rest : List Char)
  /-- A list, which may still change, and the position in it. -/
  | list (ref position : Nat)
  | range (r : Range) (position length : Int64)
  /-- The keys of a dict, the position and the size that the dict must keep. -/
  | keys (ref position size : Nat)
  | enumerate (source : Nat) (count : Int64)
  | zip (sources : List Nat)
  | map (f : Value) (sources : List Nat)
  /-- A filter; without a function the items themselves decide. -/
  | filter (f? : Option Value) (source : Nat)
  deriving Inhabited

/-- The name under which an iterator is shown. -/
def Cursor.kind : Cursor → String
  | items kind _ => kind
  | chars _ => "str_iterator"
  | list .. => "list_iterator"
  | range .. => "range_iterator"
  | keys .. => "dict_keyiterator"
  | enumerate .. => "enumerate"
  | zip _ => "zip"
  | map .. => "map"
  | filter .. => "filter"

/-- An iterator: where it stands, and whether it has come to its end, which is final. -/
structure Iteration where
  cursor : Cursor
  done : Bool := false
  deriving Inhabited

/-- A function made from a code object. -/
structure Function where
  code : Code
  /-- Defaults of the last positional parameters. -/
  defaults : List Value := []
  /-- The dict with the defaults of keyword-only parameters. -/
  keywordDefaults : Nat
  /-- The scope with the variables of the frame that made the function. -/
  snapshot : Nat
  deriving Inhabited

/-- What a function is called with besides arguments. -/
structure Closure where
  code : Code
  defaults : List Value := []
  keywordDefaults : List Entry := []
  snapshot : Bindings := []
  deriving Inhabited

/-- The memory in which a list has been sorted: the items of the list, unless it has moved to other
memory since, and the cells behind them. -/
structure Block where
  list? : Option Nat := none
  rest : List Value := []
  deriving Inhabited

/-- The contents of all references, and the next identity. -/
structure Store where
  lists : Array (List Value) := #[]
  dicts : Array Dict := #[]
  iterators : Array Iteration := #[]
  functions : Array Function := #[]
  /-- The variables of frames, and those that functions have captured. -/
  scopes : Array Bindings := #[]
  /-- Where lists have been sorted. -/
  blocks : Array Block := #[]
  nextId : Nat := 0
  deriving Inhabited

/-- The number of bytes that the memory behind one value can have. -/
def maxMemory : Nat := 281474976710656

/-- An operation on values. -/
abbrev Op := EStateM Failure Store

namespace Store

/-- The items of a list. -/
def items (s : Store) (ref : Nat) : List Value := s.lists.getD ref []

/-- A dict. -/
def dict (s : Store) (ref : Nat) : Dict := s.dicts.getD ref {}

/-- The entries of a dict, in the order of insertion. -/
def entries (s : Store) (ref : Nat) : List Entry := (s.dict ref).entries

/-- An iterator. -/
def iterator (s : Store) (ref : Nat) : Iteration :=
  s.iterators.getD ref { cursor := .chars [], done := true }

/-- A function. -/
def function (s : Store) (ref : Nat) : Function := s.functions.getD ref default

/-- Variables. -/
def scope (s : Store) (ref : Nat) : Bindings := s.scopes.getD ref []

/-- What a function holds. -/
def closure (s : Store) (ref : Nat) : Closure :=
  let f := s.function ref
  { code := f.code, defaults := f.defaults
    keywordDefaults := s.entries f.keywordDefaults, snapshot := s.scope f.snapshot }

/-- What is in the cells of a block. -/
def cells (s : Store) (b : Block) : List Value := (b.list?.map s.items).getD [] ++ b.rest

/-- A block whose list has moved elsewhere. -/
def vacate (s : Store) (ref : Nat) (b : Block) : Block :=
  if b.list? = some ref then { rest := s.cells b } else b

/-- A block whose list is about to get other items. A list with too many items moves elsewhere. -/
def makeRoom (s : Store) (ref count : Nat) (b : Block) : Block :=
  if b.list? = some ref ∧ count ≤ (s.cells b).length then
    { b with rest := (s.cells b).drop count }
  else s.vacate ref b

/-- The number of references that a path through the store can visit without repetition. -/
def size (s : Store) : Nat := s.lists.size + s.dicts.size

end Store

namespace Op

/-- Fails with a fault. -/
def raise {α : Type} (kind : Fault.Kind) (message : String) : Op α :=
  throw (.raise kind message)

def typeError {α : Type} (message : String) : Op α := raise .type message
def valueError {α : Type} (message : String) : Op α := raise .value message

/-- An operation that does not touch the store. -/
def ofExcept {α : Type} : Except Failure α → Op α
  | .ok a => pure a
  | .error e => throw e

/-- A fresh identity. -/
def fresh : Op Nat := modifyGet fun s => (s.nextId, { s with nextId := s.nextId + 1 })

def newFloat (x : Float) : Op Value := return .float x (← fresh)
def newStr (text : String) : Op Value := return .str text (← fresh)
def newTuple (items : List Value) : Op Value := return .tuple items (← fresh)
def newRange (r : Range) : Op Value := return .range r (← fresh)
def newSlice (start stop step : Value) : Op Value := return .slice start stop step (← fresh)
def newMethod (receiver : Value) (m : Method) : Op Value := return .method receiver m (← fresh)
def newCode (c : Code) : Op Value := return .code c (← fresh)

def newList (items : List Value) : Op Value :=
  modifyGet fun s => (.list s.lists.size, { s with lists := s.lists.push items })

/-- Extends the store by a dict and returns its reference. -/
def addDict (d : Dict) : Op Nat :=
  modifyGet fun s => (s.dicts.size, { s with dicts := s.dicts.push d })

def newDict (d : Dict) : Op Value := return .dict (← addDict d)

/-- Extends the store by an iterator and returns its reference. -/
def newCursor (cursor : Cursor) : Op Nat :=
  modifyGet fun s => (s.iterators.size, { s with iterators := s.iterators.push { cursor } })

def newIterator (cursor : Cursor) : Op Value := return .iterator (← newCursor cursor)

/-- Extends the store by a scope and returns its reference. -/
def newScope (vs : Bindings) : Op Nat :=
  modifyGet fun s => (s.scopes.size, { s with scopes := s.scopes.push vs })

/-- A new function. The dict of keyword-only defaults and the scope become its own. -/
def newFunction (code : Code) (defaults : List Value) (keywordDefaults? : Option Nat)
    (snapshot : Nat) : Op Value := do
  let keywordDefaults ← keywordDefaults?.elim (addDict {}) pure
  modifyGet fun s =>
    (.function s.functions.size,
      { s with functions := s.functions.push ⟨code, defaults, keywordDefaults, snapshot⟩ })

def items (ref : Nat) : Op (List Value) := return (← get).items ref
def dict (ref : Nat) : Op Dict := return (← get).dict ref
def entries (ref : Nat) : Op (List Entry) := return (← get).entries ref
def iterator (ref : Nat) : Op Iteration := return (← get).iterator ref
def scope (ref : Nat) : Op Bindings := return (← get).scope ref
def closure (ref : Nat) : Op Closure := return (← get).closure ref

/-- Changes the items of a list, in place if there is room. -/
def setItems (ref : Nat) (items : List Value) : Op Unit :=
  modify fun s => { s with
    lists := s.lists.setIfInBounds ref items
    blocks := s.blocks.map (s.makeRoom ref items.length) }

/-- Gives a list items in new memory. -/
def moveItems (ref : Nat) (items : List Value) : Op Unit :=
  modify fun s => { s with
    lists := s.lists.setIfInBounds ref items
    blocks := s.blocks.map (s.vacate ref) }

def setDict (ref : Nat) (d : Dict) : Op Unit :=
  modify fun s => { s with dicts := s.dicts.setIfInBounds ref d }

def setScope (ref : Nat) (vs : Bindings) : Op Unit :=
  modify fun s => { s with scopes := s.scopes.setIfInBounds ref vs }

/-- Moves an iterator. -/
def setCursor (ref : Nat) (cursor : Cursor) : Op Unit :=
  modify fun s => { s with iterators := s.iterators.modify ref ({ · with cursor }) }

/-- Marks an iterator as exhausted. -/
def setDone (ref : Nat) : Op Unit :=
  modify fun s => { s with iterators := s.iterators.modify ref ({ · with done := true }) }

/-! ## Memory -/

/-- The block in which the items of a list are. -/
def blockOf (ref : Nat) : Op Nat :=
  modifyGet fun s =>
    match s.blocks.toList.findIdx? (·.list? == some ref) with
    | some block => (block, s)
    | none => (s.blocks.size, { s with blocks := s.blocks.push { list? := some ref } })

/-- What is in the cells of a block. -/
def cells (block : Nat) : Op (List Value) := do
  let s ← get
  return s.cells (s.blocks.getD block {})

/-- Fills the first cells of a block, which changes the list whose items are there. -/
def setCells (block : Nat) (values : List Value) : Op Unit :=
  modify fun s =>
    let b := s.blocks.getD block {}
    let cells := values ++ (s.cells b).drop values.length
    match b.list? with
    | some ref =>
      let count := (s.items ref).length
      { s with
        lists := s.lists.setIfInBounds ref (cells.take count)
        blocks := s.blocks.setIfInBounds block { b with rest := cells.drop count } }
    | none => { s with blocks := s.blocks.setIfInBounds block { b with rest := cells } }

/-- Makes one value after another. -/
def newStrs (texts : List String) : Op (List Value) := texts.mapM newStr

end Op

end Wordcode
