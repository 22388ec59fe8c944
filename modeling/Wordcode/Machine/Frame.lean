import Wordcode.Assoc
import Wordcode.Machine.Iteration
import Wordcode.Machine.Stack
import Wordcode.Store.Format

namespace Wordcode

/-! # Frames

A frame is one activation of a code object: its operand stack and its variables, which are in a
scope. The variables of the main code are the globals. Calls made by an instruction go through a
function that is passed in.

* `Frame.execute` is the effect of one instruction, together with where control goes next.
-/

/-- A call of a value with positional and keyword arguments. A host callable may return nothing. -/
abbrev Invoke := Value → List Value → List Entry → Exec (Option Value)

/-- Where the variables of a frame are: among the globals, or in a scope of its own. -/
inductive Locals
  | globals
  | own (scope : Nat)
  deriving DecidableEq, Inhabited

/-- A frame. -/
structure Frame where
  code : Loaded
  locals : Locals
  stack : Stack := []
  deriving Inhabited

/-- Where control goes after an instruction. -/
inductive Flow
  | next
  | jump (offset : Nat)
  | leave (v : Value)
  deriving Inhabited

/-- Whether control is transferred to the target of a jump. -/
def Flow.isJump : Flow → Bool
  | .jump _ => true
  | .next | .leave _ => false

/-- The part of a machine that instructions use. -/
structure Surroundings where
  invoke : Invoke
  /-- Bounds the length of iterations. -/
  fuel : Nat

namespace Surroundings

/-- Calls a value. -/
def call (s : Surroundings) (f : Value) (args : List Value) (keywords : List Entry) :
    Exec Value :=
  return (← s.invoke f args keywords).getD .none

/-- The callback that lazy iterators and key functions use. -/
def callback (s : Surroundings) : Callback := fun f args => s.invoke f args []

/-- Calls a value with the keyword arguments of a mapping, if there is one. What merges them into a
dict comes to the mapping last, when merging its other argument may have changed the mapping; all
other callables read it first. -/
def callWith (s : Surroundings) (f : Value) (args : List Value) : Option Nat → Exec Value
  | none => s.call f args []
  | some mapping => do
    match f with
    | .builtin .dict =>
      let v ← s.call f args []
      match v with
      | .dict ref => Exec.update s.callback s.fuel ref (.dict mapping)
      | _ => throw .crash
      return v
    | .method (.dict ref) (.dict .update) _ =>
      let v ← s.call f args []
      Exec.update s.callback s.fuel ref (.dict mapping)
      return v
    | _ => s.call f args (← Op.entries mapping)

end Surroundings

/-- The effect of an instruction on a frame. -/
abbrev Act := StateT Frame Exec

namespace Frame

/-- The name of a code object in traces. -/
def nameOf (c : Code) (isMain : Bool) : String :=
  if c.name ≠ "" then c.name else if isMain then "<main>" else "<anonymous>"

/-- The name of the frame in traces. -/
def name (f : Frame) : String := nameOf f.code.code (f.locals = .globals)

end Frame

namespace Act

/-- Fails with a fault. -/
def raise {α : Type} (kind : Fault.Kind) (message : String) : Act α :=
  throw (.raise kind message)

/-- Something that decoding provides for the instruction at hand. -/
def provided {α : Type} : Option α → Act α
  | some a => return a
  | none => throw .crash

/-! ## The stack -/

def push (v : Value) : Act Unit := modify fun f => { f with stack := v :: f.stack }

def pushAll (vs : List Value) : Act Unit := modify fun f => { f with stack := f.stack.pushAll vs }

def pop : Act Value := do
  let f ← get
  let (v, stack) ← Exec.ofExcept f.stack.pop
  set { f with stack }
  return v

def popMany (count : Int) : Act (List Value) := do
  let f ← get
  let (vs, stack) ← Exec.ofExcept (f.stack.popMany count)
  set { f with stack }
  return vs

/-- Takes two values, the deeper one first. -/
def popTwo : Act (Value × Value) := do
  match ← popMany 2 with
  | [a, b] => return (a, b)
  | _ => throw .crash

def peek (depth : Int) : Act Value := do
  Exec.ofExcept ((← get).stack.peek depth)

/-! ## Names -/

/-- The variables of the frame. -/
def localBindings : Act Bindings := do
  match (← get).locals with
  | .own scope => (Op.scope scope : Op Bindings)
  | .globals => return (← getThe World).globals

def globals : Act Bindings := return (← getThe World).globals

def builtins : Act Bindings := return (← getThe World).builtins

def setGlobals (bs : Bindings) : Act Unit := modifyThe World fun w => { w with globals := bs }

def setVariables (bs : Bindings) : Act Unit := do
  match (← get).locals with
  | .own scope => (Op.setScope scope bs : Op Unit)
  | .globals => setGlobals bs

def undefinedName {α : Type} (name : String) : Act α :=
  raise .name s!"name '{name}' is not defined"

def unboundVariable {α : Type} (name : String) : Act α :=
  raise .unboundLocal s!"local variable '{name}' referenced before assignment"

/-- Looks a name up in the variables, then in the builtins, then in the globals. -/
def loadName (name : String) : Act Value := do
  let own? := (← localBindings).lookup name
  match own?.or (((← builtins).lookup name).or ((← globals).lookup name)) with
  | some v => return v
  | none => undefinedName name

/-- Looks a variable up. -/
def loadVariable (name : String) : Act Value := do
  match (← localBindings).lookup name with
  | some v => return v
  | none => unboundVariable name

/-- Looks a name up in the globals, then in the builtins. -/
def loadGlobal (name : String) : Act Value := do
  match ((← globals).lookup name).or ((← builtins).lookup name) with
  | some v => return v
  | none => undefinedName name

/-- Sets a variable. -/
def storeVariable (name : String) (v : Value) : Act Unit := do
  setVariables (Assoc.set (← localBindings) name v)

/-- Sets a global. -/
def storeGlobal (name : String) (v : Value) : Act Unit := do
  setGlobals (Assoc.set (← globals) name v)

/-- Removes a variable. -/
def deleteVariable (name : String) (missing : String → Act Unit) : Act Unit := do
  let vs ← localBindings
  if (vs.lookup name).isSome then setVariables (Assoc.erase vs name) else missing name

/-- Removes a global. -/
def deleteGlobal (name : String) : Act Unit := do
  let gs ← globals
  if (gs.lookup name).isSome then setGlobals (Assoc.erase gs name) else undefinedName name

/-! ## Building values -/

/-- A new dict of the given keys and values. -/
def buildDict (pairs : List (Value × Value)) : Act Unit := do
  push (← (Op.dictOfPairs pairs : Op Value))

/-- Values two by two. -/
def inPairs : List Value → List (Value × Value)
  | a :: b :: rest => (a, b) :: inPairs rest
  | _ => []

/-- The list a number of places below the value that was just taken. -/
def listAt (depth : Nat) : Act Nat := do
  match ← peek ((depth : Int) - 1) with
  | .list ref => return ref
  | v => raise .malformedCode s!"expected a list at stack depth {depth} ({v.typeName} given)"

/-- The format specification on the stack, if there is one. -/
def popSpecification (arg : Nat) : Act String := do
  if Opcode.formatsWithSpec arg then (Op.asStr (← pop) : Op String) else return ""

/-- A value under a conversion. -/
def converted (arg : Nat) (v : Value) : Act Value :=
  match Opcode.conversion arg with
  | 0 => return v
  | 1 => (do Op.newStr (← Op.str v) : Op Value)
  | 2 => (do Op.newStr (← Op.repr v) : Op Value)
  | n => raise .malformedCode s!"FORMAT_VALUE has unknown conversion {n}"

/-- A value under a conversion and a format specification. -/
def formatted (arg : Nat) : Act Value := do
  let spec ← popSpecification arg
  let v ← converted arg (← pop)
  let text ← (Op.format v spec : Op String)
  (Op.newStr text : Op Value)

/-- Takes the keys of a dict whose values are below. -/
def popKeys (count : Nat) : Act (List Value) := do
  let top ← pop
  let keys? := match top with
    | .tuple keys _ => if keys.length = count then some keys else none
    | _ => none
  match keys? with
  | some keys => return keys
  | none =>
    let given ← (Op.repr top : Op String)
    raise .malformedCode
      s!"BUILD_CONST_KEY_MAP expected a tuple of {count} keys ({given} given)"

/-- The items of an iterable that must have a certain number of them. -/
def expectItems (count : Nat) (items : List Value) : Act Unit :=
  if items.length < count then
    raise .value s!"not enough values to unpack (expected {count}, got {items.length})"
  else if count < items.length then
    raise .value s!"too many values to unpack (expected {count})"
  else return ()

/-! ## Functions -/

/-- Takes a code object. -/
def popCode : Act Code := do
  match ← pop with
  | .code c _ => return c
  | v => raise .malformedCode s!"MAKE_FUNCTION expected a code object ({v.typeName} given)"

/-- Takes the dict of keyword-only defaults, if the flags announce it, and makes a copy of it. -/
def popKeywordDefaults (flags : Nat) : Act (Option Nat) := do
  if Opcode.makesKeywordDefaults flags then
    match ← pop with
    | .dict ref => return some (← (do Op.addDict (← Op.dict ref) : Op Nat))
    | v => raise .type s!"keyword-only defaults must be a dict ({v.typeName} given)"
  else return none

/-- Takes the positional defaults, if the flags announce them. -/
def popDefaults (flags : Nat) : Act (List Value) := do
  if Opcode.makesDefaults flags then
    match ← pop with
    | .tuple items _ => return items
    | v => raise .type s!"positional defaults must be a tuple ({v.typeName} given)"
  else return []

/-- A copy of the variables as they are now. -/
def snapshot : Act Nat := do
  let vs ← localBindings
  (Op.newScope vs : Op Nat)

/-- A function from the code object on top of the stack. Below it are the keyword-only defaults and
the positional defaults, as far as the flags announce them. The function captures a copy of the
variables. -/
def makeFunction (flags : Nat) : Act Value := do
  if Opcode.makesAnnotations flags || Opcode.makesCells flags then
    let name := (← get).code.code.name
    raise .malformedCode (s!"{name}: unsupported MAKE_FUNCTION flags 0x" ++
      String.ofList (hexadecimal flags))
  else
    let code ← popCode
    let keywordDefaults? ← popKeywordDefaults flags
    let defaults ← popDefaults flags
    let captured ← snapshot
    (Op.newFunction code defaults keywordDefaults? captured : Op Value)
where
  /-- At least two hexadecimal digits. -/
  hexadecimal (n : Nat) : List Char :=
    let digits := Nat.toDigits 16 n
    if digits.length < 2 then '0' :: digits else digits

/-- Takes the mapping of keyword arguments, if the flags announce it. -/
def popMapping (flags : Nat) : Act (Option Nat) := do
  if Opcode.callsWithKeywords flags then
    match ← pop with
    | .dict ref => return some ref
    | v => raise .type s!"argument after ** must be a mapping, not {v.typeName}"
  else return none

/-- Keyword arguments from their names and values. -/
def pairKeywords (names values : List Value) : Act (List Entry) :=
  (names.zip values).foldlM (fun entries (name, v) => do
    match name with
    | .str s _ =>
      if entries.any (·.hash == .str s) then
        raise .type s!"keyword argument repeated: {s}"
      else
        return entries ++ [⟨.str s, ← (Op.newStr s : Op Value), v⟩]
    | k => raise .type s!"keywords must be strings, not {k.typeName}") []

end Act

namespace Frame

open Act

/-- Goes where a jump leads. -/
def jump (i : Instruction) : Act Flow := do
  match i.target? with
  | some target => return .jump target
  | none =>
    throw (malformed (← get).code.code.name
      s!"{i.op.name} at offset {i.offset} has no jump target")

/-- Goes on with the next instruction after pushing a value. -/
def result (v : Value) : Act Flow := do
  push v
  return .next

/-- Moves the top of the stack below the `n - 1` values under it. -/
def rotate (n : Nat) : Act Flow := do
  let vs ← popMany n
  pushAll (vs.drop (n - 1) ++ vs.take (n - 1))
  return .next

/-- The effect of an instruction. -/
def execute (s : Surroundings) (i : Instruction) : Act Flow := do
  match i.op with
  | .nop => return .next
  | .popTop =>
    let _ ← pop
    return .next
  | .rotTwo => rotate 2
  | .rotThree => rotate 3
  | .rotFour => rotate 4
  | .dupTop => result (← peek 0)
  | .dupTopTwo =>
    let second ← peek 1
    pushAll [second, ← peek 0]
    return .next
  | .unaryPositive => result (← (Op.positive (← pop) : Op Value))
  | .unaryNegative => result (← (Op.negate (← pop) : Op Value))
  | .unaryInvert => result (← (Op.invert (← pop) : Op Value))
  | .unaryNot => result (.bool !(← (Op.truthy (← pop) : Op Bool)))
  | .binaryOp =>
    let (a, b) ← popTwo
    result (← (Op.binary (← provided i.binary?) a b : Op Value))
  | .inplaceOp =>
    let (a, b) ← popTwo
    result (← (Exec.inplace s.callback s.fuel (← provided i.binary?) a b : Exec Value))
  | .compareOp =>
    let (a, b) ← popTwo
    result (.bool (← (Op.compare (← provided i.comparison?) a b : Op Bool)))
  | .isOp =>
    let (a, b) ← popTwo
    result (.bool ((← (Op.identical a b : Op Bool)) != (i.arg == 1)))
  | .containsOp =>
    let (item, container) ← popTwo
    let found ← (Exec.contains s.callback s.fuel container item : Exec Bool)
    result (.bool (found != (i.arg == 1)))
  | .binarySubscr =>
    let (container, key) ← popTwo
    result (← (Op.getItem container key : Op Value))
  | .storeSubscr =>
    match ← popMany 3 with
    | [v, container, key] =>
      (Exec.setItem s.callback s.fuel container key v : Exec Unit)
      return .next
    | _ => throw .crash
  | .deleteSubscr =>
    let (container, key) ← popTwo
    (Op.delItem container key : Op Unit)
    return .next
  | .buildTuple => result (← (Op.newTuple (← popMany i.arg) : Op Value))
  | .buildList => result (← (Op.newList (← popMany i.arg) : Op Value))
  | .buildMap =>
    buildDict (inPairs (← popMany (2 * i.arg)))
    return .next
  | .buildConstKeyMap =>
    let keys ← popKeys i.arg
    buildDict (keys.zip (← popMany i.arg))
    return .next
  | .buildString =>
    let texts ← (← popMany i.arg).mapM fun v => (Op.asStr v : Op String)
    result (← (Op.newStr (String.join texts) : Op Value))
  | .buildSlice =>
    if i.arg ≠ 2 && i.arg ≠ 3 then
      raise .malformedCode s!"BUILD_SLICE argument must be 2 or 3 (got {i.arg})"
    else
      let bounds ← popMany i.arg
      result (← (Op.newSlice (bounds.getD 0 .none) (bounds.getD 1 .none) (bounds.getD 2 .none) :
        Op Value))
  | .unpackSequence =>
    let v ← pop
    let items ← (Exec.orError (Exec.collect s.callback s.fuel v)
      (.raise .type s!"cannot unpack non-iterable {v.typeName} object") : Exec (List Value))
    expectItems i.arg items
    pushAll items.reverse
    return .next
  | .listAppend =>
    let v ← pop
    let ref ← listAt i.arg
    (do Op.setItems ref ((← Op.items ref) ++ [v]) : Op Unit)
    return .next
  | .listExtend =>
    let iterable ← pop
    let ref ← listAt i.arg
    (Exec.extend s.callback s.fuel ref iterable : Exec Unit)
    return .next
  | .formatValue => result (← formatted i.arg)
  | .loadConst => result (← provided (← get).code.constants[i.arg]?)
  | .loadName => result (← loadName (← provided i.name?))
  | .loadFast => result (← loadVariable (← provided i.name?))
  | .loadGlobal => result (← loadGlobal (← provided i.name?))
  | .storeName | .storeFast =>
    let v ← pop
    storeVariable (← provided i.name?) v
    return .next
  | .storeGlobal =>
    let v ← pop
    storeGlobal (← provided i.name?) v
    return .next
  | .deleteName =>
    deleteVariable (← provided i.name?) undefinedName
    return .next
  | .deleteFast =>
    deleteVariable (← provided i.name?) unboundVariable
    return .next
  | .deleteGlobal =>
    deleteGlobal (← provided i.name?)
    return .next
  | .jumpForward | .jumpAbsolute => jump i
  | .popJumpIfTrue => if ← (Op.truthy (← pop) : Op Bool) then jump i else return .next
  | .popJumpIfFalse => if ← (Op.truthy (← pop) : Op Bool) then return .next else jump i
  | .jumpIfTrueOrPop =>
    if ← (Op.truthy (← peek 0) : Op Bool) then jump i
    else
      let _ ← pop
      return .next
  | .jumpIfFalseOrPop =>
    if ← (Op.truthy (← peek 0) : Op Bool) then
      let _ ← pop
      return .next
    else jump i
  | .getIter => result (← (Op.iterate (← pop) : Op Value))
  | .forIter =>
    match ← peek 0 with
    | .iterator ref =>
      match ← (Exec.next s.callback s.fuel ref : Exec (Option Value)) with
      | some v => result v
      | none =>
        let _ ← pop
        jump i
    | v => raise .type s!"'{v.typeName}' object is not an iterator"
  | .returnValue => return .leave (← pop)
  | .makeFunction => result (← makeFunction i.arg)
  | .callFunction | .callMethod =>
    let args ← popMany i.arg
    let f ← pop
    result (← (s.call f args [] : Exec Value))
  | .callFunctionKw =>
    match ← pop with
    | .tuple names _ =>
      if i.arg < names.length then
        raise .malformedCode
          s!"CALL_FUNCTION_KW has {names.length} keyword names for {i.arg} arguments"
      else
        let values ← popMany i.arg
        let f ← pop
        let split := i.arg - names.length
        let keywords ← pairKeywords names (values.drop split)
        result (← (s.call f (values.take split) keywords : Exec Value))
    | v =>
      raise .malformedCode
        s!"CALL_FUNCTION_KW expected a tuple of keyword names ({v.typeName} given)"
  | .callFunctionEx =>
    let mapping? ← popMapping i.arg
    let iterable ← pop
    let args ← (Exec.orError (Exec.collect s.callback s.fuel iterable)
      (.raise .type s!"argument after * must be an iterable, not {iterable.typeName}") :
      Exec (List Value))
    let f ← pop
    result (← (s.callWith f args mapping? : Exec Value))
  | .loadMethod =>
    let receiver ← pop
    result (← (Op.getMethod receiver (← provided i.name?) : Op Value))
  | .extendedArg =>
    throw (malformed (← get).code.code.name s!"no handler for {i.op.name}")

end Frame

end Wordcode
