import Wordcode.Decimal.Reader
import Wordcode.Machine.MethodCall

namespace Wordcode

/-! # Calling builtins

What the builtin functions do. Each checks the number of its arguments, then its keywords, then the
arguments themselves.
-/

namespace Exec

/-- How many arguments a builtin takes. -/
structure Arity where
  low : Nat
  /-- No upper bound when missing. -/
  high? : Option Nat

/-- The number of arguments of each builtin. -/
def arityOf : Builtin → Arity
  | .abs | .all | .any | .callable | .dir | .iter | .len | .repr | .reversed | .sorted | .type =>
    ⟨1, some 1⟩
  | .bool | .dict | .float | .int | .list | .str | .tuple => ⟨0, some 1⟩
  | .enumerate | .next | .sum => ⟨1, some 2⟩
  | .filter | .isInstance => ⟨2, some 2⟩
  | .getMethod => ⟨2, some 3⟩
  | .map => ⟨2, none⟩
  | .max | .min => ⟨1, none⟩
  | .print | .zip => ⟨0, none⟩
  | .range => ⟨1, some 3⟩

/-- Checks the number of arguments. -/
def checkArity (b : Builtin) (got : Nat) : Exec Unit := do
  let ⟨low, high?⟩ := arityOf b
  if got < low || (match high? with | some high => high < got | none => false) then
    raise .arity (match high? with
      | none =>
        s!"{b.name}: expected at least {low} " ++ (if low = 1 then "argument" else "arguments") ++
          s!", got {got}"
      | some high =>
        if low = high then
          if low = 1 then s!"{b.name}: expected 1 argument, got {got}"
          else s!"{b.name}: expected {low} arguments, got {got}"
        else s!"{b.name}: expected {low}-{high} arguments, got {got}")

/-- The keywords that a builtin knows, apart from those that take any. -/
def knownKeywords : Builtin → List String
  | .print => ["sep", "end"]
  | .max | .min => ["key", "default"]
  | .enumerate => ["start"]
  | _ => []

/-- Reads keyword arguments, which must be known. -/
def readKeywords (b : Builtin) (keywords : List Entry) : Exec Bindings :=
  keywords.mapM fun e => do
    match e.key with
    | .str name _ =>
      if (knownKeywords b).contains name then return (name, e.value)
      else raise .unexpectedKeyword s!"{b.name}() got an unexpected keyword argument '{name}'"
    | _ => typeError s!"{b.name}() keywords must be strings"

/-- A keyword argument that is a text, unless it is missing or `None`. -/
def textKeyword (keywords : Bindings) (name fallback : String) : Exec String :=
  match keywords.lookup name with
  | none | some .none => return fallback
  | some (.str s _) => return s
  | some v => typeError s!"{name} must be None or a string, not {v.typeName}"

/-- An argument that must be an integer. -/
def integerArgument (v : Value) : Exec Int64 :=
  match v.int? with
  | some n => return n
  | none => typeError s!"'{v.typeName}' object cannot be interpreted as an integer"

/-- The largest or smallest item by key: a later item wins only when it is strictly better. -/
def bestOf (keyOf : Value → Exec (Option Value))
    (better : Option Value → Option Value → Exec Bool) (best : Value) (bestKey : Option Value) :
    List Value → Exec Value
  | [] => return best
  | item :: rest => do
    let key ← keyOf item
    if ← better key bestKey then bestOf keyOf better item key rest
    else bestOf keyOf better best bestKey rest

/-- The smallest or largest of some items, by the key that the keyword arguments name. -/
def extremeOf (call : Callback) (b : Builtin) (better : Option Value → Option Value → Exec Bool)
    (kw : Bindings) : List Value → Exec Value
  | [] =>
    match kw.lookup "default" with
    | some v => return v
    | none => valueError s!"{b.name}() arg is an empty sequence"
  | first :: rest =>
    match kw.lookup "key" with
    | none | some .none => bestOf (keyOf call none) better first (some first) rest
    | some f => do
      if f.isCallable then bestOf (keyOf call (some f)) better first (← call f [first]) rest
      else typeError s!"'{f.typeName}' object is not callable"

/-- The smallest or largest item. -/
def extreme (call : Callback) (fuel : Nat) (b : Builtin)
    (better : Option Value → Option Value → Exec Bool) (args : List Value)
    (keywords : List Entry) : Exec Value := do
  let kw ← readKeywords b keywords
  match args with
  | [iterable] => extremeOf call b better kw (← collect call fuel iterable)
  | _ =>
    if (kw.lookup "default").isSome then
      typeError s!"Cannot specify a default for {b.name}() with multiple positional arguments"
    else extremeOf call b better kw args

/-- Adds up the items of an iterator. -/
def sumFrom (call : Callback) : Nat → Nat → Value → Exec Value
  | 0, _, _ => throw .exhausted
  | fuel + 1, ref, total => do
    match ← next call fuel ref with
    | none => return total
    | some v => sumFrom call fuel ref (← Op.binary .add total v)

/-- Converts to an integer. -/
def toInt (v : Value) : Exec Value := do
  match v with
  | .float x _ =>
    if Elementary.isNaN x || Elementary.isInfinite x then
      valueError s!"cannot convert float {floatText x} to integer"
    else return .int (Elementary.toWord x)
  | .str s _ =>
    let text := (Text.trim Text.isBlank s.toList).filter (· ≠ '_')
    match Decimal.readInt? (String.ofList text) with
    | some n => return .int n
    | none => valueError s!"invalid literal for int() with base 10: {literalText s}"
  | _ =>
    match v.int? with
    | some n => return .int n
    | none => typeError s!"int() argument must be a string or a number, not '{v.typeName}'"

/-- Converts to a double. -/
def toFloat (v : Value) : Exec Value := do
  match v with
  | .float .. => return v
  | .str s _ =>
    match Decimal.readFloat (String.ofList (Text.trim Text.isBlank s.toList)) with
    | .value x => Op.newFloat x
    | _ => valueError s!"could not convert string to float: {literalText s}"
  | _ =>
    match v.float? with
    | some x => Op.newFloat x
    | none => typeError s!"float() argument must be a string or a number, not '{v.typeName}'"

/-- The sources of a zip. -/
def zipSources : Nat → List Value → Exec (List Nat)
  | _, [] => return []
  | i, v :: vs => do
    let source ← orError (Op.cursorOf v)
      (.raise .type s!"zip argument #{i} must support iteration")
    return source :: (← zipSources (i + 1) vs)

/-- The types that builtins construct. -/
def constructedType? : Builtin → Option String
  | .bool => some "bool"
  | .dict => some "dict"
  | .float => some "float"
  | .int => some "int"
  | .list => some "list"
  | .range => some "range"
  | .str => some "str"
  | .tuple => some "tuple"
  | _ => none

/-- Whether a type is among the given ones, each a builtin that constructs it or its name. A truth
value is also an integer. -/
def isInstance (actual : String) : List Value → Exec Bool
  | [] => return false
  | c :: cs => do
    let wanted? := match c with
      | .builtin b => constructedType? b
      | .str s _ => some s
      | _ => none
    match wanted? with
    | none => typeError "isinstance() arg 2 must be a type or tuple of types"
    | some wanted =>
      if wanted = actual || (wanted = "int" && actual = "bool") then return true
      else isInstance actual cs

/-- Calls a builtin that has passed the check of its keywords and the number of its arguments. -/
def runBuiltin (call : Callback) (fuel : Nat) (b : Builtin) (args : List Value)
    (keywords : List Entry) : Exec Value := do
  let first := args.headD .none
  let second? := args[1]?
  match b with
  | .abs =>
    match first with
    | .float x _ => Op.newFloat x.abs
    | v =>
      match v.int? with
      | some n => return .int (if n < 0 then -n else n)
      | none => typeError s!"bad operand type for abs(): '{v.typeName}'"
  | .all =>
    let ref ← Op.cursorOf first
    return .bool (!(← anyItem call (fun v => do return !(← Op.truthy v)) fuel ref))
  | .any =>
    let ref ← Op.cursorOf first
    return .bool (← anyItem call (fun v => do Op.truthy v) fuel ref)
  | .bool => return .bool (← if args.isEmpty then pure false else Op.truthy first)
  | .callable => return .bool first.isCallable
  | .dict =>
    match ← Op.newDict {} with
    | .dict ref =>
      merge call fuel ref args keywords
      return .dict ref
    | _ => throw .crash
  | .dir =>
    let names := (first.methods.map (·.signature.name)).mergeSort fun a b => decide (a ≤ b)
    Op.newList (← Op.newStrs names)
  | .enumerate =>
    let kw ← readKeywords b keywords
    let start? ← match second?, kw.lookup "start" with
      | some _, some _ =>
        raise .unexpectedKeyword "enumerate() got multiple values for argument 'start'"
      | some v, none | none, some v => pure (some v)
      | none, none => pure none
    let count ← match start? with
      | some v => integerArgument v
      | none => pure 0
    Op.newIterator (.enumerate (← Op.cursorOf first) count)
  | .filter =>
    let f? ← match first with
      | .none => pure none
      | f =>
        if f.isCallable then pure (some f)
        else typeError s!"filter() expected a callable ({f.typeName} given)"
    Op.newIterator (.filter f? (← Op.cursorOf (second?.getD .none)))
  | .float => if args.isEmpty then Op.newFloat 0 else toFloat first
  | .getMethod =>
    match second? with
    | some (.str name _) =>
      match args with
      | [v, _, fallback] => tryCatch (Op.getMethod v name) fun _ => return fallback
      | _ => Op.getMethod first name
    | _ => typeError "getattr(): attribute name must be string"
  | .int => if args.isEmpty then return .int 0 else toInt first
  | .isInstance =>
    let candidates := match second? with
      | some (.tuple items _) => items
      | some v => [v]
      | none => []
    return .bool (← isInstance first.typeName candidates)
  | .iter => Op.iterate first
  | .len => return .int (← Op.length first)
  | .list => Op.newList (← if args.isEmpty then pure [] else collect call fuel first)
  | .map =>
    if !first.isCallable then typeError s!"map() expected a callable ({first.typeName} given)"
    Op.newIterator (.map first (← zipSources 1 (args.drop 1)))
  | .max => extreme call fuel b (fun candidate best => do lessKey best candidate) args keywords
  | .min => extreme call fuel b (fun candidate best => do lessKey candidate best) args keywords
  | .next =>
    match first with
    | .iterator ref =>
      match ← next call fuel ref with
      | some v => return v
      | none =>
        match second? with
        | some fallback => return fallback
        | none => valueError "next() called on an exhausted iterator"
    | v => typeError s!"'{v.typeName}' object is not an iterator"
  | .print =>
    let kw ← readKeywords b keywords
    let sep ← textKeyword kw "sep" " "
    let stop ← textKeyword kw "end" "\n"
    let texts ← (args.mapM Op.str : Op _)
    print (String.intercalate sep texts ++ stop)
    return .none
  | .range =>
    let bounds ← args.mapM integerArgument
    let r : Range := match bounds with
      | [stop] => ⟨0, stop, 1⟩
      | [start, stop] => ⟨start, stop, 1⟩
      | start :: stop :: step :: _ => ⟨start, stop, step⟩
      | [] => ⟨0, 0, 1⟩
    if r.step = 0 then valueError "range() arg 3 must not be zero"
    Op.newRange r
  | .repr => Op.newStr (← Op.repr first)
  | .reversed =>
    match first with
    | .list _ | .tuple .. | .str .. | .range .. =>
      Op.newIterator (.items "reversed" (← collect call fuel first).reverse)
    | v => typeError s!"'{v.typeName}' object is not reversible"
  | .sorted =>
    let options ← sortOptions "sorted" keywords
    Op.newList (← sortItems call options (← collect call fuel first))
  | .str =>
    match args with
    | [] => Op.newStr ""
    | .str s id :: _ => return .str s id
    | v :: _ => Op.newStr (← Op.str v)
  | .sum =>
    let start ← match second? with
      | none => pure (.int 0)
      | some (.str ..) => typeError "sum() can't sum strings"
      | some v => pure v
    sumFrom call fuel (← Op.cursorOf first) start
  | .tuple =>
    match args with
    | [] => Op.newTuple []
    | .tuple items id :: _ => return .tuple items id
    | v :: _ => Op.newTuple (← collect call fuel v)
  | .type => Op.newStr first.typeName
  | .zip => Op.newIterator (.zip (← zipSources 1 args))

/-- Calls a builtin. -/
def callBuiltin (call : Callback) (fuel : Nat) (b : Builtin) (args : List Value)
    (keywords : List Entry) : Exec Value := do
  if !b.takesKeywords && !keywords.isEmpty then
    typeError s!"{b.name}() takes no keyword arguments"
  checkArity b args.length
  runBuiltin call fuel b args keywords

end Exec

end Wordcode
