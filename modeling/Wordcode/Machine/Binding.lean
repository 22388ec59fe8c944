import Wordcode.Assoc
import Wordcode.Store.Equality

namespace Wordcode

/-! # Binding arguments

The arguments of a call are distributed over the parameters of the code object. Positional arguments
fill the positional parameters in order. What is left of these is filled by keyword arguments, which
never reach a positional-only parameter, and then by defaults, which belong to the last positional
parameters. Keyword-only parameters take keyword arguments and their own defaults. Arguments in
excess go to the collecting slots, if there are any.

* `Call.plan` says which variable gets what, or which rule the call breaks.
* `Call.bind` makes the variables of the new frame from it, and `Call.makeScope` a scope of its own
  for them.
-/

/-- What a variable is bound to. -/
inductive Slot
  | value (v : Value)
  /-- A new tuple of excess positional arguments. -/
  | rest (vs : List Value)
  /-- A new dict of excess keyword arguments. -/
  | keywords (es : Bindings)
  deriving Inhabited

/-- A call of a function. -/
structure Call where
  function : Closure
  arguments : List Value
  keywords : List Entry
  deriving Inhabited

namespace Call

/-- The keyword arguments by name. -/
def namedArguments (c : Call) : Except Failure Bindings :=
  c.keywords.mapM fun e =>
    match e.key with
    | .str name _ => .ok (name, e.value)
    | k => .error (.raise .type s!"keywords must be strings, not {k.typeName}")

/-- Variables bound so far, and keyword arguments not used yet. -/
structure Progress where
  bound : List (String × Slot)
  unused : Bindings

/-- Binds a variable. -/
def Progress.bind (p : Progress) (name : String) (slot : Slot) : Progress :=
  { p with bound := Assoc.set p.bound name slot }

/-- Binds a variable to the keyword argument of its name, if there is one. -/
def Progress.take? (p : Progress) (name : String) : Option Progress :=
  (p.unused.lookup name).map fun v =>
    { (p.bind name (.value v)) with unused := Assoc.erase p.unused name }

/-- A parameter, and where its argument comes from when no positional argument fills it. -/
structure Opening where
  name : String
  /-- Whether a keyword argument may fill it. -/
  byKeyword : Bool
  default? : Option Value
  /-- The error about a missing argument. -/
  missing : Failure

/-- Fills a parameter with the keyword argument of its name or else with its default. -/
def Progress.fill (p : Progress) (o : Opening) : Except Failure Progress :=
  match if o.byKeyword then p.take? o.name else none with
  | some p => .ok p
  | none =>
    match o.default? with
    | some v => .ok (p.bind o.name (.value v))
    | none => .error o.missing

/-- Fills a parameter unless that has been done. -/
def Progress.fillOpen (p : Progress) (o : Opening) : Except Failure Progress :=
  if (p.bound.lookup o.name).isSome then .ok p else p.fill o

/-- A positional parameter. Defaults belong to the last of them. -/
def positionalOpening (c : Call) (names : Code.ParameterNames) (name : String) (i : Nat) :
    Opening :=
  let defaults := c.function.defaults
  let firstDefault := names.anyPositional.length - defaults.length
  { name
    byKeyword := names.positionalOnly.length ≤ i
    default? := if firstDefault ≤ i then defaults[i - firstDefault]? else none
    missing := .raise .missingArgument
      s!"{c.function.code.name}() missing required argument: '{name}'" }

/-- The positional parameters. -/
def positionalOpenings (c : Call) (names : Code.ParameterNames) : List Opening :=
  names.anyPositional.zipIdx.map fun (name, i) => c.positionalOpening names name i

/-- A keyword-only parameter. -/
def keywordOpening (c : Call) (name : String) : Opening where
  name := name
  byKeyword := true
  default? := Entry.find? c.function.keywordDefaults (.str name)
  missing := .raise .missingArgument
    s!"{c.function.code.name}() missing required keyword-only argument: '{name}'"

/-- The keyword-only parameters. -/
def keywordOpenings (c : Call) (names : Code.ParameterNames) : List Opening :=
  names.keywordOnly.map c.keywordOpening

/-- The message about too many positional arguments. -/
def excessText (function : String) (takes got : Nat) : String :=
  s!"{function}() takes {takes} positional argument" ++ (if takes = 1 then "" else "s") ++
    s!" but {got} " ++ (if got = 1 then "was" else "were") ++ " given"

/-- The error about too many positional arguments. -/
def excess (c : Call) (names : Code.ParameterNames) : Failure :=
  .raise .arity (excessText c.function.code.name names.anyPositional.length c.arguments.length)

/-- The error about more defaults than parameters. -/
def excessDefaults (c : Call) (names : Code.ParameterNames) : Failure :=
  .raise .malformedCode
    (s!"{c.function.code.name}() has {c.function.defaults.length} defaults for " ++
      s!"{names.anyPositional.length} positional parameters")

/-- The error about a keyword argument that no parameter takes. -/
def unexpected (c : Call) (names : Code.ParameterNames) (key : String) : Failure :=
  .raise .unexpectedKeyword <|
    if names.positional.contains key then
      s!"{c.function.code.name}() got multiple values for argument '{key}'"
    else s!"{c.function.code.name}() got an unexpected keyword argument '{key}'"

/-- What positional arguments bind: their parameters. -/
def direct (c : Call) (names : Code.ParameterNames) : List (String × Slot) :=
  Assoc.setAll [] ((names.anyPositional.zip c.arguments).map fun (name, v) => (name, .value v))

/-- What positional arguments bind, the slot for those in excess included. -/
def collected (c : Call) (names : Code.ParameterNames) (rest? : Option String) :
    List (String × Slot) :=
  match rest? with
  | some name =>
    Assoc.set (c.direct names) name (.rest (c.arguments.drop names.anyPositional.length))
  | none => c.direct names

/-- Disposes of the keyword arguments that no parameter takes. -/
def settle (c : Call) (names : Code.ParameterNames) (keywords? : Option String) (p : Progress) :
    Except Failure (List (String × Slot)) :=
  match keywords? with
  | some name => .ok (p.bind name (.keywords p.unused)).bound
  | none =>
    match p.unused with
    | [] => .ok p.bound
    | (key, _) :: _ => .error (c.unexpected names key)

/-- Which variable a call binds to what. -/
def plan (c : Call) : Except Failure (List (String × Slot)) := do
  let code := c.function.code
  let names ← code.parameterNames
  let unused ← c.namedArguments
  if c.function.defaults.length > names.anyPositional.length then
    throw (c.excessDefaults names)
  if c.arguments.length > names.anyPositional.length && !code.hasRest then
    throw (c.excess names)
  let bound := c.collected names (← code.restName)
  let filled ← (c.positionalOpenings names).foldlM Progress.fillOpen { bound, unused }
  let all ← (c.keywordOpenings names).foldlM Progress.fill filled
  c.settle names (← code.keywordsName) all

end Call

/-- The value for a slot; collected arguments become a new tuple or dict. -/
def Slot.toValue : Slot → Op Value
  | value v => return v
  | rest vs => Op.newTuple vs
  | keywords es => do
    Op.newDict (← es.foldlM (fun d (name, v) => return d.set (.str name) (← Op.newStr name) v) {})

/-- The variables of a new frame: those that the function has captured, overridden by the bound
ones. -/
def Call.bind (c : Call) : Op Bindings := do
  let bound ← (← Op.ofExcept c.plan).mapM fun (name, slot) => return (name, ← slot.toValue)
  return Assoc.setAll c.function.snapshot bound

/-- The scope of a new frame. -/
def Call.makeScope (c : Call) : Op Nat := do Op.newScope (← c.bind)

end Wordcode
