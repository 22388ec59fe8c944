import Wordcode.Assembly
import Wordcode.Store.Convert
import Wordcode.Yaml.Decode

namespace Wordcode

/-! # Source files

A readable description of a code object, written in YAML. Arguments are symbolic: constants stand
for themselves, names and variables are written out, jumps name labels, and operators are symbols.

* `Source.parse` reads the description.
* `Source.assemble` builds the code object, nested functions first.
-/

/-- What a line of a source says. -/
inductive Source.Action
  | label (name : String)
  /-- An instruction, by the name of its opcode. -/
  | instruction (op : String) (arg? : Option Datum)
  deriving Inhabited

/-- A line of a source. -/
structure Source.Step where
  line : Int
  action : Source.Action
  deriving Inhabited

/-- The parts of a source apart from its nested functions. -/
structure Source.Body where
  name : String := ""
  file : String := ""
  parameters : Assembly.Parameters := {}
  locals : List String := []
  steps : List Source.Step := []
  deriving Inhabited

/-- A source. The functions are those that constants can refer to, in the order of their names; one
may have been left empty. -/
inductive Source
  | mk (body : Source.Body) (functions : List (String × Option Source))
  deriving Inhabited

namespace Source

/-- An empty source. -/
def empty : Source := .mk {} []

/-! ## Decoding -/

open Yaml (Node Decoder)

/-- A text that may be left out. -/
def textOn (n : Node) : Decoder String := do return (← Decoder.on n Decoder.text).getD ""

/-- A sequence of texts; nulls are left out. -/
def textsOn (n : Node) : Decoder (List String) :=
  Decoder.on n fun n => Decoder.items n Decoder.text

/-- Reads the parameters. -/
def parameters (fuel : Nat) (n : Node) : Decoder (Option Assembly.Parameters) :=
  let slot (s : String) := if s = "" then none else some s
  let known := ["posonly", "args", "kwonly", "varargs", "varkw"]
  let r := Decoder.named known (Decoder.datum fuel) fun name v (p : Assembly.Parameters) => do
    match name with
    | "posonly" => return { p with positionalOnly := ← textsOn v }
    | "args" => return { p with positional := ← textsOn v }
    | "kwonly" => return { p with keywordOnly := ← textsOn v }
    | "varargs" => return { p with rest? := slot (← textOn v) }
    | _ => return { p with keywords? := slot (← textOn v) }
  Decoder.entries r fuel {} n

/-! ### Lines -/

/-- Refuses a line of a source. -/
def refuseLine {α : Type} (n : Node) (message : String) : Decoder α :=
  throw (.plain s!"line {n.line}: {message}")

/-- Reads the label that a mapping places. -/
def label (fuel : Nat) (n : Node) : Decoder (Option String) := do
  let r := Decoder.named ["label"] (Decoder.datum fuel) fun _ v (l : String) => do
    return (← Decoder.on v Decoder.text).getD l
  let some l? ← Decoder.apart (Decoder.on n (Decoder.entries r fuel "")) | return none
  if l?.getD "" = "" then refuseLine n "expected a label"
  return l?

/-- A line of a source that is given part by part. -/
structure Draft where
  op : String := ""
  arg : Datum := .null
  hasArg : Bool := false
  label : String := ""
  line : Int := 0
  deriving Inhabited

/-- The line that a draft describes. -/
def Draft.step (d : Draft) : Step :=
  ⟨d.line, if d.label ≠ "" then .label d.label
    else .instruction d.op (if d.hasArg then some d.arg else none)⟩

/-- Reads a mapping that is tagged as null, which gives the parts of a line. One that it merges
without such a tag places a label. -/
def draft (fuel : Nat) (n : Node) : Decoder (Option Draft) :=
  let any := Decoder.datum fuel
  let r := Decoder.named ["op", "arg", "hasarg", "label", "line"] any fun name v (d : Draft) => do
    match name with
    | "op" => return { d with op := (← Decoder.on v Decoder.text).getD d.op }
    | "arg" => return { d with arg := (← Decoder.on v any).getD d.arg }
    | "hasarg" => return { d with hasArg := (← Decoder.on v Decoder.truth).getD d.hasArg }
    | "label" => return { d with label := (← Decoder.on v Decoder.text).getD d.label }
    | _ => return { d with line := (← Decoder.on v Decoder.word).getD d.line }
  let merged? (m : Node) : Option (Draft → Decoder Draft) :=
    if m.isNull then none
    else some fun d => do
      return { d with line := m.line, label := (← label fuel m).getD d.label }
  Decoder.entries { r with merged? } fuel {} n

/-- Reads a line of a source. Null is no line. -/
def step (fuel : Nat) (n : Node) : Decoder (Option Step) := do
  if n.isNull then return (← draft fuel n).map Draft.step
  match n with
  | .scalar .. =>
    let op? ← Decoder.apart (textOn n)
    return op?.map fun op => ⟨n.line, .instruction op none⟩
  | .sequence _ _ [op] =>
    let op? ← Decoder.apart (textOn op)
    return op?.map fun op => ⟨n.line, .instruction op none⟩
  | .sequence _ _ [op, arg] =>
    let some op ← Decoder.apart (textOn op) | return none
    let arg? ← Decoder.apart (Decoder.on arg (Decoder.datum fuel))
    return arg?.map fun arg => ⟨n.line, .instruction op (some (arg.getD .null))⟩
  | .sequence .. => refuseLine n "expected [OPNAME] or [OPNAME, arg]"
  | _ => return (← label fuel n).map fun l => ⟨n.line, .label l⟩

/-! ### Sources -/

/-- Reads a nested function; null leaves it empty. -/
def function (source : Node → Decoder (Option Source)) (n : Node) :
    Decoder (Option (Option Source)) := do
  if !n.isNull then return (← source n).map some
  match n with
  | .scalar _ tag? style text =>
    let _ ← Decoder.scalar tag? style text
    return some none
  | _ => Decoder.unfit n "mapping"

/-- Reads a source that is nested at most so many levels deep. -/
def source : Nat → Node → Decoder (Option Source)
  | 0, _ => Decoder.fail "document is nested too deeply"
  | fuel + 1, n => do
    let any := Decoder.datum fuel
    let known := ["name", "filename", "params", "locals", "code", "functions"]
    let r := Decoder.named known any fun name v (body, functions) => do
      match name with
      | "name" => return ({ body with name := ← textOn v }, functions)
      | "filename" => return ({ body with file := ← textOn v }, functions)
      | "params" =>
        let p? ← Decoder.on v (parameters fuel)
        return ({ body with parameters := p?.getD {} }, functions)
      | "locals" => return ({ body with locals := ← textsOn v }, functions)
      | "code" =>
        let steps ← Decoder.on v fun n => Decoder.items n (step fuel)
        return ({ body with steps }, functions)
      | _ =>
        let functionEntries := Decoder.textKeyed any (function (source fuel))
        let functions? ← Decoder.on v (Decoder.entries functionEntries fuel [])
        return (body, functions?.getD [])
    let start : Body × List (String × Option Source) := ({}, [])
    let result? ← Decoder.entries r fuel start n
    return result?.map fun (body, functions) => .mk body (Assoc.sort functions)

/-- What errors about unreadable sources start with. -/
def unreadableLabel : String := "bytecode: parse listing"

/-- Reads a source. -/
def parse (bytes : List UInt8) : Except Failure Source :=
  match Yaml.decode bytes source with
  | .ok source? => .ok (source?.getD empty)
  | .error e => .error (if e.isError then .within unreadableLabel e else e)

/-! ## Assembling -/

/-- A name in double quotes, as messages show it. -/
def quotedName : Datum → String
  | .stray _ s => Text.quotedStray s
  | d => Text.quoted d.text

mutual

/-- The constant that a datum stands for. A mapping with the one key `func` refers to a function. -/
def constOf (functions : List (String × Code)) : Datum → Except String Const
  | .null => .ok .none
  | .bool _ b => .ok (.bool b)
  | .str _ s => .ok (.str s)
  | .stray _ s => .ok (.stray s)
  | .float _ x => .ok (.ofFloat x)
  | .list _ items => do return .tuple (← constsOf functions items)
  | .record _ [("func", d)] =>
    match d.name? with
    | some name =>
      match functions.lookup name with
      | some c => .ok (.code c)
      | none => .error ("undefined function " ++ quotedName d)
    | none => .error "constant mapping must be \x7bfunc: name\x7d"
  | .record .. => .error "constant mapping must be \x7bfunc: name\x7d"
  | d =>
    match d with
    | .int "int" n => .ok (.int (Int64.ofInt n))
    | _ => .error s!"unsupported constant {d.text} ({d.type})"

/-- The constants that data stand for. -/
def constsOf (functions : List (String × Code)) : List Datum → Except String (List Const)
  | [] => .ok []
  | d :: ds => do return (← constOf functions d) :: (← constsOf functions ds)

end

/-- The number of an operator that is written as a symbol or as its number. -/
def operatorOf (what : String) (ofSymbol : String → Option Nat) (ofNumber : Nat → Option Nat)
    (d : Datum) : Except String Nat :=
  match d with
  | .str _ s =>
    match ofSymbol s with
    | some n => .ok n
    | none => .error (s!"unknown {what} operator " ++ quotedName d)
  | .stray .. => .error (s!"unknown {what} operator " ++ quotedName d)
  | .int "int" n =>
    match if 0 < n && n < operatorSpace then ofNumber n.toNat else none with
    | some n => .ok n
    | none => .error s!"unknown {what} operator {n}"
  | _ => .error s!"unknown {what} operator {d.text}"

/-- What an instruction asks an assembly for. -/
def requestOf (functions : List (String × Code)) (opName : String) (arg? : Option Datum) :
    Except String Assembly.Request := do
  match Opcode.ofName? opName with
  | none => throw ("unknown opcode " ++ Text.quoted opName)
  | some op =>
    if op.argKind = .none then
      if arg?.isSome then throw (op.name ++ " takes no argument")
      return .emit op.number 0
    let some arg := arg? | throw (op.name ++ " requires an argument")
    let named (what : String) : Except String String :=
      match arg.name? with
      | some s => .ok s
      | none => .error (op.name ++ " expects " ++ what)
    match op.argKind with
    | .const => return .loadConst (← constOf functions arg)
    | .name => return .emitName op.number (← named "a name")
    | .slot => return .emitSlot op.number (← named "a variable name")
    | .jumpAbsolute | .jumpRelative => return .jump op.number (← named "a label")
    | .binaryOperator =>
      let n ← operatorOf "binary" (fun s => (BinaryOperator.ofSymbol? s).map (·.number))
        (fun n => (BinaryOperator.ofNumber? n).map (·.number)) arg
      return .emit op.number n
    | .comparison =>
      let n ← operatorOf "comparison" (fun s => (Comparison.ofSymbol? s).map (·.number))
        (fun n => (Comparison.ofNumber? n).map (·.number)) arg
      return .emit op.number n
    | _ =>
      match arg with
      | .int "int" n => return .emit op.number n
      | _ => throw (op.name ++ " expects an integer argument")

/-- The assembly of a body. -/
def assembly (b : Body) (name file : String) (functions : List (String × Code)) :
    Except Failure Assembly :=
  let start := ({ name, file : Assembly }).performAll
    (.parameters b.parameters :: b.locals.map .slot)
  b.steps.foldlM (fun a s => do
    match s.action with
    | .label l => return a.place l
    | .instruction op arg? =>
      match requestOf functions op arg? with
      | .ok r => return (a.perform r).1
      | .error e => throw (.plain s!"bytecode: {name}: line {s.line}: {e}")) start

mutual

/-- Builds the code object of a source under the name and the file it has unless it says otherwise.
The nested functions are built first. -/
def assemble (name file : String) : Source → Build Code
  | .mk b functions => do
    let name := if b.name = "" then name else b.name
    let file := if b.file = "" then file else b.file
    let codes ← assembleAll file functions
    let a ← assembly b name file codes
    a.assemble (← Build.serial)

/-- Builds functions one after another. -/
def assembleAll (file : String) : List (String × Option Source) → Build (List (String × Code))
  | [] => return []
  | (name, none) :: _ =>
    throw (.plain ("bytecode: function " ++ Text.quoted name ++ " is empty"))
  | (name, some source) :: rest => do
    let code ← assemble name file source
    return (name, code) :: (← assembleAll file rest)

end

end Source

/-- The code object that a source text describes. -/
def Code.ofSource (bytes : List UInt8) (file : String) : Build Code := do
  (← Source.parse bytes).assemble "<module>" file

end Wordcode
