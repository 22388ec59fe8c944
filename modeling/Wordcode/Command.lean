import Wordcode.Artifact.Binary
import Wordcode.Command.Settings
import Wordcode.Command.Subcommand
import Wordcode.Command.Trace
import Wordcode.Disassembly
import Wordcode.Document
import Wordcode.Machine
import Wordcode.Source

namespace Wordcode.Command

/-! # The command line

What each subcommand does. A command works on a session: it reads and writes files, and adds to the
printed text and to the text on the error channel. A command that fails leaves the session as far as
it came.

* `execute` runs a command line.
-/

/-- What a command sees and changes. -/
structure Session where
  files : Files := {}
  /-- Where settings come from. -/
  sources : Sources := {}
  /-- Whether the texts may be coloured; a setting of the command can switch this off. -/
  color : Bool := false
  /-- The next serial number of a code object. -/
  serial : Nat := 0
  /-- The printed text. -/
  output : String := ""
  /-- The text on the error channel. -/
  notes : String := ""
  deriving Inhabited

/-- A computation on a session. -/
abbrev Shell := EStateM Failure Session

namespace Shell

/-- An operation that does not touch the session. -/
def ofExcept {α : Type} : Except Failure α → Shell α
  | .ok a => pure a
  | .error e => throw e

/-- Fails with a text. -/
def fail {α : Type} (text : String) : Shell α := throw (.plain text)

/-- Prints a text. -/
def print (text : String) : Shell Unit :=
  modify fun s => { s with output := s.output ++ text }

/-- Prints a line. -/
def printLine (text : String) : Shell Unit := print (text ++ "\n")

/-- Builds a code object. -/
def build {α : Type} (x : Build α) : Shell α := do
  match x.run (← get).serial with
  | .ok (a, serial) =>
    modify fun s => { s with serial }
    return a
  | .error e => throw e

/-- Runs a computation of a machine. What it prints is printed, and the events it reports are noted,
also if it fails. -/
def ofExec {α : Type} (x : Exec α) (w : World) : Shell (α × World) := do
  let color := (← get).color
  let keep (w : World) : Shell Unit := modify fun s => { s with
    output := s.output ++ w.output
    notes := s.notes ++ String.join (w.events.toList.map (Event.traceLine color)) }
  match x w with
  | .ok a w =>
    keep w
    return (a, w)
  | .error e w =>
    keep w
    throw e

end Shell

/-! ## Code files -/

/-- The extensions of source files. -/
def sourceExtensions : List String := [".yaml", ".yml"]

/-- Reads a code object from a source file or an artifact; the extension decides. -/
def loadCode (path : String) : Shell Code := do
  let bytes ← Shell.ofExcept ((← get).files.read path)
  let extension := lowerCase (Path.extension path)
  if sourceExtensions.contains extension then Shell.build (Code.ofSource bytes path)
  else if extension = ".cbor" then Shell.build (Code.ofArtifact Artifact.binary bytes)
  else Shell.fail s!"unsupported file type: {path} (expected .yaml, .yml or .cbor)"

/-- A code object and everything nested in it. -/
def flatten (c : Code) : Shell (List Code) :=
  match Code.flatten c with
  | some codes => return codes
  | none => throw .crash

/-! ## Running -/

/-- The value of a global as it is written on a command line. -/
def readGlobal (text : String) : Except Failure Datum := do
  return (← Yaml.decode text.toUTF8.toList Yaml.Decoder.datum).getD .null

/-- The globals that assignments define, in the order of their names; a later one replaces an
earlier one. -/
def readGlobals (assignments : List String) : Except Failure (List (String × Datum)) := do
  let globals ← assignments.foldlM (fun globals assignment => do
    let cs := assignment.toList
    let name := String.ofList (Text.trim Text.isBlank (cs.takeWhile (· ≠ '=')))
    match cs.dropWhile (· ≠ '=') with
    | _ :: value =>
      if name = "" then throw (invalid assignment)
      match readGlobal (String.ofList value) with
      | .ok d => return Assoc.set globals name d
      | .error e =>
        let label := "invalid value for global " ++ Text.quoted name
        throw (if e.isError then .within label e else e)
    | [] => throw (invalid assignment)) []
  return Assoc.sort globals
where
  /-- The error about an assignment without a name or a value. -/
  invalid (assignment : String) : Failure :=
    .plain ("invalid global " ++ Text.quoted assignment ++ " (expected name=value)")

/-- The document of a result. -/
def documentOf (store : Store) (v : Value) : Except Failure Document :=
  match v with
  | .code .. => .error (.plain s!"cannot encode {store.repr v} as json")
  | _ => do Document.ofDatum (← store.toDatum v)

/-- The text of a result in a format. Without a format, nothing stands for none, and what has no
document is shown as programs see it. -/
def resultText (color : Bool) (format : String) (store : Store) (v : Value) :
    Except Failure String :=
  match lowerCase format with
  | "" =>
    if v.isNone then .ok ""
    else
      match documentOf store v with
      | .ok d => .ok (d.render color)
      | .error e => if e.isError then .ok (store.repr v) else .error e
  | "json" => return (← documentOf store v).render color
  | "text" => .ok (store.str v)
  | _ => .error (.plain ("unknown output format: " ++ format))

/-- The builtins by name. -/
def builtins : Bindings := Builtin.table.map fun b => (b.name, .builtin b)

/-- Runs a code object and prints its result. -/
def runFile (settings : Settings) (path : String) : Shell Unit := do
  let code ← loadCode path
  let globals ← Shell.ofExcept (readGlobals (settings.arguments.texts "set"))
  let m : Machine := {
    main? := some code
    maxDepth := Machine.depthLimit (settings.number "max-depth" 0)
    observer? := if settings.isOn "trace" then some {} else none }
  let start : Exec Value := do
    let bindings ← (Op.labelled "invalid global provided" (Op.ofGlobals globals) : Op Bindings)
    modify fun w => { w with globals := bindings }
    m.run Machine.ampleFuel
  let (v, w) ← Shell.ofExec start { builtins }
  let text ← Shell.ofExcept
    (resultText (← get).color (settings.text "output") w.store v)
  if text ≠ "" then Shell.printLine text

/-! ## Inspecting -/

/-- Prints the instructions of one code object under a heading. -/
def showCode (c : Code) : Shell Unit := do
  let color := (← get).color
  let parameters ← Shell.ofExcept c.describeParameters
  Shell.printLine (Style.bold.paint color s!"code object {c.name} ({parameters})")
  let table ← Shell.ofExcept (c.disassemble color)
  Shell.print table.render

/-- Prints code objects with blank lines between them. -/
def showCodes : List Code → Shell Unit
  | [] => return ()
  | [c] => showCode c
  | c :: cs => do
    showCode c
    Shell.printLine ""
    showCodes cs

/-- Disassembles a code object and everything nested in it, or only what has a given name. -/
def disassembleFile (settings : Settings) (path : String) : Shell Unit := do
  let codes ← flatten (← loadCode path)
  let wanted := (settings.arguments.text? "func").getD ""
  let selected := codes.filter fun c => wanted = "" || c.name = wanted
  if selected.isEmpty then Shell.fail ("function not found: " ++ wanted)
  showCodes selected

/-- Counts the opcodes of a code object and everything nested in it. -/
def countFile (path : String) : Shell Unit := do
  let counts ← Shell.ofExcept (← loadCode path).countOps
  let rows := counts.map (fun (op, n) => (op.name, n)) ++
    [("TOTAL", counts.foldl (fun total (_, n) => total + n) 0)]
  let width := (rows.map (·.1.length)).foldl max 0
  Shell.print (String.join (rows.map fun (name, n) => padRight (width + 2) name ++ s!"{n}\n"))

/-- Assembles a source file into an artifact. -/
def compileFile (settings : Settings) (path : String) : Shell Unit := do
  if !sourceExtensions.contains (lowerCase (Path.extension path)) then
    Shell.fail s!"compile expects a .yaml listing, got {path}"
  let code ← loadCode path
  Shell.ofExcept code.validate
  let bytes ← Shell.ofExcept (code.toArtifact Artifact.binary)
  let out := (settings.arguments.text? "out").getD ""
  let out := if out = "" then Path.stem path ++ ".cbor" else out
  let files ← Shell.ofExcept ((← get).files.write out bytes)
  modify fun s => { s with files }
  Shell.print s!"wrote {out} ({bytes.length} bytes)\n"

/-- The reference entry of a builtin as a document. -/
def builtinDocument (b : Builtin) : Document :=
  let d := b.reference
  .record [("Name", .str b.name), ("Doc", .str d.doc), ("Args", .list (d.parameters.map .str)),
    ("Returns", .str d.returns), ("Example", .str d.sample)]

/-- The reference entry of a builtin as text. -/
def builtinText (color : Bool) (b : Builtin) : String :=
  let d := b.reference
  let signature := b.name ++ "(" ++ String.intercalate ", " d.parameters ++ ")"
  Style.bold.paint color signature ++ s!" -> {d.returns}\n    {d.doc}\n" ++
    if d.sample = "" then "" else s!"    example: {d.sample}\n"

/-- Lists the builtins, or shows one of them. -/
def showBuiltins (settings : Settings) (name? : Option String) : Shell Unit := do
  let selected : List Builtin := match name? with
    | some name => Builtin.table.filter (·.name = name)
    | none => Builtin.table
  if selected.isEmpty then Shell.fail ("builtin not found: " ++ name?.getD "")
  let format := (settings.arguments.text? "output").getD "text"
  let color := (← get).color
  match lowerCase format with
  | "json" => Shell.printLine ((Document.list (selected.map builtinDocument)).render color)
  | "text" => Shell.print (String.join (selected.map (builtinText color)))
  | _ => Shell.fail ("unknown output format: " ++ format)

/-! ## Execution -/

/-- Does what a subcommand is there for. -/
def perform (c : Subcommand) (settings : Settings) : Shell Unit :=
  let operand := settings.arguments.operands.headD ""
  match c with
  | .run => runFile settings operand
  | .dis => disassembleFile settings operand
  | .ops => countFile operand
  | .compile => compileFile settings operand
  | .builtins => showBuiltins settings settings.arguments.operands.head?
  | .version => Shell.print (programName ++ " dev (commit unknown, built unknown)\n")
  | .completion | .help => return ()

/-- Runs a command line. Flags are checked first, then operands; a request for help does nothing
here. -/
def execute (words : List String) : Shell Unit := do
  let (command?, words) ← Shell.ofExcept (select words)
  match command? with
  | none =>
    let _ ← Shell.ofExcept (Arguments.parse (helpFlag :: commonFlags) words)
  | some .completion | some .help => return ()
  | some c =>
    let arguments ← Shell.ofExcept (Arguments.parse c.flags words)
    if arguments.isOn helpFlag.name then return ()
    Shell.ofExcept (c.checkOperands arguments.operands)
    let settings : Settings := { arguments, sources := (← get).sources }
    modify fun s => { s with color := s.color && !settings.isOn "no-color" }
    perform c settings

end Wordcode.Command
