import Wordcode.Code
import Wordcode.Opcode

namespace Wordcode

/-! # Assembling code objects

An assembly collects instructions and the pool entries they refer to, and lays them out as a code
object. Arguments wider than a byte get `extendedArg` units in front, and jumps name labels that
may be placed before or after them. Mistakes are collected and reported together at the end.

* `Assembly.perform` makes one request of an assembly, `Assembly.performAll` a list of them.
* `Assembly.layout?` computes the offsets: jump arguments depend on offsets and offsets on the
  width of jump arguments, so widths grow until nothing changes.
* `Assembly.assemble` builds the code object.
-/

/-- An instruction of an assembly. -/
structure Assembly.Item where
  op : Opcode
  arg : Nat := 0
  /-- The label of a jump; without one the argument stands as it is. -/
  label? : Option String := none
  deriving DecidableEq, Repr, Inhabited

/-- A code object under construction. -/
structure Assembly where
  name : String
  file : String := ""
  id : String := ""
  constants : Array Const := #[]
  names : Array String := #[]
  variableNames : Array String := #[]
  positionalOnly : Nat := 0
  positional : Nat := 0
  keywordOnly : Nat := 0
  flags : UInt8 := 0
  items : Array Assembly.Item := #[]
  /-- Labels with the position of the instruction that follows them. -/
  labels : List (String × Nat) := []
  /-- Mistakes so far. -/
  mistakes : List String := []
  deriving Inhabited

/-- Two scalar constants of the same kind and value; doubles are compared bit for bit. -/
def Const.sameScalar : Const → Const → Bool
  | .none, .none => true
  | .bool a, .bool b => a == b
  | .int a, .int b => a == b
  | .float a, .float b => a == b
  | .str a, .str b => a == b
  | .stray a, .stray b => a.bytes == b.bytes
  | _, _ => false

/-- Whether a constant is a scalar. -/
def Const.isScalar : Const → Bool
  | .none | .bool _ | .int _ | .float _ | .str _ | .stray _ => true
  | _ => false

/-- The form in which a constant is pooled: host integers and doubles become plain ones and host
sequences become tuples. A constant of any other host type is refused with the name of that
type. -/
def Const.normalize : Const → Except String Const
  | .tuple items => .tuple <$> normalizeAll items
  | .array items => .tuple <$> normalizeAll items
  | .foreign (.int t n) =>
    if t = "int" || t = "int32" then .ok (.int (Int64.ofInt n)) else .error t
  | .foreign (.float t x) => if t = "float32" then .ok (.ofFloat x) else .error t
  | .foreign d => .error d.type
  | c => .ok c
where
  /-- Normalizes the items of a sequence. -/
  normalizeAll : List Const → Except String (List Const)
    | [] => .ok []
    | c :: cs => do return (← c.normalize) :: (← normalizeAll cs)

namespace Assembly

/-- Notes a mistake. -/
def refuse (a : Assembly) (message : String) : Assembly :=
  { a with mistakes := a.mistakes ++ [a.name ++ ": " ++ message] }

/-- Pools a text: its position, after adding it at the end if it is new. -/
def intern (pool : Array String) (s : String) : Array String × Nat :=
  match pool.findIdx? (· = s) with
  | some i => (pool, i)
  | none => (pool.push s, pool.size)

/-- Pools a name. -/
def internName (a : Assembly) (s : String) : Assembly × Nat :=
  let (names, i) := intern a.names s
  ({ a with names }, i)

/-- Pools a local variable. -/
def internVariable (a : Assembly) (s : String) : Assembly × Nat :=
  let (variableNames, i) := intern a.variableNames s
  ({ a with variableNames }, i)

/-- Pools a constant. Scalars are shared, other constants are not. -/
def internConst (a : Assembly) (c : Const) : Assembly × Nat :=
  match c.normalize with
  | .error type => (a.refuse ("unsupported constant type " ++ type), 0)
  | .ok c =>
    match if c.isScalar then a.constants.findIdx? c.sameScalar else none with
    | some i => (a, i)
    | none => ({ a with constants := a.constants.push c }, a.constants.size)

/-- Declares a parameter, which must be new. -/
def declare (a : Assembly) (s : String) : Assembly :=
  if a.variableNames.contains s then a.refuse ("duplicate parameter " ++ Text.quoted s)
  else (a.internVariable s).1

/-- The parameters of a code object by the way they are passed. -/
structure Parameters where
  positionalOnly : List String := []
  positional : List String := []
  keywordOnly : List String := []
  /-- The slot for excess positional arguments. -/
  rest? : Option String := none
  /-- The slot for excess keyword arguments. -/
  keywords? : Option String := none
  deriving DecidableEq, Repr, Inhabited

/-- Declares the parameters; this must come before any local variable. -/
def declareAll (a : Assembly) (p : Parameters) : Assembly :=
  if 0 < a.variableNames.size then a.refuse "parameters declared after locals"
  else
    let flags := (if p.rest?.isSome then Code.restFlag else 0) |||
      (if p.keywords?.isSome then Code.keywordsFlag else 0)
    let a := { a with
      positionalOnly := p.positionalOnly.length, positional := p.positional.length,
      keywordOnly := p.keywordOnly.length, flags }
    (p.positionalOnly ++ p.positional ++ p.keywordOnly ++ p.rest?.toList ++
      p.keywords?.toList).foldl declare a

/-- The largest argument. -/
def maxArgument : Int := 0xFFFFFFFF

/-- Adds an instruction with a numeric argument. -/
def emit (a : Assembly) (opcode : UInt8) (arg : Int) : Assembly :=
  match Opcode.ofNumber? opcode with
  | none | some .extendedArg => a.refuse ("cannot emit opcode " ++ Opcode.showNumber opcode)
  | some op =>
    if arg < 0 || maxArgument < arg then a.refuse s!"argument {arg} of {op.name} out of range"
    else { a with items := a.items.push { op, arg := if op.hasArg then arg.toNat else 0 } }

/-- Adds a jump to a label; the empty label stands for no label and the argument zero. -/
def emitJump (a : Assembly) (opcode : UInt8) (label : String) : Assembly :=
  match Opcode.ofNumber? opcode with
  | some op =>
    if op.isJump then
      { a with items := a.items.push { op, label? := if label = "" then none else some label } }
    else a.refuse (op.name ++ " is not a jump")
  | none => a.refuse (Opcode.showNumber opcode ++ " is not a jump")

/-- Places a label in front of the next instruction. -/
def place (a : Assembly) (label : String) : Assembly :=
  if (a.labels.lookup label).isSome then a.refuse ("duplicate label " ++ Text.quoted label)
  else { a with labels := a.labels ++ [(label, a.items.size)] }

/-- Adds an instruction that loads a constant. -/
def loadConst (a : Assembly) (c : Const) : Assembly :=
  let (a, i) := a.internConst c
  a.emit Opcode.loadConst.number i

/-- Adds an instruction whose argument is a pooled name. -/
def emitName (a : Assembly) (opcode : UInt8) (s : String) : Assembly :=
  let (a, i) := a.internName s
  a.emit opcode i

/-- Adds an instruction whose argument is a local variable. -/
def emitVariable (a : Assembly) (opcode : UInt8) (s : String) : Assembly :=
  let (a, i) := a.internVariable s
  a.emit opcode i

/-! ## Requests -/

/-- Something that an assembly can be asked for. -/
inductive Request
  | parameters (p : Parameters)
  | const (c : Const)
  | name (s : String)
  | slot (s : String)
  | emit (opcode : UInt8) (arg : Int)
  | emitName (opcode : UInt8) (s : String)
  | emitSlot (opcode : UInt8) (s : String)
  | jump (opcode : UInt8) (label : String)
  | label (s : String)
  | loadConst (c : Const)
  deriving Inhabited

/-- Makes a request; a request for a pool entry answers its position. -/
def perform (a : Assembly) : Request → Assembly × Option Nat
  | .parameters p => (a.declareAll p, none)
  | .const c => let (a, i) := a.internConst c; (a, some i)
  | .name s => let (a, i) := a.internName s; (a, some i)
  | .slot s => let (a, i) := a.internVariable s; (a, some i)
  | .emit op arg => (a.emit op arg, none)
  | .emitName op s => (a.emitName op s, none)
  | .emitSlot op s => (a.emitVariable op s, none)
  | .jump op label => (a.emitJump op label, none)
  | .label s => (a.place s, none)
  | .loadConst c => (a.loadConst c, none)

/-- Makes all requests in order. -/
def performAll (a : Assembly) (requests : List Request) : Assembly :=
  requests.foldl (fun a r => (a.perform r).1) a

/-! ## Layout -/

/-- The number of prefixes that an argument needs. -/
def prefixCount (arg : Nat) : Nat :=
  if 0xFFFFFF < arg then 3 else if 0xFFFF < arg then 2 else if 0xFF < arg then 1 else 0

/-- The offset of each instruction and, last, the end of the stream, from widths in units. -/
def offsetsOf (widths : Array Nat) : Array Nat :=
  (widths.foldl (fun (offsets, pos) w =>
    let next := pos + w * Opcode.unitSize
    (offsets.push next, next)) (#[0], 0)).1

/-- The argument of the instruction at position `i` under given offsets. A relative jump cannot
lead backward. -/
def argumentAt (a : Assembly) (offsets : Array Nat) (i : Nat) (item : Item) :
    Except String Nat :=
  match item.label? with
  | none => .ok item.arg
  | some label =>
    let target := offsets.getD ((a.labels.lookup label).getD 0) 0
    if item.op.argKind = .jumpAbsolute then .ok target
    else
      let next := offsets.getD (i + 1) 0
      if target < next then
        .error (a.name ++ ": " ++ item.op.name ++ " cannot jump backward to " ++ Text.quoted label)
      else .ok (target - next)

/-- The arguments of all instructions under given offsets. -/
def argumentsAt (a : Assembly) (offsets : Array Nat) : Except String (Array Nat) :=
  a.items.zipIdx.mapM fun (item, i) => a.argumentAt offsets i item

/-- Widths grow to fit the arguments under the offsets they give, until they do. -/
def settle (a : Assembly) : Nat → Array Nat → Except String (Array Nat)
  | 0, widths => .ok widths
  | fuel + 1, widths => do
    let arguments ← a.argumentsAt (offsetsOf widths)
    let wider := (widths.zip arguments).map fun (w, arg) => max w (1 + prefixCount arg)
    if wider = widths then return widths else a.settle fuel wider

/-- The widths of all instructions in units. Each width grows at most three times, which bounds the
number of rounds. -/
def layout (a : Assembly) : Except String (Array Nat) :=
  a.settle (3 * a.items.size + 1) (a.items.map fun item => 1 + prefixCount item.arg)

/-- The units of an instruction: prefixes with the high bytes of the argument, then the opcode with
the lowest one. -/
def encode (op : Opcode) (arg : Nat) : List UInt8 :=
  (List.range (prefixCount arg)).reverse.flatMap (fun k =>
    [Opcode.extendedArg.number, UInt8.ofNat (arg >>> (8 * (k + 1)))]) ++
    [op.number, UInt8.ofNat arg]

/-! ## Assembling -/

/-- Mistakes that show only at the end: jumps to labels that were never placed. -/
def undefinedLabels (a : Assembly) : List String :=
  a.items.toList.filterMap fun item =>
    match item.label? with
    | some label =>
      if (a.labels.lookup label).isSome then none
      else some (a.name ++ ": undefined label " ++ Text.quoted label)
    | none => none

/-- The instruction stream. -/
def stream (a : Assembly) : Except String (List UInt8) := do
  let widths ← a.layout
  let arguments ← a.argumentsAt (offsetsOf widths)
  return (a.items.zip arguments).toList.flatMap fun (item, arg) => encode item.op arg

/-- The code object with the given serial number and stream. -/
def code (a : Assembly) (serial : Nat) (bytes : List UInt8) : Code where
  serial := serial
  id := .ofText a.id serial
  name := a.name
  file := a.file
  instructions := bytes
  hasStream := !bytes.isEmpty
  constants := a.constants.toList
  names := a.names.toList
  variableNames := a.variableNames.toList
  positionalOnly := Int64.ofNat a.positionalOnly
  positional := Int64.ofNat a.positional
  keywordOnly := Int64.ofNat a.keywordOnly
  flags := a.flags

/-- Builds the code object, which gets the given serial number. -/
def assemble (a : Assembly) (serial : Nat) : Except Failure Code := do
  let mistakes := a.mistakes ++ a.undefinedLabels
  if !mistakes.isEmpty then throw (.plain (errorList mistakes))
  let bytes ← match a.stream with
    | .ok bytes => pure bytes
    | .error message => throw (.plain message)
  let code := a.code serial bytes
  Code.validate code
  return code

end Assembly

end Wordcode
