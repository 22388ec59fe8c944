import Wordcode.Code

namespace Wordcode

/-! # Binary artifacts

A code object is stored as a record, in which every constant is a record of its own that is tagged
with its kind. A codec turns records into bytes and back.

* `Artifact.ofCode` makes the record of a code object and `Artifact.toCode` a code object of a
  record.
* `Artifact.Codec` is what writes and reads the records.
* `Code.toArtifact` writes an artifact.
* `Code.ofArtifact` reads one back, validates it and gives every code object a serial number.
-/

namespace Artifact

/-! ## Records -/

/-- A code object as it is recorded, with constants of some type. -/
structure CodeRecordOf (κ : Type) where
  id : String := ""
  name : String := ""
  file : String := ""
  /-- The instruction stream, which may be missing. -/
  stream? : Option (List UInt8) := none
  constants : List κ := []
  names : List String := []
  variableNames : List String := []
  positionalOnly : Int64 := 0
  positional : Int64 := 0
  keywordOnly : Int64 := 0
  flags : UInt8 := 0
  deriving Inhabited

/-- A constant as it is recorded: a kind and a field for each kind of value. -/
inductive ConstRecord
  /-- Doubles are given by their bits and texts by their bytes. -/
  | mk (kind : String) (bool : Bool) (int : Int64) (float : UInt64) (str : List UInt8)
      (code? : Option (CodeRecordOf ConstRecord)) (items : List ConstRecord)
  deriving Inhabited

/-- The record of a code object. -/
abbrev CodeRecord := CodeRecordOf ConstRecord

/-- What an artifact holds. -/
structure Contents where
  version : Int64 := 0
  code? : Option CodeRecord := none
  deriving Inhabited

/-- The version of the format. -/
def version : Int64 := 1

/-- A way to store what an artifact holds in bytes. Not all bytes store something. -/
structure Codec where
  encode : Contents → List UInt8
  decode? : List UInt8 → Option Contents

/-! ## Recording -/

/-- The record of a code object, given those of its constants. -/
def codeRecord (c : Code) (constants : List ConstRecord) : CodeRecord where
  id := c.id.text
  name := c.name
  file := c.file
  stream? := if c.instructions.isEmpty && !c.hasStream then none else some c.instructions
  constants := constants
  names := c.names
  variableNames := c.variableNames
  positionalOnly := c.positionalOnly
  positional := c.positional
  keywordOnly := c.keywordOnly
  flags := c.flags

mutual

/-- Records a code object. -/
def ofCode : CodeOf Const → Except Failure CodeRecord
  | c@{ constants := cs, .. } => do return codeRecord c (← ofConsts c.name 0 cs)

/-- Records a constant. -/
def ofConst : Const → Except Failure ConstRecord
  | .none => .ok (.mk "none" false 0 0 [] none [])
  | .bool b => .ok (.mk "bool" b 0 0 [] none [])
  | .int n => .ok (.mk "int" false n 0 [] none [])
  | .float x => .ok (.mk "float" false 0 x [] none [])
  | .str s => .ok (.mk "str" false 0 0 (Text.octets s) none [])
  | .stray s => .ok (.mk "str" false 0 0 s.bytes none [])
  | .code c => do return .mk "code" false 0 0 [] (some (← ofCode c)) []
  | .noCode => .error .crash
  | .tuple items => do return .mk "tuple" false 0 0 [] none (← ofItems items)
  | .array _ => .error (.plain ("unsupported constant type " ++ Datum.listType))
  | .foreign d => .error (.plain ("unsupported constant type " ++ d.type))

/-- Records a constant pool from position `i` on. -/
def ofConsts (name : String) (i : Nat) : List Const → Except Failure (List ConstRecord)
  | [] => .ok []
  | c :: cs =>
    match ofConst c with
    | .ok r => do return r :: (← ofConsts name (i + 1) cs)
    | .error .crash => .error .crash
    | .error e => .error (.within s!"bytecode: {name}: constant {i}" e)

/-- Records the items of a tuple. -/
def ofItems : List Const → Except Failure (List ConstRecord)
  | [] => .ok []
  | c :: cs => do return (← ofConst c) :: (← ofItems cs)

end

/-! ## Restoring -/

mutual

/-- The code object of a record. -/
def toCode : CodeRecordOf ConstRecord → Build Code
  | { id, name, file, stream?, constants, names, variableNames, positionalOnly, positional,
      keywordOnly, flags } => do
    let constants ← toConsts name 0 constants
    let serial ← Build.serial
    return {
      serial, id := .ofText id serial, name, file, instructions := stream?.getD []
      hasStream := stream?.isSome, constants, names, variableNames, positionalOnly, positional
      keywordOnly, flags }

/-- The constant of a record: its kind says which field counts. -/
def toConst : ConstRecord → Build Const
  | .mk kind bool int float str code? items =>
    match kind with
    | "none" => return .none
    | "bool" => return .bool bool
    | "int" => return .int int
    | "float" => return .float float
    | "str" => return .ofOctets str
    | "code" =>
      match code? with
      | some c => do return .code (← toCode c)
      | none => throw (.plain "code constant has no code")
    | "tuple" => do return .tuple (← toItems items)
    | _ => throw (.plain ("unknown constant kind " ++ Text.quoted kind))

/-- The constants of records, with the position of a bad one in its message. -/
def toConsts (name : String) (i : Nat) : List ConstRecord → Build (List Const)
  | [] => return []
  | r :: rs => do
    let c ← tryCatch (toConst r) fun e => throw (.within s!"bytecode: {name}: constant {i}" e)
    return c :: (← toConsts name (i + 1) rs)

/-- The items of a recorded tuple. -/
def toItems : List ConstRecord → Build (List Const)
  | [] => return []
  | r :: rs => do return (← toConst r) :: (← toItems rs)

end

end Artifact

namespace Code

open Artifact

/-- Writes a code object as an artifact. -/
def toArtifact (codec : Codec) (c : Code) : Except Failure (List UInt8) := do
  return codec.encode { version, code? := some (← ofCode c) }

/-- The label of errors about bytes that are no artifact at all. -/
def unreadableLabel : String := "bytecode: unmarshal artifact"

/-- Reads an artifact. -/
def ofArtifact (codec : Codec) (bytes : List UInt8) : Build Code := do
  match codec.decode? bytes with
  | none => throw (.within unreadableLabel (.plain "malformed data"))
  | some contents =>
    if contents.version ≠ version then
      throw (.plain s!"bytecode: unsupported artifact version {contents.version.toInt}")
    match contents.code? with
    | none => throw (.plain "bytecode: artifact has no code")
    | some r =>
      let code ← toCode r
      match Code.validate code with
      | .ok () => return code
      | .error .crash => throw .crash
      | .error e => throw (.within "bytecode: invalid artifact" e)

end Code

end Wordcode
