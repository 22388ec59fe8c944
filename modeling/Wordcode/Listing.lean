import Wordcode.Code
import Wordcode.Opcode

namespace Wordcode

/-! # Decoded instructions

Decoding turns the instruction stream of a code object into a list of instructions, with
`extendedArg` units folded into the argument of the instruction they stand in front of and
arguments resolved against the pools.

* `Code.decode` decodes a code object or reports the first thing that is malformed.
* `Listing.indexOf?` finds the instruction that starts at an offset.
-/

/-- What an instruction argument stands for. -/
inductive Operand
  /-- The opcode takes no argument. -/
  | none
  | const (c : Const)
  | name (s : String)
  | slot (s : String)
  /-- The offset a jump leads to. -/
  | target (offset : Nat)
  | binary (o : BinaryOperator)
  | comparison (c : Comparison)
  | number (n : Nat)
  deriving Inhabited

/-- An instruction before its argument is resolved. -/
structure RawInstruction where
  op : Opcode
  /-- The argument with all prefixes folded in, zero for an opcode that takes none. -/
  arg : Nat
  /-- The offset of the first prefix, or of the opcode when there is none. -/
  offset : Nat
  /-- The number of bytes, prefixes included. -/
  size : Nat
  deriving DecidableEq, Repr, Inhabited

/-- The offset just past an instruction. -/
def RawInstruction.next (i : RawInstruction) : Nat := i.offset + i.size

/-- A decoded instruction. -/
structure Instruction extends RawInstruction where
  operand : Operand
  deriving Inhabited

namespace Instruction

/-- The place a jump leads to. -/
def target? (i : Instruction) : Option Nat :=
  match i.operand with
  | .target n => some n
  | _ => none

/-- The operator of a binary operation. -/
def binary? (i : Instruction) : Option BinaryOperator :=
  match i.operand with
  | .binary o => some o
  | _ => none

/-- The comparison an instruction makes. -/
def comparison? (i : Instruction) : Option Comparison :=
  match i.operand with
  | .comparison c => some c
  | _ => none

/-- The name or variable an instruction refers to. -/
def name? (i : Instruction) : Option String :=
  match i.operand with
  | .name s | .slot s => some s
  | _ => none

/-- The way an instruction is shown. -/
def render (i : Instruction) : String :=
  if i.op.hasArg then s!"{i.offset} {i.op.name} {i.arg}" else s!"{i.offset} {i.op.name}"

end Instruction

/-- The decoded instructions of a code object. -/
structure Listing where
  code : Code
  instructions : Array Instruction
  /-- For each instruction unit, the position of the instruction that starts there, if one does. -/
  starts : Array (Option Nat)
  deriving Inhabited

namespace Listing

/-- The position of the instruction that starts at an offset. -/
def indexOf? (l : Listing) (offset : Int) : Option Nat :=
  if 0 ≤ offset && offset % 2 = 0 then (l.starts[(offset / 2).toNat]?).join else none

/-- The instruction that starts at an offset. -/
def lookup? (l : Listing) (offset : Int) : Option Instruction := do
  l.instructions[← l.indexOf? offset]?

/-- The offset just past the last instruction. -/
def endOffset (l : Listing) : Nat := l.code.instructions.length

end Listing

/-! ## Folding prefixes -/

/-- The largest number of `extendedArg` units in front of an instruction. -/
def maxPrefixes : Nat := 3

/-- The state of a scan over instruction units. -/
structure Scan where
  /-- The offset of the next unit. -/
  offset : Nat := 0
  /-- The offset of the first pending prefix. -/
  start : Nat := 0
  /-- The number of pending prefixes. -/
  pending : Nat := 0
  /-- The argument bytes of the pending prefixes. -/
  high : Nat := 0
  done : Array RawInstruction := #[]
  deriving Inhabited

/-- A fault about a malformed stream. -/
def malformed (name message : String) : Failure :=
  .raise .malformedCode (name ++ ": " ++ message)

/-- Reads one unit. -/
def Scan.step (name : String) (s : Scan) (unit : UInt8 × UInt8) : Except Failure Scan :=
  match Opcode.ofNumber? unit.1 with
  | none => .error (malformed name s!"unknown opcode {unit.1.toNat} at offset {s.offset}")
  | some op =>
    let start := if s.pending = 0 then s.offset else s.start
    let arg := s.high * 256 + unit.2.toNat
    let next := s.offset + Opcode.unitSize
    if op = .extendedArg then
      if s.pending = maxPrefixes then
        .error (malformed name s!"too many EXTENDED_ARG prefixes at offset {start}")
      else .ok { s with offset := next, start, pending := s.pending + 1, high := arg }
    else if op.hasArg then
      .ok { offset := next, done := s.done.push ⟨op, arg, start, next - start⟩ }
    else if 0 < s.pending then
      .error (malformed name s!"EXTENDED_ARG before {op.name} at offset {s.offset}")
    else .ok { offset := next, done := s.done.push ⟨op, 0, start, next - start⟩ }

/-- The bytes of a stream two by two; a last byte without a partner is left out. -/
def unitsOf : List UInt8 → List (UInt8 × UInt8)
  | op :: arg :: rest => (op, arg) :: unitsOf rest
  | _ => []

/-- The instructions of a stream, arguments not yet resolved. -/
def scan (name : String) (bytes : List UInt8) : Except Failure (Array RawInstruction) := do
  if bytes.length % Opcode.unitSize ≠ 0 then
    throw (malformed name s!"instruction stream has odd length {bytes.length}")
  let s ← (unitsOf bytes).foldlM (Scan.step name) {}
  if 0 < s.pending then throw (malformed name s!"dangling EXTENDED_ARG at offset {s.start}")
  return s.done

/-! ## Resolving arguments -/

/-- For each unit of a stream, the position of the instruction that starts there. -/
def startsOf (raw : Array RawInstruction) : Array (Option Nat) :=
  (raw.foldl (fun (i, starts) r =>
    (i + 1, (starts.push (some i)).append (Array.replicate (r.size / Opcode.unitSize - 1) none)))
    ((0 : Nat), #[])).2

/-- The pools and the instruction starts that arguments refer to. -/
structure Pools where
  name : String
  constants : Array Const
  names : Array String
  variableNames : Array String
  starts : Array (Option Nat)

/-- Looks an argument up in a pool. -/
def Pools.entry {α : Type} (p : Pools) (pool : Array α) (what : String) (i : RawInstruction) :
    Except Failure α :=
  match pool[i.arg]? with
  | some a => .ok a
  | none => .error (malformed p.name s!"{what} index {i.arg} out of range at offset {i.offset}")

/-- The place a jump leads to must be the start of an instruction. -/
def Pools.jump (p : Pools) (target : Nat) (i : RawInstruction) : Except Failure Operand :=
  if target % 2 = 0 && (p.starts[target / 2]?).join.isSome then .ok (.target target)
  else .error (malformed p.name
    s!"jump target {target} at offset {i.offset} is not an instruction start")

/-- Resolves the argument of an instruction. -/
def Pools.operand (p : Pools) (i : RawInstruction) : Except Failure Operand :=
  match i.op.argKind with
  | .none => .ok .none
  | .const => .const <$> p.entry p.constants "constant" i
  | .name => .name <$> p.entry p.names "name" i
  | .slot => .slot <$> p.entry p.variableNames "variable" i
  | .jumpAbsolute => p.jump i.arg i
  | .jumpRelative => p.jump (i.next + i.arg) i
  | .binaryOperator =>
    match BinaryOperator.ofNumber? (i.arg % operatorSpace) with
    | some o => .ok (.binary o)
    | none => .error (malformed p.name s!"unknown binary operator {i.arg} at offset {i.offset}")
  | .comparison =>
    match Comparison.ofNumber? (i.arg % operatorSpace) with
    | some c => .ok (.comparison c)
    | none =>
      .error (malformed p.name s!"unknown comparison operator {i.arg} at offset {i.offset}")
  | .count | .flags => .ok (.number i.arg)

/-- Resolves an instruction. -/
def Pools.resolve (p : Pools) (i : RawInstruction) : Except Failure Instruction :=
  (p.operand i).map fun operand => { i with operand }

/-- Decodes the instruction stream of a code object. -/
def Code.decode (c : Code) : Except Failure Listing := do
  let raw ← scan c.name c.instructions
  let starts := startsOf raw
  let pools : Pools :=
    ⟨c.name, c.constants.toArray, c.names.toArray, c.variableNames.toArray, starts⟩
  let instructions ← raw.mapM pools.resolve
  return ⟨c, instructions, starts⟩

end Wordcode
