import Wordcode.Listing
import Wordcode.Store.Convert
import Wordcode.Table

namespace Wordcode

/-! # Disassembly

A readable table of the instructions of a code object, and counts of the opcodes in it and in
everything nested in it.
-/

namespace Disassembly

/-- The flags of an argument by name. -/
def flagNames (op : Opcode) (arg : Nat) : List String :=
  match op with
  | .makeFunction =>
    (if Opcode.makesDefaults arg then ["defaults"] else []) ++
      (if Opcode.makesKeywordDefaults arg then ["kwdefaults"] else []) ++
      (if Opcode.makesAnnotations arg then ["annotations"] else []) ++
      (if Opcode.makesCells arg then ["closure"] else [])
  | .formatValue =>
    (match Opcode.conversion arg with
      | 1 => ["str"]
      | 2 => ["repr"]
      | _ => []) ++
      (if Opcode.formatsWithSpec arg then ["with format"] else [])
  | .callFunctionEx => if Opcode.callsWithKeywords arg then ["kwargs"] else []
  | _ => []

mutual

/-- A constant as messages show it. -/
def plainText : Const → String
  | .none | .noCode => "<nil>"
  | .bool b => if b then "true" else "false"
  | .int n => toString n.toInt
  | .float bits => Decimal.compact (Float.ofBits bits)
  | .str s => s
  | .stray s => s.shown
  | .tuple items => "[" ++ String.intercalate " " (plainTexts items) ++ "]"
  | .array items => "[" ++ String.intercalate " " (plainTexts items) ++ "]"
  | .code c => Code.render c
  | .foreign d => d.text

/-- Constants as messages show them. -/
def plainTexts : List Const → List String
  | [] => []
  | c :: cs => plainText c :: plainTexts cs

end

/-- The text of a constant: that of its value, or a plain one if it has none. -/
def constText (c : Const) : Except Failure String :=
  match Op.ofConst c {} with
  | .ok v s => .ok (s.repr v)
  | .error .crash _ => .error .crash
  | .error _ _ => .ok (plainText c)

/-- What the argument of an instruction stands for. -/
def annotate (i : Instruction) : Except Failure String :=
  match i.operand with
  | .const c => constText c
  | .name s | .slot s => .ok s
  | .target n => .ok s!"to {n}"
  | .binary o => .ok o.symbol
  | .comparison c => .ok c.symbol
  | .number n => .ok (String.intercalate ", " (flagNames i.op n))
  | .none => .ok ""

/-- A row of the table. A place that some jump leads to is marked. -/
def row (targets : List Nat) (color : Bool) (i : Instruction) : Except Failure (List String) := do
  let offset := toString i.offset
  return [if targets.contains i.offset then ">> " ++ offset else offset,
    Style.cyan.paint color i.op.name,
    if i.op.hasArg then toString i.arg else "",
    ← annotate i]

end Disassembly

open Disassembly in
/-- The instructions of one code object as a table; nested code objects are not entered. -/
def Code.disassemble (c : Code) (color : Bool) : Except Failure Table := do
  let listing ← c.decode
  let instructions := listing.instructions.toList
  let targets := instructions.filterMap (·.target?)
  return {
    header := ["OFFSET", "OPCODE", "OPERANDS", "INFO"]
    columnAlignment := [.right, .left, .right, .left]
    headerAlignment := [.center, .center, .center, .center]
    rows := ← instructions.mapM (row targets color) }

/-- The parameters of a code object as they would be declared. -/
def Code.describeParameters (c : Code) : Except Failure String := do
  let names ← c.parameterNames
  let rest := (← c.restName).getD ""
  let keywords := (← c.keywordsName).getD ""
  let parts :=
    names.positionalOnly ++ (if names.positionalOnly.isEmpty then [] else ["/"]) ++
      names.positional ++
      (if rest ≠ "" then ["*" ++ rest] else if names.keywordOnly.isEmpty then [] else ["*"]) ++
      names.keywordOnly ++ (if keywords ≠ "" then ["**" ++ keywords] else [])
  return "params: " ++ if parts.isEmpty then "none" else String.intercalate ", " parts

/-! ## Counting -/

/-- The opcodes of the units of an instruction: its prefixes and its own. -/
def Instruction.unitOps (i : Instruction) : List Opcode :=
  List.replicate (i.size / Opcode.unitSize - 1) .extendedArg ++ [i.op]

/-- The order of counts: higher counts first, then names. -/
def countBefore (a b : Opcode × Nat) : Bool :=
  if a.2 ≠ b.2 then decide (b.2 < a.2) else decide (a.1.name ≤ b.1.name)

/-- How often each opcode occurs in a code object and everything nested in it. -/
def Code.countOps (c : Code) : Except Failure (List (Opcode × Nat)) := do
  let codes ← match Code.flatten c with
    | some codes => pure codes
    | none => throw .crash
  let ops ← codes.mapM fun c => do
    let listing ← Code.decode c
    return listing.instructions.toList.flatMap Instruction.unitOps
  let ops := ops.flatten
  let counts := Opcode.all.map fun op => (op, ops.count op)
  return (counts.filter (0 < ·.2)).mergeSort countBefore

end Wordcode
