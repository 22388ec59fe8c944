import Wordcode.Datum
import Wordcode.Fault
import Wordcode.Text.Quoted

namespace Wordcode

/-! # Code objects

A code object is a module body or a function body: an instruction stream, the pools its arguments
index, and a description of its parameters. Code objects nest through their constants.

* `Code.children`, `Code.flatten` and `Code.stats` look at the nested code objects.
* `Code.parameterNames`, `Code.restName` and `Code.keywordsName` read the parameters off the
  variable names.
* `Code.problems` lists what is wrong with the metadata.
-/

/-! ## Identifiers -/

/-- The identifier of a code object, which is never empty. -/
structure Identifier where
  text : String
  nonempty : text ≠ ""
  deriving DecidableEq, Repr

namespace Identifier

/-- The text of an identifier made from a number: 122 bits laid out as a random identifier of
version 4. -/
def textOf (n : Nat) : String :=
  let group (width bits : Nat) := String.ofList (Text.hexDigits width bits)
  let variant := 8 + (n >>> 60) % 4
  group 8 (n >>> 90) ++ "-" ++ group 4 (n >>> 74) ++ "-4" ++ group 3 (n >>> 62) ++ "-" ++
    group 1 variant ++ group 3 (n >>> 48) ++ "-" ++ group 12 n

theorem textOf_ne (n : Nat) : textOf n ≠ "" := by
  intro h
  have hlength := congrArg String.length h
  simp only [textOf, String.length_append] at hlength
  have hdash : "-".length = 1 := rfl
  have hempty : "".length = 0 := rfl
  omega

/-- The identifier made from a number. -/
def ofSerial (n : Nat) : Identifier := ⟨textOf n, textOf_ne n⟩

/-- An identifier with the given text. Without a text it is made from a serial number. -/
def ofText (text : String) (serial : Nat) : Identifier :=
  if h : text = "" then ofSerial serial else ⟨text, h⟩

instance : Inhabited Identifier := ⟨ofSerial 0⟩

end Identifier

/-! ## Code objects -/

/-- A code object over constants of some type. -/
structure CodeOf (κ : Type) where
  /-- Tells one code object from another; two objects with equal contents differ in it. -/
  serial : Nat := 0
  id : Identifier := default
  name : String := ""
  file : String := ""
  /-- The instruction stream. -/
  instructions : List UInt8 := []
  /-- Whether there is a stream at all, in case it is empty. -/
  hasStream : Bool := true
  constants : List κ := []
  names : List String := []
  /-- Local variable names: parameters first, then the slot for excess positional arguments, then
  the slot for excess keyword arguments, then other locals. -/
  variableNames : List String := []
  positionalOnly : Int64 := 0
  positional : Int64 := 0
  keywordOnly : Int64 := 0
  flags : UInt8 := 0
  deriving Inhabited

/-- An entry of a constant pool. -/
inductive Const
  | none
  | bool (b : Bool)
  | int (n : Int64)
  /-- A double, by its bits. -/
  | float (bits : UInt64)
  | str (s : String)
  /-- A text of the embedding program that is not UTF-8. -/
  | stray (s : Text.Stray)
  | tuple (items : List Const)
  | code (c : CodeOf Const)
  /-- A place for a code object that holds none. -/
  | noCode
  /-- A host sequence, which only an assembly turns into a tuple. -/
  | array (items : List Const)
  /-- A datum that is no constant. -/
  | foreign (d : Datum)
  deriving Inhabited

/-- A code object. -/
abbrev Code := CodeOf Const

namespace Const

/-- The constant of a double. All that is not a number is written with the same bits. -/
def ofFloat (x : Float) : Const :=
  .float (if x.isNaN then UInt64.ofNat Decimal.nanBits else x.toBits)

/-- The constant of a text with the given bytes. -/
def ofOctets (bytes : List UInt8) : Const :=
  match h : Text.ofUtf8? bytes with
  | some s => .str s
  | Option.none => .stray ⟨bytes, h⟩

/-- The first part of a constant that cannot be used as one, by the name of its type. -/
def unsupported? : Const → Option String
  | tuple items => unsupportedIn? items
  | array _ => some Datum.listType
  | foreign d => some d.type
  | _ => Option.none
where
  /-- The first unsupported part of a sequence. -/
  unsupportedIn? : List Const → Option String
    | [] => Option.none
    | c :: cs => match c.unsupported? with
      | some t => some t
      | Option.none => unsupportedIn? cs

/-- The code objects in a constant, also those inside tuples. -/
def children : Const → List (Option Code)
  | code c => [some c]
  | noCode => [Option.none]
  | tuple items => childrenIn items
  | _ => []
where
  /-- The code objects in a sequence. -/
  childrenIn : List Const → List (Option Code)
    | [] => []
    | c :: cs => c.children ++ childrenIn cs

end Const

/-- Totals over a code object and everything nested in it. -/
structure Code.Stats where
  instructionBytes : Nat := 0
  constants : Nat := 0
  names : Nat := 0
  /-- The number of nested code objects. -/
  functions : Nat := 0
  /-- The deepest nesting, one for a code object without nested ones. -/
  depth : Nat := 0
  deriving DecidableEq, Repr, Inhabited

namespace Code

/-- Totals of two code objects side by side. -/
def Stats.beside (a b : Stats) : Stats :=
  ⟨a.instructionBytes + b.instructionBytes, a.constants + b.constants, a.names + b.names,
    a.functions + b.functions, max a.depth b.depth⟩

mutual

/-- A code object and everything nested in it, outermost first; nothing when a nested code object is
missing. -/
def flatten : CodeOf Const → Option (List Code)
  | c@{ constants := cs, .. } => (flattenIn cs).map (c :: ·)

/-- The code objects of a constant with everything nested in them. -/
def flattenConst : Const → Option (List Code)
  | .code c => flatten c
  | .noCode => none
  | .tuple items => flattenIn items
  | _ => some []

/-- The code objects of a sequence of constants. -/
def flattenIn : List Const → Option (List Code)
  | [] => some []
  | c :: cs => do return (← flattenConst c) ++ (← flattenIn cs)

end

mutual

/-- The totals of a code object; nothing when a nested code object is missing. -/
def stats : CodeOf Const → Option Stats
  | { instructions, constants, names, .. } =>
    (statsIn constants).map fun s =>
      { s with
        instructionBytes := instructions.length + s.instructionBytes
        constants := constants.length + s.constants
        names := names.length + s.names
        depth := s.depth + 1 }

/-- The totals of the code objects in a constant. -/
def statsConst : Const → Option Stats
  | .code c => (stats c).map fun s => { s with functions := s.functions + 1 }
  | .noCode => none
  | .tuple items => statsIn items
  | _ => some {}

/-- The totals of the code objects in a sequence. -/
def statsIn : List Const → Option Stats
  | [] => some {}
  | c :: cs => do return (← statsConst c).beside (← statsIn cs)

end

/-- The code objects in the constant pool. -/
def children (c : Code) : List (Option Code) :=
  c.constants.flatMap Const.children

/-- The way a code object is shown. -/
def render (c : Code) : String :=
  s!"<code {c.name}>"

/-! ## Parameters -/

/-- Bit of `flags`: excess positional arguments are collected. -/
def restFlag : UInt8 := 0x04

/-- Bit of `flags`: excess keyword arguments are collected. -/
def keywordsFlag : UInt8 := 0x08

/-- Whether excess positional arguments are collected. -/
def hasRest (c : Code) : Bool := c.flags &&& restFlag != 0

/-- Whether excess keyword arguments are collected. -/
def hasKeywords (c : Code) : Bool := c.flags &&& keywordsFlag != 0

/-- The number of parameters that positional arguments may fill. -/
def argCount (c : Code) : Int64 := c.positionalOnly + c.positional

/-- The variable names from one position up to another; a cut outside the names has no result. -/
def variablesBetween (c : Code) (start stop : Int64) : Except Failure (List String) :=
  if 0 ≤ start.toInt && start.toInt ≤ stop.toInt && stop.toInt ≤ c.variableNames.length then
    .ok ((c.variableNames.drop start.toInt.toNat).take (stop.toInt - start.toInt).toNat)
  else .error .crash

/-- The variable name at a position; there is no result outside the names. -/
def variableAt (c : Code) (i : Int64) : Except Failure String :=
  if 0 ≤ i.toInt then
    match c.variableNames[i.toInt.toNat]? with
    | some name => .ok name
    | none => .error .crash
  else .error .crash

/-- The declared parameters by the way they are passed. -/
structure ParameterNames where
  positionalOnly : List String
  positional : List String
  keywordOnly : List String
  deriving DecidableEq, Repr, Inhabited

/-- The parameters that positional arguments fill, in this order. -/
def ParameterNames.anyPositional (names : ParameterNames) : List String :=
  names.positionalOnly ++ names.positional

/-- The declared parameters. -/
def parameterNames (c : Code) : Except Failure ParameterNames := do
  let p := c.positionalOnly
  let u := p + c.positional
  let k := u + c.keywordOnly
  return ⟨← c.variablesBetween 0 p, ← c.variablesBetween p u, ← c.variablesBetween u k⟩

/-- The slot for excess positional arguments, if there is one. -/
def restName (c : Code) : Except Failure (Option String) :=
  if c.hasRest then some <$> c.variableAt (c.argCount + c.keywordOnly) else .ok none

/-- The slot for excess keyword arguments, if there is one. -/
def keywordsName (c : Code) : Except Failure (Option String) :=
  if c.hasKeywords then
    let i := c.argCount + c.keywordOnly
    some <$> c.variableAt (if c.hasRest then i + 1 else i)
  else .ok none

/-- The number of variable names taken by parameters and the two collecting slots. -/
def parameterSlots (c : Code) : Int64 :=
  let n := c.argCount + c.keywordOnly
  let n := if c.hasRest then n + 1 else n
  if c.hasKeywords then n + 1 else n

/-! ## Validation -/

/-- The names that occur before in the list, once for each repetition. -/
def repeated : List String → List String → List String
  | _, [] => []
  | seen, x :: xs => if seen.contains x then x :: repeated seen xs else repeated (x :: seen) xs

/-- Problems with the parameter counts. -/
def parameterProblems (c : Code) : Except Failure (List String) :=
  if c.positionalOnly < 0 || c.positional < 0 || c.keywordOnly < 0 then
    .ok ["negative parameter count"]
  else if c.parameterSlots.toInt > c.variableNames.length then
    .ok [s!"parameters need {c.parameterSlots.toInt} variable names " ++
      s!"({c.variableNames.length} given)"]
  else do
    let names ← c.variablesBetween 0 c.parameterSlots
    return (repeated [] names).map fun name => "duplicate parameter " ++ Text.quoted name

/-- Problems of one code object, apart from its nested ones. -/
def ownProblems (c : Code) : Except Failure (List String) := do
  let odd :=
    if c.instructions.length % 2 = 0 then []
    else [s!"instruction stream has odd length {c.instructions.length}"]
  let parameters ← c.parameterProblems
  let flags :=
    if c.flags &&& 0xF3 = 0 then []
    else ["unknown flags 0x" ++ String.ofList (Text.hexDigits 2 c.flags.toNat)]
  let constants := c.constants.zipIdx.filterMap fun (k, i) =>
    k.unsupported?.map fun t => s!"constant {i}: unsupported constant type {t}"
  return odd ++ parameters ++ flags ++ constants

mutual

/-- Everything wrong with the metadata of a code object and those nested in it. -/
def problems : CodeOf Const → Except Failure (List String)
  | c@{ constants := cs, .. } => do return (← ownProblems c) ++ (← problemsIn cs)

/-- What is wrong with the code objects in a constant, one entry for each of them. -/
def problemsConst : Const → Except Failure (List String)
  | .code c => do
    let ps ← problems c
    if ps.isEmpty then return []
    else return ["code " ++ Text.quoted c.name ++ ": " ++ errorList ps]
  | .noCode => .error .crash
  | .tuple items => problemsIn items
  | _ => .ok []

/-- What is wrong with the code objects in a sequence. -/
def problemsIn : List Const → Except Failure (List String)
  | [] => .ok []
  | c :: cs => do return (← problemsConst c) ++ (← problemsIn cs)

end

/-- Accepts a code object without problems and reports all problems of any other. -/
def validate (c : Code) : Except Failure Unit := do
  let ps ← problems c
  if ps.isEmpty then return () else throw (.plain (errorList ps))

end Code

/-- A construction of code objects: it may fail, and it hands out serial numbers. -/
abbrev Build := StateT Nat (Except Failure)

/-- The next serial number. -/
def Build.serial : Build Nat := do
  let n ← get
  set (n + 1)
  return n

end Wordcode
