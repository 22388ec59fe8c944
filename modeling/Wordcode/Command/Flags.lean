import Wordcode.Decimal.Reader
import Wordcode.Fault
import Wordcode.Text.Quoted

namespace Wordcode.Command

/-! # Flags

The words of a command line: flags, their values, and operands. A flag is written `--name value`,
`--name=value` or, with a shorthand, `-n value`, `-nvalue` or `-n=value`. A truth flag needs no
value, and several shorthands of such flags can share a dash. Flags and operands may be mixed;
everything after `--` is an operand.

* `readWord` says what a single word is.
* `Arguments.parse` reads all words.
-/

/-- What the value of a flag has to be. -/
inductive FlagKind
  | text
  | truth
  | number
  /-- A text; every use of the flag adds one. -/
  | texts
  deriving DecidableEq, Repr, Inhabited

/-- A flag. -/
structure Flag where
  name : String
  short? : Option Char := none
  kind : FlagKind := .text
  deriving DecidableEq, Repr, Inhabited

/-- The truth value that a text stands for. -/
def readTruth? (text : String) : Option Bool :=
  if ["1", "t", "T", "TRUE", "true", "True"].contains text then some true
  else if ["0", "f", "F", "FALSE", "false", "False"].contains text then some false
  else none

namespace Flag

/-- A flag as messages show it. -/
def shown (f : Flag) : String :=
  (match f.short? with
    | some c => "-" ++ c.toString ++ ", "
    | none => "") ++ "--" ++ f.name

/-- A flag that needs no value stands for true on its own. -/
def isTruth (f : Flag) : Bool := f.kind = .truth

/-- What is wrong with a value, if anything. -/
def problem? (f : Flag) (value : String) : Option String :=
  match f.kind with
  | .text | .texts => none
  | .truth =>
    match readTruth? value with
    | some _ => none
    | none => some ("strconv.ParseBool: parsing " ++ Text.quoted value ++ ": invalid syntax")
  | .number =>
    match Decimal.readMarkedInt value with
    | .value _ => none
    | .outOfRange =>
      some ("strconv.ParseInt: parsing " ++ Text.quoted value ++ ": value out of range")
    | .malformed => some ("strconv.ParseInt: parsing " ++ Text.quoted value ++ ": invalid syntax")

/-- A flag with a value that suits it. -/
def assign (f : Flag) (value : String) : Except Failure (String × String) :=
  match f.problem? value with
  | none => .ok (f.name, value)
  | some problem =>
    .error (.plain ("invalid argument " ++ Text.quoted value ++ " for " ++ Text.quoted f.shown ++
      " flag: " ++ problem))

end Flag

/-- The flag with a name. -/
def findFlag? (flags : List Flag) (name : String) : Option Flag := flags.find? (·.name = name)

/-- The flag with a shorthand. -/
def findShort? (flags : List Flag) (c : Char) : Option Flag := flags.find? (·.short? = some c)

/-! ## Words -/

/-- What a word of a command line is. -/
inductive WordKind
  | operand
  /-- Only operands follow. -/
  | finish
  /-- Flags with their values. -/
  | flags (given : List (String × String))
  /-- Flags with their values, and one whose value is the next word; the text says what is wrong
  if there is none. -/
  | awaiting (given : List (String × String)) (flag : Flag) (missing : String)
  deriving Repr, Inhabited

/-- Puts a flag before those of a word. -/
def WordKind.add (given : String × String) : WordKind → WordKind
  | flags more => flags (given :: more)
  | awaiting more f missing => awaiting (given :: more) f missing
  | w => w

/-- Reads a flag by its name, which follows two dashes. -/
def readLong (flags : List Flag) (body : List Char) : Except Failure WordKind :=
  let word := "--" ++ String.ofList body
  match body with
  | [] => .ok .finish
  | '-' :: _ | '=' :: _ => .error (.plain ("bad flag syntax: " ++ word))
  | _ =>
    let name := String.ofList (body.takeWhile (· ≠ '='))
    match findFlag? flags name with
    | none => .error (.plain ("unknown flag: --" ++ name))
    | some f =>
      match body.dropWhile (· ≠ '=') with
      | _ :: value => return .flags [← f.assign (String.ofList value)]
      | [] =>
        if f.isTruth then return .flags [← f.assign "true"]
        else .ok (.awaiting [] f ("flag needs an argument: " ++ word))

/-- The shorthands that test runners use start with this. -/
def reservedShorts : List Char := "test.".toList

/-- A shorthand as messages show it: the first byte of its encoding. -/
def shownShort (c : Char) : String :=
  Text.quotedSymbol (Char.ofNat ((c.toString.toUTF8.toList.headD 0).toNat))

/-- Reads shorthands, which follow a single dash. -/
def readShorts (flags : List Flag) : List Char → Except Failure WordKind
  | [] => .ok (.flags [])
  | c :: rest =>
    if reservedShorts.isPrefixOf (c :: rest) then .ok (.flags [])
    else
      let place := shownShort c ++ " in -" ++ String.ofList (c :: rest)
      match findShort? flags c with
      | none => .error (.plain ("unknown shorthand flag: " ++ place))
      | some f =>
        match rest with
        | '=' :: v :: value => return .flags [← f.assign (String.ofList (v :: value))]
        | _ =>
          if f.isTruth then do
            let given ← f.assign "true"
            return (← readShorts flags rest).add given
          else if rest.isEmpty then .ok (.awaiting [] f ("flag needs an argument: " ++ place))
          else return .flags [← f.assign (String.ofList rest)]

/-- Reads a word. A dash on its own is an operand. -/
def readWord (flags : List Flag) (word : String) : Except Failure WordKind :=
  match word.toList with
  | '-' :: '-' :: body => readLong flags body
  | '-' :: c :: rest => readShorts flags (c :: rest)
  | _ => .ok .operand

/-! ## Command lines -/

/-- What a command line gives: flags with their values in order, and operands. -/
structure Arguments where
  given : List (String × String) := []
  operands : List String := []
  deriving DecidableEq, Repr, Inhabited

namespace Arguments

/-- Reads all words of a command line. The first word that is wrong decides the error. -/
def parse (flags : List Flag) : List String → Except Failure Arguments
  | [] => .ok {}
  | word :: rest => do
    match ← readWord flags word with
    | .operand =>
      let a ← parse flags rest
      return { a with operands := word :: a.operands }
    | .finish => return { operands := rest }
    | .flags given =>
      let a ← parse flags rest
      return { a with given := given ++ a.given }
    | .awaiting given f missing =>
      match rest with
      | [] => throw (.plain missing)
      | value :: rest =>
        let last ← f.assign value
        let a ← parse flags rest
        return { a with given := given ++ last :: a.given }

/-- The value of a flag that was used last, if it was used. -/
def text? (a : Arguments) (name : String) : Option String := a.given.reverse.lookup name

/-- The values of all uses of a flag. -/
def texts (a : Arguments) (name : String) : List String :=
  (a.given.filter (·.1 = name)).map (·.2)

/-- Whether a truth flag is on. -/
def isOn (a : Arguments) (name : String) : Bool := ((a.text? name).bind readTruth?).getD false

end Arguments

end Wordcode.Command
