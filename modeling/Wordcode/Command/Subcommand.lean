import Wordcode.Command.Flags
import Wordcode.Text.LetterCase

namespace Wordcode.Command

/-! # Subcommands

The subcommands of the command line, their flags, and how a command line selects one: the first
word that is neither a flag nor the value of one. At that point only the common flags are known, so
any other flag is taken to have a value.

* `select` finds the subcommand and the words that are left for it.
* `Subcommand.checkOperands` checks the number of operands.
-/

/-- A subcommand. -/
inductive Subcommand
  | run | dis | ops | compile | builtins | version
  /-- The subcommand that generates completion scripts. -/
  | completion
  /-- The subcommand that explains the others. -/
  | help
  deriving DecidableEq, Repr, Inhabited

/-- The name of the program. -/
def programName : String := "framevm"

/-- The flags that every subcommand has. -/
def commonFlags : List Flag :=
  [{ name := "config" }, { name := "log-level" }, { name := "no-color", kind := .truth }]

/-- The flag that asks for an explanation. -/
def helpFlag : Flag := { name := "help", short? := some 'h', kind := .truth }

namespace Subcommand

/-- All subcommands. -/
def all : List Subcommand := [run, dis, ops, compile, builtins, version, completion, help]

/-- The name of a subcommand. -/
def name : Subcommand → String
  | run => "run"
  | dis => "dis"
  | ops => "ops"
  | compile => "compile"
  | builtins => "builtins"
  | version => "version"
  | completion => "completion"
  | help => "help"

/-- The subcommand with a name. -/
def ofName? (s : String) : Option Subcommand := all.find? (·.name = s)

/-- The flags of a subcommand alone. -/
def ownFlags : Subcommand → List Flag
  | run =>
    [{ name := "output", short? := some 'o' }, { name := "max-depth", kind := .number },
      { name := "trace", kind := .truth }, { name := "set", kind := .texts }]
  | dis => [{ name := "func" }]
  | compile => [{ name := "out", short? := some 'o' }]
  | builtins => [{ name := "output", short? := some 'o' }]
  | _ => []

/-- All flags of a subcommand. -/
def flags (c : Subcommand) : List Flag := c.ownFlags ++ helpFlag :: commonFlags

/-- Checks the number of operands. -/
def checkOperands (c : Subcommand) (operands : List String) : Except Failure Unit :=
  let count := operands.length
  match c with
  | run | dis | ops | compile =>
    if count = 1 then .ok ()
    else .error (.plain s!"accepts 1 arg(s), received {count}")
  | builtins =>
    if count ≤ 1 then .ok ()
    else .error (.plain s!"accepts at most 1 arg(s), received {count}")
  | version =>
    match operands with
    | [] => .ok ()
    | word :: _ =>
      .error (.plain ("unknown command " ++ Text.quoted word ++ " for " ++
        Text.quoted (programName ++ " version")))
  | completion | help => .ok ()

end Subcommand

/-! ## Suggestions -/

/-- One row of the table of edit distances: `left` is the entry before it and `row` the row above,
without its first entry; `corner` is that first entry. -/
def distanceRow {α : Type} [DecidableEq α] (a : α) : Nat → Nat → List α → List Nat → List Nat
  | left, corner, b :: bs, above :: row =>
    let here := if a = b then corner else min (min left above) corner + 1
    here :: distanceRow a here above bs row
  | _, _, _, _ => []

/-- The number of insertions, deletions and replacements between two sequences. -/
def editDistance {α : Type} [DecidableEq α] (s t : List α) : Nat :=
  let first := List.range (t.length + 1)
  let last := s.foldl (fun row a =>
    match row with
    | [] => []
    | corner :: above => (corner + 1) :: distanceRow a (corner + 1) corner t above) first
  last.getLastD 0

/-- A text in lower case. -/
def lowerCase (s : String) : String := s.map Text.toLower

/-- Whether a word is close to a name: at most two edits away, or the start of it. -/
def isClose (word name : String) : Bool :=
  let word := lowerCase word
  editDistance word.toUTF8.toList name.toUTF8.toList ≤ 2 || word.toList.isPrefixOf name.toList

/-- The subcommands that may have been meant. -/
def suggestions (word : String) : String :=
  let names := (Subcommand.all.filter (· ≠ .help)).map (·.name)
  let close := names.filter (isClose word)
  if close.isEmpty then ""
  else "\n\nDid you mean this?\n" ++ String.join (close.map fun n => "\t" ++ n ++ "\n")

/-! ## Selection -/

/-- Whether a word is a flag that takes the next word as its value. -/
def takesNext (flags : List Flag) (word : String) : Bool :=
  let isTruth (f? : Option Flag) : Bool := (f?.map (·.isTruth)).getD false
  match word.toList with
  | '-' :: rest =>
    !rest.contains '=' &&
      (match rest with
        | '-' :: name => !isTruth (findFlag? flags (String.ofList name))
        | [c] => c.toNat < 128 && !isTruth (findShort? flags c)
        | _ => false)
  | _ => false

/-- The words that are neither flags nor values of flags. A flag that takes the last word ends the
search. -/
def bareWords (flags : List Flag) : List String → List String
  | [] => []
  | word :: rest =>
    if word = "--" then []
    else if takesNext flags word then
      match rest with
      | _ :: next :: rest => bareWords flags (next :: rest)
      | _ => []
    else if word = "" || word.startsWith "-" then bareWords flags rest
    else word :: bareWords flags rest

/-- The words without the first bare one that equals `name`. -/
def dropWord (flags : List Flag) (name : String) : List String → List String
  | [] => []
  | word :: rest =>
    if word = "--" then word :: rest
    else if takesNext flags word then
      match rest with
      | value :: rest => word :: value :: dropWord flags name rest
      | [] => [word]
    else if word = name && !word.startsWith "-" then rest
    else word :: dropWord flags name rest

/-- The subcommand that a command line selects, with the words left for it. -/
def select (words : List String) : Except Failure (Option Subcommand × List String) :=
  match bareWords commonFlags words with
  | [] => .ok (none, words)
  | name :: _ =>
    match Subcommand.ofName? name with
    | some c => .ok (some c, dropWord commonFlags name words)
    | none =>
      .error (.plain ("unknown command " ++ Text.quoted name ++ " for " ++
        Text.quoted programName ++ suggestions name))

end Wordcode.Command
