import Wordcode.Listing
import Wordcode.Machine.Observer
import Wordcode.Store.Arithmetic
import Wordcode.Store.Subscript

namespace Wordcode

/-! # The state of a machine

Everything that a running program can change: the store, the globals, the printed text, and the
machine's own records. Programs run in `Exec`; value operations are lifted into it.
-/

/-- A code object prepared for running. -/
structure Loaded where
  code : Code
  listing : Listing
  /-- The values of the constants. -/
  constants : Array Value
  deriving Inhabited

/-- How much a machine logs. -/
inductive Verbosity
  | silent | debug | trace
  deriving DecidableEq, Repr, Inhabited

/-- Something a machine logs. -/
inductive LogMessage
  | runStarted (globals : Nat)
  | runFinished (typeName : String)
  | runFailed (error : String)
  | called (function : String) (depth : Nat)
  | returned (function : String) (depth : Nat)
  /-- A frame returned with values left on its stack. -/
  | leftover (function : String) (depth values : Nat)
  deriving DecidableEq, Repr, Inhabited

/-- Calls and returns are only logged by a machine that traces. -/
def LogMessage.needs : LogMessage → Verbosity
  | called .. | returned .. => .trace
  | _ => .debug

/-- What a field of a log entry holds. -/
inductive LogValue
  | text (s : String)
  | number (n : Nat)
  deriving DecidableEq, Repr, Inhabited

namespace LogMessage

def level : LogMessage → String
  | called .. | returned .. => "trace"
  | _ => "debug"

def text : LogMessage → String
  | runStarted _ => "run started"
  | runFinished _ => "run finished"
  | runFailed _ => "run failed"
  | called .. => "call"
  | returned .. => "return"
  | leftover .. => "operand stack not empty after return"

/-- What a message says besides its text. -/
def details : LogMessage → List (String × LogValue)
  | runStarted globals => [("globals", .number globals)]
  | runFinished typeName => [("result", .text typeName)]
  | runFailed error => [("error", .text error)]
  | called function depth | returned function depth =>
    [("function", .text function), ("depth", .number depth)]
  | leftover function depth values =>
    [("function", .text function), ("depth", .number depth), ("values", .number values)]

end LogMessage

/-- A logged message with the name of the code that was run last. -/
structure LogEntry where
  code? : Option String
  message : LogMessage
  deriving DecidableEq, Repr, Inhabited

/-- The fields of an entry in the log. -/
def LogEntry.fields (e : LogEntry) : List (String × LogValue) :=
  ("level", .text e.message.level) ::
    ((e.code?.map fun name => ("code", LogValue.text name)).toList ++ e.message.details ++
      [("message", .text e.message.text)])

/-- The state of a machine. -/
structure World where
  store : Store := {}
  globals : Bindings := []
  /-- Names that programs can read but not set. -/
  builtins : Bindings := []
  /-- Code objects that were prepared, by their serial numbers. -/
  loaded : List (Nat × Loaded) := []
  /-- What the active frames are executing, innermost first. -/
  sites : List Fault.Site := []
  running : Bool := false
  /-- Instructions since the last sample was due. -/
  stepCount : Nat := 0
  /-- The printed text. -/
  output : String := ""
  events : Array Event := #[]
  counts : EventCounts := {}
  log : Array LogEntry := #[]
  logName? : Option String := none
  deriving Inhabited

/-- A computation of a machine. -/
abbrev Exec := EStateM Failure World

/-- Runs a value operation on the store. -/
def Exec.lift {α : Type} (x : Op α) : Exec α := fun w =>
  let s := w.store
  let w := { w with store := default }
  match x s with
  | .ok a s => .ok a { w with store := s }
  | .error e s => .error e { w with store := s }

instance : MonadLift Op Exec where
  monadLift := Exec.lift

namespace Exec

/-- Fails with a fault. -/
def raise {α : Type} (kind : Fault.Kind) (message : String) : Exec α :=
  throw (.raise kind message)

def typeError {α : Type} (message : String) : Exec α := raise .type message
def valueError {α : Type} (message : String) : Exec α := raise .value message

/-- An operation that does not touch the state. -/
def ofExcept {α : Type} : Except Failure α → Exec α
  | .ok a => pure a
  | .error e => throw e

/-- Prints a text. -/
def print (text : String) : Exec Unit :=
  modify fun w => { w with output := w.output ++ text }

/-- Replaces an error by another one; what breaks off the run passes through. -/
def orError {α : Type} (x : Exec α) (e : Failure) : Exec α :=
  tryCatch x fun inner => throw (if inner.isError then e else inner)

end Exec

/-- A way to call a value with positional arguments. A callable of the embedding program may return
nothing. -/
abbrev Callback := Value → List Value → Exec (Option Value)

/-- Calls a value whose result is looked at, so that it has to be there. -/
def Callback.value (call : Callback) (f : Value) (args : List Value) : Exec Value := do
  match ← call f args with
  | some v => return v
  | none => throw .crash

end Wordcode
