import Wordcode.Paint

namespace Wordcode

/-! # Faults

What goes wrong while decoding and running code. A *fault* has a kind, a message and, once a frame
has recorded it, the depth of that frame and the chain of active frames. A *failure* is what an
operation ends with instead of a value: a fault, possibly behind a label, or an error without a
kind.

* `Failure.fault?` finds the fault of a failure.
* `Failure.record` stores depth and trace on that fault, once.
-/

namespace Fault

/-- The category of a fault. -/
inductive Kind
  /-- A name that no scope binds. -/
  | name
  /-- A variable that has no value yet. -/
  | unboundLocal
  /-- An instruction that needs more operands than the stack holds. -/
  | stackUnderflow
  /-- An instruction stream that cannot be decoded or runs off its end. -/
  | malformedCode
  /-- Too many positional arguments. -/
  | arity
  /-- A parameter with neither a value nor a default. -/
  | missingArgument
  /-- A keyword argument that matches no parameter. -/
  | unexpectedKeyword
  /-- Operands that do not fit an operation. -/
  | type
  /-- An operand of the right type with an invalid value. -/
  | value
  /-- A sequence index out of range. -/
  | index
  /-- A mapping key that is missing. -/
  | key
  /-- A division or remainder by zero. -/
  | zeroDivision
  /-- Too many nested frames. -/
  | recursion
  /-- An observer that stopped the run. -/
  | halted
  /-- A method that a value does not have. -/
  | missingMethod
  /-- An error of a host function that is no fault itself. -/
  | runtime
  /-- A number outside the table. -/
  | other (number : Int)
  deriving DecidableEq, Repr, Inhabited

namespace Kind

/-- The kinds of the table; the kind at position `i` has number `i + 1`. -/
def all : List Kind :=
  [name, unboundLocal, stackUnderflow, malformedCode, arity, missingArgument, unexpectedKeyword,
    type, value, index, key, zeroDivision, recursion, halted, missingMethod, runtime]

/-- The number of a kind. -/
def number : Kind → Int
  | name => 1
  | unboundLocal => 2
  | stackUnderflow => 3
  | malformedCode => 4
  | arity => 5
  | missingArgument => 6
  | unexpectedKeyword => 7
  | type => 8
  | value => 9
  | index => 10
  | key => 11
  | zeroDivision => 12
  | recursion => 13
  | halted => 14
  | missingMethod => 15
  | runtime => 16
  | other n => n

/-- The kind with a given number. -/
def ofNumber (n : Int) : Kind :=
  (all.find? (·.number = n)).getD (other n)

/-- The words for a kind. -/
def label : Kind → String
  | name => "name error"
  | unboundLocal => "unbound local error"
  | stackUnderflow => "stack underflow"
  | malformedCode => "malformed code"
  | arity => "arity error"
  | missingArgument => "missing argument"
  | unexpectedKeyword => "unexpected keyword argument"
  | type => "type error"
  | value => "value error"
  | index => "index error"
  | key => "key error"
  | zeroDivision => "zero division error"
  | recursion => "recursion error"
  | halted => "halted"
  | missingMethod => "attribute error"
  | runtime => "runtime error"
  | other _ => "error"

end Kind

/-- The instruction that a frame was executing. -/
structure Site where
  function : String
  file : String
  offset : Int
  opname : String
  deriving DecidableEq, Repr, Inhabited

/-- One line of a trace. -/
def Site.render (s : Site) : String :=
  let name := if s.function = "" then "<anonymous>" else s.function
  s!"at {name} ({s.file}@{s.offset} {s.opname})"

/-- A trace, innermost frame first; nothing for an empty trace. -/
def renderTrace (sites : List Site) : String :=
  if sites.isEmpty then ""
  else "Stack trace:\n" ++ String.join (sites.map fun s => "  " ++ s.render ++ "\n")

end Fault

/-- A categorised error. A fault raised by a value operation has an empty trace; the frame in which
it surfaces records its depth and the active frames. -/
structure Fault where
  kind : Fault.Kind
  message : String
  depth : Int := 0
  trace : List Fault.Site := []
  deriving DecidableEq, Repr, Inhabited

namespace Fault

/-- The kind and the message. -/
def text (f : Fault) : String :=
  f.kind.label ++ ": " ++ f.message

/-- The message for a person: kind, message and, when recorded, depth and trace. -/
def friendly (f : Fault) (color : Bool) : String :=
  (Style.boldColor 31).paint color f.kind.label ++ ": " ++ f.message ++ "\n" ++
    (if f.trace.isEmpty then ""
     else Style.yellow.paint color s!"frame depth {f.depth}" ++ "\n" ++ renderTrace f.trace)

end Fault

/-- What an operation ends with instead of a value. -/
inductive Failure
  /-- A fault, and the failure it was made from. -/
  | fault (f : Fault) (cause : Option Failure)
  /-- An error without a kind. -/
  | plain (text : String)
  /-- A failure that a caller has labelled. -/
  | within (label : String) (inner : Failure)
  /-- An operation that has no result and breaks off whatever contains it: a length that does not
  fit, or a code object that is not there. -/
  | crash
  /-- The step limit ran out. -/
  | exhausted
  deriving Repr, Inhabited

namespace Failure

/-- A fault without a cause. -/
def raise (kind : Fault.Kind) (message : String) : Failure :=
  .fault { kind, message } none

/-- The text of a failure. -/
def text : Failure → String
  | fault f _ => f.text
  | plain t => t
  | within label inner => label ++ ": " ++ inner.text
  | crash => "operation has no result"
  | exhausted => "step limit exceeded"

/-- A fault whose message is the text of its cause. -/
def wrap (kind : Fault.Kind) (cause : Failure) : Failure :=
  .fault { kind, message := cause.text } (some cause)

/-- The first fault of a failure, looking behind labels. -/
def fault? : Failure → Option Fault
  | fault f _ => some f
  | within _ inner => inner.fault?
  | _ => none

/-- The failure and everything behind it, outermost first. -/
def chain : Failure → List Failure
  | fault f none => [fault f none]
  | fault f (some cause) => fault f (some cause) :: cause.chain
  | within label inner => within label inner :: inner.chain
  | e => [e]

/-- Whether some fault in the chain has the given kind. -/
def hasKind (e : Failure) (kind : Fault.Kind) : Bool :=
  e.chain.any fun
    | fault f _ => f.kind = kind
    | _ => false

/-- Whether the given plain error is in the chain. -/
def hasCause (e : Failure) (cause : String) : Bool :=
  e.chain.any fun
    | plain t => t = cause
    | _ => false

/-- Whether a failure is an error that a caller may handle; the others break off the run. -/
def isError : Failure → Bool
  | crash | exhausted => false
  | _ => true

/-- Records depth and trace on the first fault, unless that was done before. An error without a
fault becomes the cause of a runtime fault. -/
def record (depth : Int) (trace : List Fault.Site) (e : Failure) : Failure :=
  match e with
  | crash => crash
  | exhausted => exhausted
  | _ =>
    if e.fault?.isSome then go e
    else .fault { kind := .runtime, message := e.text, depth, trace } (some e)
where
  /-- Records on the first fault of a failure that has one. -/
  go : Failure → Failure
    | fault f cause =>
      if f.trace.isEmpty then fault { f with depth, trace } cause else fault f cause
    | within label inner => within label (go inner)
    | e => e

end Failure

/-- The text of several errors reported together. -/
def errorList (texts : List String) : String :=
  (if texts.length = 1 then "1 error" else s!"{texts.length} errors") ++ " occurred:" ++
    String.join (texts.map fun t => "\n\t* " ++ t) ++ "\n\n"

end Wordcode
