import Wordcode.Machine.Observer
import Wordcode.Paint

namespace Wordcode

/-! # Traces

The lines by which a traced run shows its events, indented by the depth of the frame.
-/

/-- A text with blanks up to a width, on its right. -/
def padRight (width : Nat) (s : String) : String :=
  s ++ String.ofList (List.replicate (width - s.length) ' ')

/-- A text with blanks up to a width, on its left. -/
def padLeft (width : Nat) (s : String) : String :=
  String.ofList (List.replicate (width - s.length) ' ') ++ s

/-- The line for an event. -/
def Event.traceLine (color : Bool) (e : Event) : String :=
  let indent (depth : Nat) := String.ofList (List.replicate (2 * (depth - 1)) ' ')
  match e with
  | step function offset op arg stack depth =>
    let place := padRight 12 function ++ " " ++ padLeft 4 (toString offset)
    indent depth ++ place ++ " " ++ Style.cyan.paint color op.name ++ s!" {arg} [stack {stack}]\n"
  | call function arguments keywords depth =>
    indent depth ++ Style.green.paint color "call" ++
      s!" {function}({arguments} args, {keywords} kwargs)\n"
  | leave function value depth =>
    indent depth ++ Style.green.paint color "return" ++ s!" {function} -> {value}\n"

end Wordcode
