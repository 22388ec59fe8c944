namespace Wordcode

/-! # Boxed text tables

A table is drawn with borders of `+` and `-`. The width of a cell is its number of characters
without colour sequences, so that coloured cells stay aligned. Rows may be ragged: a missing cell
is empty.
-/

namespace Table

/-- Where the blanks of a padded cell go. -/
inductive Alignment
  | left | right | center
  deriving DecidableEq, Repr, Inhabited

/-- The alignment with a given number; numbers outside the table mean left. -/
def Alignment.ofNumber : Int → Alignment
  | 1 => .right
  | 2 => .center
  | _ => .left

/-- Whether a character may stand between the bracket and the final letter of a colour sequence. -/
def isColorParameter (c : Char) : Bool :=
  c.isDigit || c == ';'

/-- The number of characters of the colour sequence that follows an escape character, if these
characters start with one: a bracket, parameters and the letter `m`. -/
def colorLength? : List Char → Option Nat
  | '[' :: cs =>
    match cs.dropWhile isColorParameter with
    | 'm' :: _ => some ((cs.takeWhile isColorParameter).length + 2)
    | _ => none
  | _ => none

/-- Removes colour sequences; `skip` counts the characters of a sequence still to be dropped. -/
def stripColorFrom : Nat → List Char → List Char
  | _, [] => []
  | skip + 1, _ :: cs => stripColorFrom skip cs
  | 0, c :: cs =>
    if c = '\x1b' then
      match colorLength? cs with
      | some n => stripColorFrom n cs
      | none => c :: stripColorFrom 0 cs
    else c :: stripColorFrom 0 cs

/-- The text without its colour sequences. -/
def stripColor (cs : List Char) : List Char :=
  stripColorFrom 0 cs

/-- The number of columns a text takes on a terminal that draws one column a character. -/
def displayWidth (cs : List Char) : Nat :=
  (stripColor cs).length

/-- A run of blanks. -/
def blanks (n : Nat) : List Char :=
  List.replicate n ' '

/-- Pads a cell to a width. An odd gap of a centred cell is larger on the right. -/
def pad (cell : List Char) (width : Nat) (alignment : Alignment) : List Char :=
  let gap := width - displayWidth cell
  match alignment with
  | .left => cell ++ blanks gap
  | .right => blanks gap ++ cell
  | .center => blanks (gap / 2) ++ cell ++ blanks (gap - gap / 2)

end Table

/-- A table: a header, which may be empty, and rows of any lengths. -/
structure Table where
  header : List String := []
  rows : List (List String) := []
  /-- Alignment of body cells; a column without an entry is left aligned. -/
  columnAlignment : List Table.Alignment := []
  /-- Alignment of header cells; a column without an entry is centred. -/
  headerAlignment : List Table.Alignment := []
  deriving Repr, Inhabited

namespace Table

/-- The number of columns. -/
def columns (t : Table) : Nat :=
  (t.header :: t.rows).foldl (fun n row => max n row.length) 0

/-- The widest cell of column `i`. -/
def widthAt (t : Table) (i : Nat) : Nat :=
  (t.header :: t.rows).foldl (fun n row => max n (displayWidth (row.getD i "").toList)) 0

/-- The widths of all columns. -/
def widths (t : Table) : List Nat :=
  (List.range t.columns).map t.widthAt

/-- A horizontal border. -/
def border (widths : List Nat) : List Char :=
  widths.flatMap (fun w => '+' :: List.replicate (w + 2) '-') ++ ['+']

/-- A row of cells. -/
def line (widths : List Nat) (row : List String) (alignments : List Alignment)
    (fallback : Alignment) : List Char :=
  widths.zipIdx.flatMap (fun (w, i) =>
    ['|', ' '] ++ pad (row.getD i "").toList w (alignments.getD i fallback) ++ [' ']) ++ ['|']

/-- The lines of a table, without line ends. -/
def lines (t : Table) : List (List Char) :=
  let widths := t.widths
  let head :=
    if t.header.isEmpty then []
    else [line widths t.header t.headerAlignment .center, border widths]
  [border widths] ++ head ++ t.rows.map (line widths · t.columnAlignment .left) ++ [border widths]

/-- The table as text, each line ended. -/
def render (t : Table) : String :=
  String.ofList (t.lines.flatMap (· ++ ['\n']))

end Table

end Wordcode
