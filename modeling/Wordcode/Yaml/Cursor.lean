import Wordcode.Fault

namespace Wordcode.Yaml

/-! # Positions in a YAML text

A cursor is the text still to be read and the place where it starts. Line breaks are normalised
before reading, so a line ends with a line feed or with one of the two Unicode separators.
-/

/-- A place in a text, counted from zero. -/
structure Mark where
  line : Nat := 0
  column : Nat := 0
  index : Nat := 0
  deriving DecidableEq, Repr, Inhabited

/-- What is left of a text, and where it starts. -/
structure Cursor where
  rest : List Char
  mark : Mark := {}
  deriving DecidableEq, Repr, Inhabited

/-! ## Character classes -/

def isBlank (c : Char) : Bool := c = ' ' || c = '\t'

def isBreak (c : Char) : Bool := c = '\n' || c = '\u2028' || c = '\u2029'

/-- Letters and digits of names, in the ASCII range. -/
def isNameChar (c : Char) : Bool := c.isAlphanum || c = '_' || c = '-'

/-- Whether a text is over, or goes on with a blank or a line break. -/
def atGap : List Char → Bool
  | [] => true
  | c :: _ => isBlank c || isBreak c

/-! ## Moving -/

/-- The place after a character. -/
def Mark.after (m : Mark) (c : Char) : Mark :=
  if isBreak c then { line := m.line + 1, column := 0, index := m.index + 1 }
  else { m with column := m.column + 1, index := m.index + 1 }

namespace Cursor

/-- Moves on by one character. -/
def advance (c : Cursor) : Cursor :=
  match c.rest with
  | [] => c
  | x :: rest => { rest, mark := c.mark.after x }

/-- Moves on by a number of characters of the same line. -/
def skip (c : Cursor) (n : Nat) : Cursor :=
  { rest := c.rest.drop n
    mark := { c.mark with column := c.mark.column + n, index := c.mark.index + n } }

/-- Moves on to a later place of the same line, given by what is left there. -/
def moveTo (c : Cursor) (rest : List Char) : Cursor :=
  let n := c.rest.length - rest.length
  { rest, mark := { c.mark with column := c.mark.column + n, index := c.mark.index + n } }

/-- Moves over the characters of the same line that pass a test. -/
def skipWhile (c : Cursor) (p : Char → Bool) : Cursor :=
  c.moveTo (c.rest.dropWhile p)

/-- Moves over a line break, if there is one here. -/
def skipBreak (c : Cursor) : Cursor :=
  match c.rest with
  | x :: _ => if isBreak x then c.advance else c
  | [] => c

/-- The character here. -/
def head? (c : Cursor) : Option Char := c.rest.head?

/-- Whether a line starts here with three given characters that stand alone. -/
def atMarker (c : Cursor) (mark : Char) : Bool :=
  c.mark.column = 0 && c.rest.take 3 = [mark, mark, mark] && atGap (c.rest.drop 3)

/-- Whether a line starts here that begins or ends a document. -/
def atDocumentMarker (c : Cursor) : Bool := c.atMarker '-' || c.atMarker '.'

end Cursor

/-- An error, with the line it is about. -/
def errorAt {α : Type} (m : Mark) (message : String) : Except String α :=
  .error s!"yaml: line {m.line + 1}: {message}"

/-! ## Gaps between words -/

/-- Blanks and line breaks between two words of a scalar. -/
structure Gap where
  blanks : List Char := []
  /-- Whether the gap goes over the end of a line. -/
  broken : Bool := false
  /-- The first line break; empty when the end of the line was escaped. -/
  first : List Char := []
  /-- The line breaks after the first one. -/
  more : List Char := []
  deriving DecidableEq, Repr, Inhabited

/-- What a gap stands for: a single line break is folded into a space, and of several ones the first
is dropped. -/
def Gap.fold (g : Gap) : List Char :=
  if !g.broken then g.blanks
  else if g.first.head? = some '\n' then (if g.more.isEmpty then [' '] else g.more)
  else g.first ++ g.more

/-- Reads a gap. After a line break, tabs in front of the column `limit` are refused. -/
def readGap (limit : Int) : List Char → Mark → Gap → Except String (Gap × Cursor)
  | [], m, g => .ok (g, ⟨[], m⟩)
  | c :: cs, m, g =>
    if isBlank c then
      if g.broken && m.column < limit && c = '\t' then
        errorAt m "found a tab character that violates indentation"
      else
        readGap limit cs (m.after c) (if g.broken then g else { g with blanks := g.blanks ++ [c] })
    else if isBreak c then
      readGap limit cs (m.after c)
        (if g.broken then { g with more := g.more ++ [c] }
         else { g with broken := true, first := [c], blanks := [] })
    else .ok (g, ⟨c :: cs, m⟩)

end Wordcode.Yaml
