import Wordcode.Decimal.Reader
import Wordcode.Yaml.Cursor

namespace Wordcode.Yaml

/-! # Texts of scalars

The four ways to write a scalar: plain, in single quotes, in double quotes, and as an indented
block. Each reader starts after what introduces the scalar and returns its text and the place after
it.
-/

/-! ## Plain scalars -/

/-- The longest piece of a plain scalar without a gap. A colon in front of a gap ends it, and inside
brackets so do the characters that structure them. -/
def plainWord (inFlow : Bool) : List Char → List Char × List Char
  | [] => ([], [])
  | c :: cs =>
    if isBlank c || isBreak c || (c = ':' && atGap cs) ||
        (inFlow && [',', '?', '[', ']', '\x7b', '\x7d'].contains c) then
      ([], c :: cs)
    else
      let (word, rest) := plainWord inFlow cs
      (c :: word, rest)

/-- Reads a plain scalar. The flag of the result says that the scalar was followed by a line
break. -/
def readPlain (inFlow : Bool) (limit : Int) :
    Nat → Cursor → List Char → Gap → Except String (List Char × Cursor × Bool)
  | 0, c, text, gap => .ok (text, c, gap.broken)
  | fuel + 1, c, text, gap => do
    if c.atDocumentMarker || c.head? = some '#' then return (text, c, gap.broken)
    let (word, rest) := plainWord inFlow c.rest
    if word.isEmpty then return (text, c, gap.broken)
    let c := c.moveTo rest
    let text := text ++ gap.fold ++ word
    if rest.isEmpty || !atGap rest then return (text, c, false)
    let (gap, c) ← readGap limit c.rest c.mark {}
    if !inFlow && (c.mark.column : Int) < limit then return (text, c, gap.broken)
    readPlain inFlow limit fuel c text gap

/-! ## Quoted scalars -/

/-- The longest piece in single quotes without a gap; a quote is written twice. -/
def singleWord : List Char → List Char × List Char
  | [] => ([], [])
  | '\'' :: '\'' :: cs =>
    let (word, rest) := singleWord cs
    ('\'' :: word, rest)
  | c :: cs =>
    if c = '\'' || isBlank c || isBreak c then ([], c :: cs)
    else
      let (word, rest) := singleWord cs
      (c :: word, rest)

/-- The character for an escape of one letter. -/
def simpleEscape? (c : Char) : Option Char :=
  [('0', '\x00'), ('a', '\x07'), ('b', '\x08'), ('t', '\t'), ('\t', '\t'), ('n', '\n'),
    ('v', '\x0b'), ('f', '\x0c'), ('r', '\r'), ('e', '\x1b'), (' ', ' '), ('"', '"'),
    ('\'', '\''), ('\\', '\\'), ('N', '\u0085'), ('_', '\u00a0'), ('L', '\u2028'),
    ('P', '\u2029')].lookup c

/-- The number of hexadecimal digits of an escape. -/
def escapeWidth? (c : Char) : Option Nat :=
  [('x', 2), ('u', 4), ('U', 8)].lookup c

/-- The character with a code written in hexadecimal digits. -/
def escapedChar? (digits : List Char) (width : Nat) : Option Char :=
  if digits.length = width && digits.all (Decimal.isDigitOf 16) then
    let n := Decimal.ofDigits 16 digits
    if n.isValidChar then some (Char.ofNat n) else none
  else none

/-- The longest piece in double quotes without a gap. The flag of the result says that it ends with
an escaped line break. -/
def doubleWord (m : Mark) : Nat → List Char → Except String (List Char × List Char × Bool)
  | 0, cs => .ok ([], cs, false)
  | _, [] => .ok ([], [], false)
  | fuel + 1, c :: cs => do
    if c = '"' || isBlank c || isBreak c then return ([], c :: cs, false)
    else if c ≠ '\\' then
      let (word, rest, escaped) ← doubleWord m fuel cs
      return (c :: word, rest, escaped)
    else
      match cs with
      | [] => errorAt m "found unexpected end of stream"
      | e :: cs =>
        if isBreak e then return ([], e :: cs, true)
        match simpleEscape? e, escapeWidth? e with
        | some x, _ =>
          let (word, rest, escaped) ← doubleWord m fuel cs
          return (x :: word, rest, escaped)
        | none, some width =>
          match escapedChar? (cs.take width) width with
          | none => errorAt m "found invalid character code in an escape"
          | some x =>
            let (word, rest, escaped) ← doubleWord m fuel (cs.drop width)
            return (x :: word, rest, escaped)
        | none, none => errorAt m "found unknown escape character"

/-- Reads a scalar in quotes, from after the opening quote. -/
def readQuoted (quote : Char) : Nat → Cursor → List Char → Except String (List Char × Cursor)
  | 0, c, _ => errorAt c.mark "found unexpected end of stream"
  | fuel + 1, c, text => do
    if c.atDocumentMarker then errorAt c.mark "found unexpected document indicator"
    if c.rest.isEmpty then errorAt c.mark "found unexpected end of stream"
    let (word, rest, escaped) ←
      if quote = '"' then doubleWord c.mark c.rest.length c.rest
      else
        let (word, rest) := singleWord c.rest
        pure (word, rest, false)
    let c := c.moveTo rest
    let text := text ++ word
    if c.head? = some quote then return (text, c.advance)
    let c := if escaped then c.skipBreak else c
    let (gap, c) ← readGap 0 c.rest c.mark { broken := escaped }
    readQuoted quote fuel c (text ++ gap.fold)

/-! ## Block scalars -/

/-- What becomes of the line breaks at the end of a block. -/
inductive Chomping
  | strip | clip | keep
  deriving DecidableEq, Repr, Inhabited

/-- The header of a block: chomping and indentation, in either order. -/
structure BlockHeader where
  chomping : Chomping := .clip
  indentation? : Option Nat := none
  deriving DecidableEq, Repr, Inhabited

/-- Reads the indicators of a block header; an indentation of zero is refused. -/
def readHeader (m : Mark) (cs : List Char) : Except String (BlockHeader × List Char) := do
  let chomp? : Char → Option Chomping
    | '+' => some .keep
    | '-' => some .strip
    | _ => none
  let digit (c : Char) : Except String Nat :=
    if c = '0' then errorAt m "found an indentation indicator equal to 0"
    else .ok (c.toNat - '0'.toNat)
  match cs with
  | a :: rest =>
    match chomp? a with
    | some chomping =>
      match rest with
      | b :: rest' =>
        if b.isDigit then return ({ chomping, indentation? := some (← digit b) }, rest')
        else return ({ chomping }, rest)
      | [] => return ({ chomping }, [])
    | none =>
      if a.isDigit then
        let indentation? := some (← digit a)
        match rest with
        | b :: rest' =>
          match chomp? b with
          | some chomping => return ({ chomping, indentation? }, rest')
          | none => return ({ indentation? }, rest)
        | [] => return ({ indentation? }, [])
      else return ({}, cs)
  | [] => return ({}, [])

/-- Empty lines in front of a line of a block, and the widest indentation among them and that
line. -/
structure BlockLead where
  breaks : List Char := []
  widest : Nat := 0
  deriving DecidableEq, Repr, Inhabited

/-- Reads indentation and empty lines up to the next line of a block. Without a known indentation
all leading spaces count as one. -/
def readLead (indent? : Option Nat) :
    List Char → Mark → BlockLead → Except String (BlockLead × Cursor)
  | [], m, lead => .ok ({ lead with widest := max lead.widest m.column }, ⟨[], m⟩)
  | c :: cs, m, lead =>
    let inside := match indent? with
      | some n => decide (m.column < n)
      | none => true
    if inside && c = ' ' then readLead indent? cs (m.after c) lead
    else
      let lead := { lead with widest := max lead.widest m.column }
      if inside && c = '\t' then
        errorAt m "found a tab character where an indentation space is expected"
      else if isBreak c then
        readLead indent? cs (m.after c) { lead with breaks := lead.breaks ++ [c] }
      else .ok (lead, ⟨c :: cs, m⟩)

/-- A block under construction. -/
structure BlockText where
  text : List Char := []
  /-- The line break after the last line. -/
  lastBreak : List Char := []
  /-- Empty lines after it. -/
  breaks : List Char := []
  /-- Whether the last line starts with a blank. -/
  indented : Bool := false
  deriving DecidableEq, Repr, Inhabited

/-- Adds the lines of a block as long as they are indented by exactly the given amount. -/
def readLines (literal : Bool) (indent : Nat) :
    Nat → Cursor → BlockText → Except String (BlockText × Cursor)
  | 0, c, b => .ok (b, c)
  | fuel + 1, c, b => do
    if c.mark.column ≠ indent || c.rest.isEmpty then return (b, c)
    let startsBlank := (c.head?.map isBlank).getD false
    let joint :=
      if !literal && !b.indented && !startsBlank && b.lastBreak.head? = some '\n' then
        (if b.breaks.isEmpty then [' '] else [])
      else b.lastBreak
    let line := c.rest.takeWhile (!isBreak ·)
    let c := c.moveTo (c.rest.dropWhile (!isBreak ·))
    let lastBreak := c.rest.take 1
    let c := c.skipBreak
    let (lead, c) ← readLead (some indent) c.rest c.mark {}
    readLines literal indent fuel c
      { text := b.text ++ joint ++ b.breaks ++ line, lastBreak, breaks := lead.breaks
        indented := startsBlank }

/-- Reads a block, from after its first indicator, in a context that is indented by `parent`. -/
def readBlock (literal : Bool) (parent : Int) (c : Cursor) :
    Except String (List Char × Cursor) := do
  let (header, rest) ← readHeader c.mark c.rest
  let c := (c.moveTo rest).skipWhile isBlank
  let c := if c.head? = some '#' then c.skipWhile (!isBreak ·) else c
  if !(c.rest.isEmpty || (c.head?.map isBreak).getD false) then
    errorAt c.mark "did not find expected comment or line break"
  let c := c.skipBreak
  let fixed? := header.indentation?.map fun n => (max parent 0).toNat + n
  let (lead, c) ← readLead fixed? c.rest c.mark {}
  let indent := fixed?.getD (max lead.widest (max (parent + 1).toNat 1))
  let (b, c) ← readLines literal indent (c.rest.length + 1) c { breaks := lead.breaks }
  let tail := match header.chomping with
    | .strip => []
    | .clip => b.lastBreak
    | .keep => b.lastBreak ++ b.breaks
  return (b.text ++ tail, c)

end Wordcode.Yaml
