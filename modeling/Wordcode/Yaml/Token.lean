import Wordcode.Yaml.Input
import Wordcode.Yaml.ScalarText

namespace Wordcode.Yaml

/-! # Tokens

A YAML text as a sequence of tokens. Indentation becomes start and end tokens of block collections.
Whether something is the key of a mapping shows only at the colon after it, so a possible key is
remembered, and the tokens that introduce it are inserted in front of it when the colon comes.

* `Tokens.scan` reads as many tokens as possible; an error ends them.
-/

/-- How a scalar was written. -/
inductive ScalarStyle
  | plain
  /-- In quotes or as a block. -/
  | marked
  deriving DecidableEq, Repr, Inhabited

/-- A kind of token. -/
inductive Token.Kind
  | streamEnd
  | version (major minor : Nat)
  | tagHandle (handle expansion : String)
  | documentStart | documentEnd
  | blockSequence | blockMapping | blockEnd
  | flowSequence | flowSequenceEnd | flowMapping | flowMappingEnd | flowEntry
  | blockEntry | key | value
  | alias (name : String)
  | anchor (name : String)
  | tag (handle suffix : String)
  | scalar (text : String) (style : ScalarStyle)
  deriving DecidableEq, Repr, Inhabited

/-- A token and the line it starts in. -/
structure Token where
  kind : Token.Kind
  line : Nat
  deriving DecidableEq, Repr, Inhabited

/-- Something that may turn out to be a key. -/
structure PossibleKey where
  /-- A required key must be followed by a colon. -/
  required : Bool
  /-- The position of its first token. -/
  position : Nat
  mark : Mark
  deriving DecidableEq, Repr, Inhabited

/-- The state of a scan. -/
structure Scanner where
  here : Cursor
  /-- The column of the innermost block collection, `-1` outside of any. -/
  indent : Int := -1
  /-- The columns of the collections around it, innermost first. -/
  outer : List Int := []
  /-- Whether a key may start here. -/
  keyAllowed : Bool := true
  /-- The possible key of the innermost bracket, and of those around it. -/
  key? : Option PossibleKey := none
  outerKeys : List (Option PossibleKey) := []
  tokens : Array Token := #[]
  done : Bool := false
  /-- Whether something unreadable follows the text. -/
  cut : Bool := false
  /-- The length of the part in which every line loses its first character. -/
  doubled : Nat := 0
  deriving Inhabited

namespace Scanner

/-- Whether the scan is inside brackets. -/
def inFlow (s : Scanner) : Bool := !s.outerKeys.isEmpty

/-- Appends a token. -/
def push (s : Scanner) (kind : Token.Kind) (mark : Mark) : Scanner :=
  { s with tokens := s.tokens.push ⟨kind, mark.line⟩ }

/-- Inserts a token in front of others. -/
def insert (s : Scanner) (position : Nat) (kind : Token.Kind) (mark : Mark) : Scanner :=
  { s with tokens := s.tokens.insertIdxIfInBounds position ⟨kind, mark.line⟩ }

/-! ## Indentation -/

/-- How many collections may be nested, of those in brackets and of the others. -/
def maxDepth : Nat := 10000

/-- Starts a block collection at a column, unless one is open there. Its token goes to the given
position. -/
def roll (s : Scanner) (column position : Nat) (kind : Token.Kind) (mark : Mark) :
    Except String Scanner :=
  if s.inFlow || (column : Int) ≤ s.indent then .ok s
  else if maxDepth ≤ s.outer.length then errorAt mark "exceeded max depth of 10000"
  else .ok { s.insert position kind mark with indent := column, outer := s.indent :: s.outer }

/-- Ends the block collections to the right of a column. -/
def unroll (s : Scanner) (column : Int) : Scanner :=
  if s.inFlow then s
  else
    let closed := (s.indent :: s.outer).takeWhile (column < ·)
    match (s.indent :: s.outer).drop closed.length with
    | indent :: outer =>
      { s with
        indent, outer
        tokens := s.tokens ++ closed.map fun _ => (⟨.blockEnd, s.here.mark.line⟩ : Token) }
    | [] => s

/-! ## Possible keys -/

/-- The longest key. -/
def maxKeyLength : Nat := 1024

/-- Drops the possible key; a required one must not be dropped. -/
def dropKey (s : Scanner) : Except String Scanner :=
  match s.key? with
  | some k =>
    if k.required then errorAt k.mark "could not find expected ':'"
    else .ok { s with key? := none }
  | none => .ok s

/-- Notes that a key may start here. -/
def saveKey (s : Scanner) : Except String Scanner :=
  if s.keyAllowed then do
    let required := !s.inFlow && s.indent = s.here.mark.column
    let s ← s.dropKey
    return { s with key? := some ⟨required, s.tokens.size, s.here.mark⟩ }
  else .ok s

/-- The possible key, if it is still on this line and not too long. -/
def currentKey (s : Scanner) : Except String (Option PossibleKey) :=
  match s.key? with
  | none => .ok none
  | some k =>
    if k.mark.line < s.here.mark.line || k.mark.index + maxKeyLength < s.here.mark.index then
      if k.required then errorAt k.mark "could not find expected ':'" else .ok none
    else .ok (some k)

/-! ## Single tokens -/

/-- Takes a token of a given width. -/
def take (s : Scanner) (kind : Token.Kind) (width : Nat) : Scanner :=
  { s.push kind s.here.mark with here := s.here.skip width }

/-! ## Comments and blanks -/

/-- How far the scan looks for a comment. -/
def commentReach : Nat := 512

/-- Whether the lines after a comment go on with another one. -/
def commentFollows (cs : List Char) : Bool :=
  ((cs.take (commentReach - 1)).dropWhile fun c => isBlank c || isBreak c).head? = some '#'

/-- Skips the comment that ends the line of a token. -/
def lineComment (s : Scanner) : Scanner :=
  let blanks := s.here.rest.takeWhile isBlank
  match s.here.rest.drop blanks.length with
  | '#' :: cs =>
    if blanks.length < commentReach then
      { s with here := s.here.moveTo (cs.dropWhile (!isBreak ·)) }
    else s
  | _ => s

/-- What is being skipped. -/
inductive Filler
  | blank
  | comment
  /-- The blanks in front of a comment that follows another one. -/
  | margin
  deriving DecidableEq, Repr, Inhabited

/-- Skips blanks, comments and line breaks. A new line may start a key outside of brackets; where a
key may start, tabs are no blanks, except in front of a comment that follows another one. -/
def skipFrom (inFlow : Bool) (doubled : Nat) :
    List Char → Mark → Filler → Bool → Cursor × Bool
  | [], m, _, allowed => (⟨[], m⟩, allowed)
  | c :: cs, m, filler, allowed =>
    match filler with
    | .margin =>
      skipFrom inFlow doubled cs (m.after c) (if c = '#' then .comment else .margin) allowed
    | .comment =>
      if !isBreak c then skipFrom inFlow doubled cs (m.after c) .comment allowed
      else if commentFollows cs then skipFrom inFlow doubled cs (m.after c) .margin allowed
      else skipFrom inFlow doubled cs (m.after c) .blank (allowed || !inFlow)
    | .blank =>
      if m.column = 0 && 0 < doubled && (m.index = 0 || m.index + 4 ≤ doubled) then
        skipFrom inFlow doubled cs { m with column := 1, index := m.index + 1 } .blank allowed
      else if isBreak c then skipFrom inFlow doubled cs (m.after c) .blank (allowed || !inFlow)
      else if c = '#' then skipFrom inFlow doubled cs (m.after c) .comment allowed
      else if c = ' ' || (c = '\t' && (inFlow || !allowed)) then
        skipFrom inFlow doubled cs (m.after c) .blank allowed
      else (⟨c :: cs, m⟩, allowed)

/-! ## Indicators -/

/-- Ends the stream. -/
def streamEnd (s : Scanner) : Except String Scanner := do
  let s ← (s.unroll (-1)).dropKey
  return { s.push .streamEnd s.here.mark with keyAllowed := false, done := true }

/-- A line that begins or ends a document. -/
def documentMarker (s : Scanner) (kind : Token.Kind) : Except String Scanner := do
  let s ← (s.unroll (-1)).dropKey
  return { s.take kind 3 with keyAllowed := false }

/-- An opening bracket. -/
def openFlow (s : Scanner) (kind : Token.Kind) : Except String Scanner := do
  let s ← s.saveKey
  if maxDepth ≤ s.outerKeys.length then errorAt s.here.mark "exceeded max depth of 10000"
  return { s.take kind 1 with key? := none, outerKeys := s.key? :: s.outerKeys, keyAllowed := true }

/-- A closing bracket. -/
def closeFlow (s : Scanner) (kind : Token.Kind) : Except String Scanner := do
  let s ← s.dropKey
  let s := match s.outerKeys with
    | key? :: outerKeys => { s with key?, outerKeys }
    | [] => s
  return { s.take kind 1 with keyAllowed := false }

/-- A comma. -/
def flowEntry (s : Scanner) : Except String Scanner := do
  let s ← s.dropKey
  return { s.take .flowEntry 1 with keyAllowed := true }

/-- Starts a block collection here for an indicator, which needs a place where a key may start. -/
def rollHere (s : Scanner) (kind : Token.Kind) (message : String) : Except String Scanner :=
  if s.inFlow then .ok s
  else if !s.keyAllowed then errorAt s.here.mark message
  else s.roll s.here.mark.column s.tokens.size kind s.here.mark

/-- A dash. -/
def blockEntry (s : Scanner) : Except String Scanner := do
  let s ← s.rollHere .blockSequence "block sequence entries are not allowed in this context"
  let s ← s.dropKey
  return { s.take .blockEntry 1 with keyAllowed := true }

/-- A question mark. -/
def explicitKey (s : Scanner) : Except String Scanner := do
  let s ← s.rollHere .blockMapping "mapping keys are not allowed in this context"
  let s ← s.dropKey
  return { s.take .key 1 with keyAllowed := !s.inFlow }

/-- A colon. -/
def value (s : Scanner) : Except String Scanner := do
  match ← s.currentKey with
  | some k =>
    let s ← (s.insert k.position .key k.mark).roll k.mark.column k.position .blockMapping k.mark
    return { s.take .value 1 with key? := none, keyAllowed := false }
  | none =>
    let s ← { s with key? := none }.rollHere .blockMapping
      "mapping values are not allowed in this context"
    return { s.take .value 1 with keyAllowed := !s.inFlow }

/-- An anchor or an alias. -/
def reference (s : Scanner) (kind : String → Token.Kind) : Except String Scanner := do
  let s ← s.saveKey
  let start := s.here.mark
  let c := s.here.advance
  let name := c.rest.takeWhile isNameChar
  let c := c.skip name.length
  let stops := ['?', ':', ',', ']', '\x7d', '%', '@', '\x60']
  if name.isEmpty || !(atGap c.rest || (c.head?.map stops.contains).getD false) then
    errorAt start "did not find expected alphabetic or numeric character"
  return { s.push (kind (String.ofList name)) start with here := c, keyAllowed := false }

/-! ## Tags -/

/-- The characters of a tag apart from escapes. -/
def isTagChar (c : Char) : Bool :=
  isNameChar c || ";/?:@&=+$.,!~*'()[]".toList.contains c

/-- Reads a byte that is written as a percent sign and two hexadecimal digits. -/
def escapedOctet? : List Char → Option (UInt8 × List Char)
  | '%' :: a :: b :: cs =>
    if [a, b].all (Decimal.isDigitOf 16) then some (UInt8.ofNat (Decimal.ofDigits 16 [a, b]), cs)
    else none
  | _ => none

/-- Reads the bytes inside a character. -/
def escapedTrail? : Nat → List Char → Option (List UInt8 × List Char)
  | 0, cs => some ([], cs)
  | n + 1, cs => do
    let (b, cs) ← escapedOctet? cs
    if !Text.isTrail b then none
    let (bs, cs) ← escapedTrail? n cs
    return (b :: bs, cs)

/-- Reads a character that is written as bytes. -/
def escapedText? (cs : List Char) : Option (List Char × List Char) := do
  let (b, cs) ← escapedOctet? cs
  let width := Text.leadWidth b
  if width = 0 then none
  let (bs, cs) ← escapedTrail? (width - 1) cs
  return (Text.ofOctets (b :: bs), cs)

/-- Reads the rest of a tag. -/
def tagText (m : Mark) : Nat → List Char → Except String (List Char × List Char)
  | 0, cs => .ok ([], cs)
  | _, [] => .ok ([], [])
  | fuel + 1, c :: cs => do
    if c = '%' then
      match escapedText? (c :: cs) with
      | none => errorAt m "did not find URI escaped octet"
      | some (here, cs) =>
        let (text, rest) ← tagText m fuel cs
        return (here ++ text, rest)
    else if isTagChar c then
      let (text, rest) ← tagText m fuel cs
      return (c :: text, rest)
    else return ([], c :: cs)

/-- Reads a part of a tag that must not be left out. -/
def tagPart (m : Mark) (cs : List Char) : Except String (List Char × List Char) := do
  let (text, rest) ← tagText m cs.length cs
  if text.isEmpty then errorAt m "did not find expected tag URI"
  return (text, rest)

/-- Splits a tag into handle and suffix. -/
def readTag (m : Mark) (cs : List Char) : Except String (List Char × List Char × List Char) := do
  match cs with
  | '!' :: '<' :: cs =>
    let (suffix, rest) ← tagPart m cs
    match rest with
    | '>' :: rest => return ([], suffix, rest)
    | _ => errorAt m "did not find the expected '>'"
  | _ =>
    let name := (cs.drop 1).takeWhile isNameChar
    match cs.drop (1 + name.length) with
    | '!' :: cs =>
      let (suffix, rest) ← tagPart m cs
      return ('!' :: name ++ ['!'], suffix, rest)
    | _ =>
      let (suffix, rest) ← tagText m cs.length (cs.drop 1)
      if suffix.isEmpty then return ([], ['!'], rest) else return (['!'], suffix, rest)

/-- A tag. -/
def tag (s : Scanner) : Except String Scanner := do
  let s ← s.saveKey
  let start := s.here.mark
  let (handle, suffix, rest) ← readTag start s.here.rest
  if !atGap rest then errorAt start "did not find expected whitespace or line break"
  return { s.push (.tag (String.ofList handle) (String.ofList suffix)) start with
    here := s.here.moveTo rest, keyAllowed := false }

/-! ## Scalars -/

/-- A scalar token. -/
def pushScalar (s : Scanner) (text : List Char) (style : ScalarStyle) (start : Mark)
    (here : Cursor) (keyAllowed : Bool) : Scanner :=
  { s.push (.scalar (String.ofList text) style) start with here, keyAllowed }

def blockScalar (s : Scanner) (literal : Bool) : Except String Scanner := do
  let s ← s.dropKey
  let start := s.here.mark
  let (text, c) ← readBlock literal s.indent s.here.advance
  return s.pushScalar text .marked start c true

def quotedScalar (s : Scanner) (quote : Char) : Except String Scanner := do
  let s ← s.saveKey
  let start := s.here.mark
  let c := s.here.advance
  let (text, c) ← readQuoted quote (c.rest.length + 1) c []
  return s.pushScalar text .marked start c false

def plainScalar (s : Scanner) : Except String Scanner := do
  let s ← s.saveKey
  let start := s.here.mark
  let (text, c, broken) ←
    readPlain s.inFlow (s.indent + 1) (s.here.rest.length + 1) s.here [] {}
  let s := s.pushScalar text .plain start c broken
  return if broken then s else s.lineComment

/-! ## Directives -/

/-- Reads a part of a version, which has at most two digits. -/
def versionPart (m : Mark) (cs : List Char) : Except String (Nat × List Char) :=
  let digits := cs.takeWhile Char.isDigit
  if digits.isEmpty then errorAt m "did not find expected version number"
  else if 2 < digits.length then errorAt m "found extremely long version number"
  else .ok (Decimal.ofDigits 10 digits, cs.drop digits.length)

/-- Reads a version. -/
def readVersion (m : Mark) (cs : List Char) : Except String (Token.Kind × List Char) := do
  let (major, rest) ← versionPart m cs
  match rest with
  | '.' :: rest =>
    let (minor, rest) ← versionPart m rest
    return (.version major minor, rest)
  | _ => errorAt m "did not find expected digit or '.' character"

/-- Reads a handle for tags and what it stands for. A handle is a lone exclamation mark, or ends
with a second one. -/
def readTagHandle (m : Mark) (cs : List Char) : Except String (Token.Kind × List Char) := do
  if cs.head? ≠ some '!' then errorAt m "did not find expected '!'"
  let name := (cs.drop 1).takeWhile isNameChar
  let rest := cs.drop (1 + name.length)
  let (handle, rest) ← match rest with
    | '!' :: rest => pure ('!' :: name ++ ['!'], rest)
    | _ =>
      if name.isEmpty then pure (['!'], rest) else errorAt m "did not find expected '!'"
  if !(rest.head?.map isBlank).getD false then errorAt m "did not find expected whitespace"
  let (expansion, rest) ← tagPart m (rest.dropWhile isBlank)
  if !atGap rest then errorAt m "did not find expected whitespace or line break"
  return (.tagHandle (String.ofList handle) (String.ofList expansion), rest)

/-- A directive: a version, or a handle for tags. Only a comment may follow it in its line. -/
def directive (s : Scanner) : Except String Scanner := do
  let s ← (s.unroll (-1)).dropKey
  let start := s.here.mark
  let name := (s.here.rest.drop 1).takeWhile isNameChar
  let rest := s.here.rest.drop (1 + name.length)
  if name.isEmpty then errorAt start "could not find expected directive name"
  if !atGap rest then errorAt start "found unexpected non-alphabetical character"
  let value := rest.dropWhile isBlank
  let (kind, rest) ← match String.ofList name with
    | "YAML" => readVersion start value
    | "TAG" => readTagHandle start value
    | _ => errorAt start "found unknown directive name"
  let rest := rest.dropWhile isBlank
  let rest := if rest.head? = some '#' then rest.dropWhile (!isBreak ·) else rest
  if !(rest.head?.map isBreak).getD true then
    errorAt start "did not find expected comment or line break"
  return { s.push kind start with here := (s.here.moveTo rest).skipBreak, keyAllowed := false }

/-! ## The scan -/

/-- Whether a plain scalar may start with the given text. -/
def startsPlain (inFlow : Bool) : List Char → Bool
  | [] => false
  | c :: cs =>
    let indicators := "-?:,[]\x7b\x7d#&*!|>'\"%@\x60".toList
    (!isBlank c && !isBreak c && !indicators.contains c) ||
      (c = '-' && !(cs.head?.map isBlank).getD false) ||
      (!inFlow && (c = '?' || c = ':') && !atGap cs)

/-- Reads a token that shows in its first character and may be followed by a comment. -/
def indicator (s : Scanner) (c : Char) (cs : List Char) : Except String Scanner :=
  if c = '[' then s.openFlow .flowSequence
  else if c = '\x7b' then s.openFlow .flowMapping
  else if c = ']' then s.closeFlow .flowSequenceEnd
  else if c = '\x7d' then s.closeFlow .flowMappingEnd
  else if c = ',' then s.flowEntry
  else if c = '?' && (s.inFlow || atGap cs) then s.explicitKey
  else if c = ':' && (s.inFlow || atGap cs) then s.value
  else if c = '*' then s.reference .alias
  else if c = '&' then s.reference .anchor
  else if c = '!' then s.tag
  else if c = '\'' || c = '"' then s.quotedScalar c
  else errorAt s.here.mark "found character that cannot start any token"

/-- Refuses to go on when less than some characters are left in front of something unreadable. -/
def demand (s : Scanner) (n : Nat) : Except String Scanner :=
  if s.cut && (s.here.rest.drop (n - 1)).isEmpty then .error "yaml: unreadable text" else .ok s

/-- Reads the next token. -/
def step (s : Scanner) : Except String Scanner := do
  let (here, keyAllowed) :=
    skipFrom s.inFlow s.doubled s.here.rest s.here.mark .blank s.keyAllowed
  let s := { s with here, keyAllowed }
  -- A key that did not get its colon in time is dropped here, or refused.
  let key? ← s.currentKey
  let s ← ({ s with key? }.unroll here.mark.column).demand 4
  match here.rest with
  | [] => s.streamEnd
  | c :: cs =>
    let s ←
      if c = '%' && here.mark.column = 0 then s.directive
      else if here.atMarker '-' then s.documentMarker .documentStart
      else if here.atMarker '.' then s.documentMarker .documentEnd
      else if c = '-' && atGap cs then s.blockEntry
      else if c = '|' && !s.inFlow then s.blockScalar true
      else if c = '>' && !s.inFlow then s.blockScalar false
      else if startsPlain s.inFlow here.rest then s.plainScalar
      else lineComment <$> s.indicator c cs
    s.demand 2

/-- Reads tokens up to the end or an error. -/
def run : Nat → Scanner → Scanner × Option String
  | 0, s => (s, some "yaml: document is too long")
  | fuel + 1, s =>
    if s.done then (s, none)
    else
      match s.step with
      | .ok s => run fuel s
      | .error e => (s, some e)

end Scanner

/-- The tokens of a text, and the error that ends them early. -/
structure Tokens where
  tokens : Array Token
  error? : Option String
  deriving Inhabited

/-- Reads the tokens of a text. -/
def Tokens.scan (text : Input) : Tokens :=
  let (s, error?) := Scanner.run (text.chars.length + 2)
    { here := ⟨text.chars, {}⟩, cut := text.cut, doubled := text.doubled }
  ⟨s.tokens, error?⟩

end Wordcode.Yaml
