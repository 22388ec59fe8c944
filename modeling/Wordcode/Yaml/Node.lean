import Wordcode.Assoc
import Wordcode.Yaml.Token

namespace Wordcode.Yaml

/-! # Nodes

The tree that a YAML text describes. An alias refers to the node under an anchor by its number; the
node may contain the alias itself.

* `Tree.parse` reads the first document of a text.
-/

/-- A node of a document, with the line it starts in, counted from one. -/
inductive Node
  | scalar (line : Nat) (tag? : Option String) (style : ScalarStyle) (text : String)
  | sequence (line : Nat) (tag? : Option String) (items : List Node)
  | mapping (line : Nat) (tag? : Option String) (entries : List (Node × Node))
  /-- A reference to an anchored node. The place among the tokens tells one alias from another. -/
  | reference (line : Nat) (name : String) (place target : Nat)
  deriving Inhabited

namespace Node

/-- The line a node starts in. -/
def line : Node → Nat
  | scalar n .. | sequence n .. | mapping n .. | reference n .. => n

mutual

/-- The number of levels of a node. -/
def depth : Node → Nat
  | scalar .. | reference .. => 1
  | sequence _ _ items => depths items + 1
  | mapping _ _ es => pairDepths es + 1

/-- The largest number of levels among nodes. -/
def depths : List Node → Nat
  | [] => 0
  | n :: ns => max (depth n) (depths ns)

/-- The largest number of levels among entries. -/
def pairDepths : List (Node × Node) → Nat
  | [] => 0
  | (k, v) :: es => max (max (depth k) (depth v)) (pairDepths es)

end

end Node

/-- A document: its outermost node, and the nodes under anchors by number. -/
structure Tree where
  root : Node
  anchored : Array Node := #[]
  /-- The number of aliases. -/
  aliases : Nat := 0
  deriving Inhabited

/-- What the parser knows: where it stands, the tag handles, and the nodes under anchors. -/
structure ParserState where
  tokens : Tokens
  position : Nat := 0
  handles : List (String × String) := []
  /-- The numbers of the nodes that anchors refer to at the moment. -/
  anchors : List (String × Nat) := []
  anchored : Array Node := #[]
  aliases : Nat := 0
  deriving Inhabited

/-- A parser of nodes. -/
abbrev Parser := StateT ParserState (Except String)

namespace Parser

/-- The number of tokens after the current one that are read together with it. -/
def lookahead : Nat := 2

/-- The current token. An error in a token that is read together with it counts. -/
def peek : Parser Token := do
  let s ← get
  match s.tokens.error? with
  | some e => if s.tokens.tokens.size ≤ s.position + lookahead then throw e
  | none => pure ()
  return s.tokens.tokens.getD s.position ⟨.streamEnd, 0⟩

/-- Moves on to the next token. -/
def skip : Parser Unit := modify fun s => { s with position := s.position + 1 }

/-- Fails at a token. -/
def fail {α : Type} (t : Token) (message : String) : Parser α :=
  throw s!"yaml: line {t.line + 1}: {message}"

/-- The node for something left out. -/
def emptyNode (t : Token) : Node := .scalar (t.line + 1) none .plain ""

/-! ## Properties -/

/-- The anchor and the tag in front of a node. -/
structure Properties where
  anchor? : Option String := none
  tag? : Option String := none
  /-- The line of the first one. -/
  line? : Option Nat := none
  deriving Inhabited

/-- The prefix of the tags that YAML defines. -/
def standardTags : String := "tag:yaml.org,2002:"

/-- The short form of a tag. -/
def shortTag (tag : String) : String :=
  if tag.startsWith standardTags then "!!" ++ (tag.drop standardTags.length).toString else tag

/-- The handles that are always there, unless a document gives them another meaning. -/
def standardHandles : List (String × String) := [("!", "!"), ("!!", standardTags)]

/-- A tag in full. A lone exclamation mark means no tag. -/
def resolveTag (t : Token) (handle suffix : String) : Parser (Option String) := do
  if handle = "" then return if suffix = "!" then none else some (shortTag suffix)
  match ((← get).handles ++ standardHandles).lookup handle with
  | some expansion => return some (shortTag (expansion ++ suffix))
  | none => fail t "found undefined tag handle"

/-- Reads anchor and tag, each at most once and in either order. -/
def properties : Parser Properties := do
  let first ← peek
  match first.kind with
  | .anchor name =>
    skip
    let second ← peek
    match second.kind with
    | .tag handle suffix =>
      skip
      return ⟨some name, ← resolveTag second handle suffix, some first.line⟩
    | _ => return ⟨some name, none, some first.line⟩
  | .tag handle suffix =>
    skip
    let tag? ← resolveTag first handle suffix
    let second ← peek
    match second.kind with
    | .anchor name =>
      skip
      return ⟨some name, tag?, some first.line⟩
    | _ => return ⟨none, tag?, some first.line⟩
  | _ => return {}

/-- Gives the node under an anchor a number, under which it is known from now on. -/
def anchor (anchor? : Option String) : Parser (Option Nat) :=
  match anchor? with
  | some name => modifyGet fun s =>
    let number := s.anchored.size
    (some number, { s with
      anchors := Assoc.set s.anchors name number
      anchored := s.anchored.push default })
  | none => return none

/-- Keeps a node under its number. -/
def keep (number? : Option Nat) (n : Node) : Parser Unit :=
  match number? with
  | some number => modify fun s => { s with anchored := s.anchored.setIfInBounds number n }
  | none => return ()

/-- Where a node stands. -/
inductive Place
  /-- Inside brackets. -/
  | flow
  | block
  /-- In a block mapping, where a sequence need not be indented. -/
  | mappingPart
  deriving DecidableEq, Repr, Inhabited

/-- Whether a token is one of those that leave a part of a collection empty. -/
def isOneOf (t : Token) (kinds : List Token.Kind) : Bool := kinds.contains t.kind

mutual

/-- Reads a node. -/
def node : Nat → Place → Parser Node
  | 0, _ => throw "yaml: document is nested too deeply"
  | fuel + 1, place => do
    let first ← peek
    match first.kind with
    | .alias name =>
      let s ← get
      skip
      match s.anchors.lookup name with
      | some number =>
        modify fun s => { s with aliases := s.aliases + 1 }
        return .reference (first.line + 1) name s.position number
      | none => fail first s!"unknown anchor '{name}' referenced"
    | _ =>
      let p ← properties
      let number? ← anchor p.anchor?
      let t ← peek
      let line := p.line?.getD t.line + 1
      let n ← match t.kind, place with
        | .blockEntry, .mappingPart => .sequence line p.tag? <$> looseItems fuel
        | .scalar text style, _ => do
          skip
          pure (.scalar line p.tag? style text)
        | .flowSequence, _ => do
          skip
          .sequence line p.tag? <$> flowItems fuel true
        | .flowMapping, _ => do
          skip
          .mapping line p.tag? <$> flowEntries fuel true
        | .blockSequence, .block | .blockSequence, .mappingPart => do
          skip
          .sequence line p.tag? <$> blockItems fuel
        | .blockMapping, .block | .blockMapping, .mappingPart => do
          skip
          .mapping line p.tag? <$> blockEntries fuel
        | _, _ =>
          if p.line?.isSome then pure (.scalar line p.tag? .plain "")
          else fail t "did not find expected node content"
      keep number? n
      return n

/-- The items of an indented sequence. -/
def blockItems : Nat → Parser (List Node)
  | 0 => throw "yaml: document is too long"
  | fuel + 1 => do
    let t ← peek
    match t.kind with
    | .blockEntry =>
      skip
      let item ←
        if isOneOf (← peek) [.blockEntry, .blockEnd] then pure (emptyNode t)
        else node fuel .block
      return item :: (← blockItems fuel)
    | .blockEnd =>
      skip
      return []
    | _ => fail t "did not find expected '-' indicator"

/-- The items of a sequence that is not indented. -/
def looseItems : Nat → Parser (List Node)
  | 0 => throw "yaml: document is too long"
  | fuel + 1 => do
    let t ← peek
    match t.kind with
    | .blockEntry =>
      skip
      let item ←
        if isOneOf (← peek) [.blockEntry, .key, .value, .blockEnd] then pure (emptyNode t)
        else node fuel .block
      return item :: (← looseItems fuel)
    | _ => return []

/-- The entries of an indented mapping. -/
def blockEntries : Nat → Parser (List (Node × Node))
  | 0 => throw "yaml: document is too long"
  | fuel + 1 => do
    let t ← peek
    match t.kind with
    | .key =>
      skip
      let key ←
        if isOneOf (← peek) [.key, .value, .blockEnd] then pure (emptyNode t)
        else node fuel .mappingPart
      let v ← peek
      let value ←
        if v.kind = .value then do
          skip
          if isOneOf (← peek) [.key, .value, .blockEnd] then pure (emptyNode v)
          else node fuel .mappingPart
        else pure (emptyNode v)
      return (key, value) :: (← blockEntries fuel)
    | .blockEnd =>
      skip
      return []
    | _ => fail t "did not find expected key"

/-- The items of a sequence in brackets; a pair among them is a mapping of one entry. -/
def flowItems : Nat → Bool → Parser (List Node)
  | 0, _ => throw "yaml: document is too long"
  | fuel + 1, isFirst => do
    let t ← peek
    if t.kind = .flowSequenceEnd then
      skip
      return []
    if !isFirst then
      if t.kind ≠ .flowEntry then fail t "did not find expected ',' or ']'"
      skip
    let t ← peek
    match t.kind with
    | .flowSequenceEnd =>
      skip
      return []
    | .key =>
      skip
      -- The token that shows that a key is left out is used up with it.
      let key ←
        if isOneOf (← peek) [.value, .flowEntry, .flowSequenceEnd] then do
          skip
          pure (emptyNode t)
        else node fuel .flow
      let v ← peek
      let value ←
        if v.kind = .value then do
          skip
          if isOneOf (← peek) [.flowEntry, .flowSequenceEnd] then pure (emptyNode v)
          else node fuel .flow
        else pure (emptyNode v)
      return .mapping (t.line + 1) none [(key, value)] :: (← flowItems fuel false)
    | _ =>
      let item ← node fuel .flow
      return item :: (← flowItems fuel false)

/-- The entries of a mapping in braces. -/
def flowEntries : Nat → Bool → Parser (List (Node × Node))
  | 0, _ => throw "yaml: document is too long"
  | fuel + 1, isFirst => do
    let t ← peek
    if t.kind = .flowMappingEnd then
      skip
      return []
    if !isFirst then
      if t.kind ≠ .flowEntry then fail t "did not find expected ',' or '\x7d'"
      skip
    let t ← peek
    match t.kind with
    | .flowMappingEnd =>
      skip
      return []
    | .key =>
      skip
      let key ←
        if isOneOf (← peek) [.value, .flowEntry, .flowMappingEnd] then pure (emptyNode t)
        else node fuel .flow
      let v ← peek
      let value ←
        if v.kind = .value then do
          skip
          if isOneOf (← peek) [.flowEntry, .flowMappingEnd] then pure (emptyNode v)
          else node fuel .flow
        else pure (emptyNode v)
      return (key, value) :: (← flowEntries fuel false)
    | _ =>
      let key ← node fuel .flow
      return (key, emptyNode t) :: (← flowEntries fuel false)

end

/-! ## Documents -/

/-- The directives in front of a document. -/
def directives : Nat → Bool → Parser Unit
  | 0, _ => return ()
  | fuel + 1, seenVersion => do
    let t ← peek
    match t.kind with
    | .version major minor =>
      if seenVersion then fail t "found duplicate %YAML directive"
      if major ≠ 1 || minor ≠ 1 then fail t "found incompatible YAML document"
      skip
      directives fuel true
    | .tagHandle handle expansion =>
      if ((← get).handles.lookup handle).isSome then fail t "found duplicate %TAG directive"
      skip
      modify fun s => { s with handles := (handle, expansion) :: s.handles }
      directives fuel seenVersion
    | _ => return ()

/-- The content of a document; it may be left out. -/
def content (fuel : Nat) : Parser (Option Node) := do
  match (← peek).kind with
  | .version .. | .tagHandle .. | .documentStart | .documentEnd | .streamEnd => return none
  | _ => some <$> node fuel .block

/-- The first document. -/
def document (fuel : Nat) : Parser (Option Node) := do
  let t ← peek
  let n? ← match t.kind with
    | .streamEnd => pure none
    | .version .. | .tagHandle .. | .documentStart => do
      directives fuel false
      let t ← peek
      if t.kind ≠ .documentStart then fail t "did not find expected <document start>"
      skip
      content fuel
    | _ => some <$> node fuel .block
  -- The end of a document shows in the token after it.
  let _ ← peek
  return n?

end Parser

/-- The first document of a text, if it has one. -/
def Tree.parse (bytes : List UInt8) : Except String (Option Tree) := do
  let tokens := Tokens.scan (Input.ofBytes bytes)
  let (n?, s) ← (Parser.document (3 * tokens.tokens.size + 10)).run { tokens }
  return n?.map fun root => { root, anchored := s.anchored, aliases := s.aliases }

/-- The node that an alias refers to. -/
def Tree.target (t : Tree) (number : Nat) : Node := t.anchored.getD number default

/-- How many levels deep a document can be followed, if no alias is followed inside itself. -/
def Tree.bound (t : Tree) : Nat :=
  (t.aliases + 2) * (t.anchored.foldl (fun n a => max n a.depth) t.root.depth + 2)

end Wordcode.Yaml
