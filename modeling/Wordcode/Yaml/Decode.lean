import Wordcode.Assoc
import Wordcode.Elementary
import Wordcode.Fault
import Wordcode.Yaml.Node
import Wordcode.Yaml.Scalar

namespace Wordcode.Yaml

/-! # Decoding

What the nodes of a document stand for, read as what is asked for: a text, a truth value, or any
datum at all. A part that does not fit is noted and left out, and decoding goes on with the rest; in
the end it is an error all the same. Other errors end decoding at once.

A mapping can merge others into itself with the key `<<`. Its own entries come first, and of equal
keys the first wins.

* `decode` reads a document with a given reader.
* `Decoder.datum` reads any node.
* `Decoder.readEntries` reads the entries of a mapping and of those it merges.
-/

/-! ## Nodes -/

namespace Node

/-- What tells keys apart as they are written: the kind of node, and a text or a name. -/
def spelling : Node → Nat × String
  | scalar _ _ _ text => (0, text)
  | sequence .. => (1, "")
  | mapping .. => (2, "")
  | reference _ name .. => (3, name)

/-- Whether a key is written twice. -/
def hasDuplicate : List (Node × Node) → Bool
  | [] => false
  | (k, _) :: es => es.any (fun e => e.1.spelling = k.spelling) || hasDuplicate es

/-- The tag of a node: the one it has, or else the one of its kind. An alias has none of its own. -/
def tag : Node → String
  | scalar _ tag? style text => scalarTag tag? style text
  | sequence _ tag? _ => tag?.getD "!!seq"
  | mapping _ tag? _ => tag?.getD "!!map"
  | reference .. => ""

/-- Whether a node is tagged as null. -/
def isNull (n : Node) : Bool := n.tag = ScalarTag.null.name

/-- Whether a node is the key that merges other mappings into one. -/
def isMerge (n : Node) : Bool :=
  match n with
  | scalar _ _ _ text => text = "<<" && n.tag = mergeTag
  | _ => false

end Node

/-- The node itself, or the one that an alias stands for. -/
def Tree.resolve (t : Tree) (n : Node) : Node :=
  match n with
  | .reference _ _ _ target => t.target target
  | _ => n

/-! ## Decoders -/

/-- What decoding has come across. -/
structure Account where
  /-- The parts that did not fit. -/
  mismatches : Array String := #[]
  /-- The number of nodes that were read. -/
  visited : Nat := 0
  /-- The number of those that were read as part of what an alias stands for. -/
  aliased : Nat := 0
  deriving Inhabited

/-- Whether too much of a document is read through aliases: more than 99 percent of it, a share that
falls to ten percent as the number of nodes grows from 400000 to ten times as many. -/
def Account.isExcessive (a : Account) : Bool :=
  let least := 400000
  let most := 10 * least
  let span := most - least
  let beyond := min (max a.visited least) most - least
  100 < a.aliased && 1000 < a.visited &&
    a.visited * (99 * span - 89 * beyond) < a.aliased * 100 * span

/-- Where decoding stands. -/
structure Scope where
  tree : Tree
  /-- The places of the aliases that are being followed. -/
  following : List Nat := []
  deriving Inhabited

/-- A decoder. One that reads a part gives nothing for a part that is left out. -/
abbrev Decoder := ReaderT Scope (StateT Account (Except Failure))

namespace Decoder

variable {α σ : Type}

/-- Ends decoding. -/
def fail (message : String) : Decoder α := throw (.plain s!"yaml: {message}")

/-- Leaves out a part that does not fit. -/
def mismatch (line : Nat) (message : String) : Decoder (Option α) := do
  modify fun a => { a with mismatches := a.mismatches.push s!"line {line}: {message}" }
  return none

/-- Leaves out a node that is not what is wanted. -/
def unfit (n : Node) (wanted : String) : Decoder (Option α) :=
  mismatch n.line s!"cannot unmarshal {n.tag} into {wanted}"

/-- Counts a node. -/
def visit : Decoder Unit := do
  let inAlias := !(← read).following.isEmpty
  modify fun a => { a with visited := a.visited + 1, aliased := a.aliased + inAlias.toNat }
  if (← get).isExcessive then fail "document contains excessive aliasing"

/-- Reads a node; of an alias, the node it stands for, which must not contain the alias. -/
def on (n : Node) (reader : Node → Decoder α) : Decoder α := do
  visit
  match n with
  | .reference _ name place target =>
    if (← read).following.contains place then fail s!"anchor '{name}' value contains itself"
    withReader (fun scope => { scope with following := place :: scope.following }) do
      visit
      reader ((← read).tree.target target)
  | _ => reader n

/-- Runs a decoder with an account of its own. If something does not fit, the whole is left out. -/
def apart (d : Decoder α) : Decoder (Option α) := fun scope account => do
  let (a, own) ← d { scope with following := [] } {}
  if own.mismatches.isEmpty then return (some a, account)
  else return (none, { account with mismatches := account.mismatches ++ own.mismatches })

/-! ## Scalars -/

/-- The datum of a scalar. -/
def scalar (tag? : Option String) (style : ScalarStyle) (text : String) : Decoder Datum :=
  match scalarDatum tag? style text with
  | .ok d => return d
  | .error e => throw (.plain e)

/-- Reads a scalar; null is left out. -/
def ofScalar (n : Node) (wanted : String) (reader : String → Datum → Decoder (Option α)) :
    Decoder (Option α) := do
  match n with
  | .scalar _ tag? style text =>
    match ← scalar tag? style text with
    | .null => return none
    | d => reader text d
  | _ => unfit n wanted

/-- A text. A scalar of another type counts by the way it is written. -/
def text (n : Node) : Decoder (Option String) :=
  ofScalar n "string" fun written d => return some (d.name?.getD written)

/-- A truth value; here some more words stand for one. -/
def truth (n : Node) : Decoder (Option Bool) :=
  ofScalar n "bool" fun _ d => do
    match d with
    | .bool _ b => return some b
    | .str _ s =>
      if ["y", "Y", "yes", "Yes", "YES", "on", "On", "ON"].contains s then return some true
      else if ["n", "N", "no", "No", "NO", "off", "Off", "OFF"].contains s then return some false
      else unfit n "bool"
    | _ => unfit n "bool"

/-- A machine word; the fraction of a number does not count. -/
def word (n : Node) : Decoder (Option Int) :=
  ofScalar n "int" fun _ d => do
    match d with
    | .int "int" k => return some k
    | .float _ x =>
      if x ≤ Decimal.ofInt (Word.modulus / 2) then return some (Elementary.toWord x).toInt
      else unfit n "int"
    | _ => unfit n "int"

/-! ## Sequences -/

/-- The items of a sequence that fit; null has none. -/
def items (n : Node) (reader : Node → Decoder (Option α)) : Decoder (List α) := do
  match n with
  | .sequence _ _ items => return (← items.mapM fun item => on item reader).filterMap id
  | _ =>
    let none? : Option (List α) ← ofScalar n "sequence" fun _ _ => unfit n "sequence"
    return none?.getD []

/-! ## Mappings -/

/-- How the entries of a mapping change a state. -/
structure EntryReader (σ : Type) where
  /-- Reads a key. -/
  key : Node → Decoder (Option Datum)
  /-- Reads a key as any datum. -/
  anyKey : Node → Decoder (Option Datum)
  /-- Whether a key must not come twice in a mapping. -/
  once : Datum → Bool := fun _ => false
  /-- Reads the value of a key. -/
  value : Datum → Node → σ → Decoder σ
  /-- Reads a merged mapping in a way of its own. -/
  merged? : Node → Option (σ → Decoder σ) := fun _ => none

/-- Whether a key is among others. What cannot be a key has no place among them. -/
def isAmong (key : Datum) (keys : List Datum) : Decoder Bool :=
  if key.isKey then return keys.any key.sameKey else throw .crash

/-- The entries of a mapping, unless one of its keys is written twice. -/
def uniqueEntries (n : Node) : Decoder (Option (List (Node × Node))) :=
  match n with
  | .mapping line _ own =>
    if Node.hasDuplicate own then mismatch line "mapping key already defined"
    else return some own
  | _ => return none

/-- Reads a mapping's own entries. If it is merged into another one, the keys that are taken already
are left out; the others are taken from then on. -/
def ownEntries (r : EntryReader σ) (taken? : Option (List Datum)) (own : List (Node × Node))
    (s : σ) : Decoder (Option (List Datum) × σ) := do
  let (taken?, _, s) ← own.foldlM (fun (taken?, seen, s) (k, v) => do
    if k.isMerge then return (taken?, seen, s)
    match ← on k r.key, taken? with
    | none, _ => return (taken?, seen, s)
    | some key, some taken =>
      if ← isAmong key taken then return (taken?, seen, s)
      return (some (key :: taken), seen, ← r.value key v s)
    | some key, none =>
      if r.once key && seen.any key.sameKey then
        let _ : Option Unit ← mismatch k.line "field already set"
        return (taken?, seen, s)
      return (taken?, key :: seen, ← r.value key v s)) (taken?, ([] : List Datum), s)
  return (taken?, s)

/-- The keys of a mapping, which are taken when others are merged into it. -/
def takenKeys (r : EntryReader σ) (own : List (Node × Node)) : Decoder (List Datum) :=
  own.foldlM (fun taken (k, _) => do
    match ← on k r.anyKey with
    | some key => if ← isAmong key taken then return taken else return key :: taken
    | none => return taken) []

/-- The nodes that are merged into a mapping by the value of its last merge key. -/
def mergeSources (own : List (Node × Node)) : Option (List Node) :=
  (own.filter (·.1.isMerge)).getLast?.map fun (_, v) =>
    match v with
    | .sequence _ _ items => items
    | _ => [v]

/-- Reads the entries of a mapping, and then those of the mappings it merges. -/
def readEntries (r : EntryReader σ) :
    Nat → Option (List Datum) → List (Node × Node) → σ → Decoder (Option (List Datum) × σ)
  | 0, _, _, _ => fail "document is nested too deeply"
  | fuel + 1, taken?, own, s => do
    let (taken?, s) ← ownEntries r taken? own s
    match mergeSources own with
    | none => return (taken?, s)
    | some sources =>
      let taken ← match taken? with
        | some taken => pure taken
        | none => takenKeys r own
      let tree := (← read).tree
      let (now?, s) ← sources.foldlM (fun (now?, s) source => do
        match tree.resolve source with
        | .mapping .. => on source fun n => do
          match r.merged? n with
          | some change => return (now?, ← change s)
          | none =>
            match ← uniqueEntries n with
            | some more => readEntries r fuel now? more s
            | none => return (now?, s)
        | _ => fail "map merge requires map or sequence of maps as the value") (some taken, s)
      return (if taken?.isSome then now? else none, s)

/-- A mapping from texts; of equal keys the last one wins. -/
def textKeyed (any : Node → Decoder (Option Datum)) (value : Node → Decoder (Option α)) :
    EntryReader (List (String × α)) where
  key n := do return (← text n).map (.str Datum.strType)
  anyKey := any
  value key v entries := do
    return match ← on v value with
      | some a => Assoc.set entries key.text a
      | none => entries

/-- A mapping from keys of any kind; of equal keys the last one wins. -/
def freelyKeyed (any : Node → Decoder (Option Datum)) : EntryReader (List (Datum × Datum)) where
  key := any
  anyKey := any
  value key v entries := do
    if !key.isKey then fail "invalid map key"
    return match ← on v any with
      | some d => entries.filter (!·.1.sameKey key) ++ [(key, d)]
      | none => entries

/-- The type of a mapping whose keys are not all texts. -/
def mappingType : String := "map[interface \x7b\x7d]interface \x7b\x7d"

/-- Whether all keys of a mapping are texts, going by their tags. -/
def hasTextKeys (own : List (Node × Node)) : Decoder Bool := do
  let tree := (← read).tree
  return own.all fun (k, _) =>
    [ScalarTag.str.name, mergeTag].contains (tree.resolve k).tag

/-- Reads any node that is nested at most so many levels deep. -/
def datum : Nat → Node → Decoder (Option Datum)
  | 0, _ => fail "document is nested too deeply"
  | fuel + 1, n => do
    match n with
    | .scalar _ tag? style text => some <$> scalar tag? style text
    | .sequence .. => return some (.list Datum.listType (← items n (datum fuel)))
    | _ =>
      let some own ← uniqueEntries n | return none
      if ← hasTextKeys own then
        let (_, fields) ← readEntries (textKeyed (datum fuel) (datum fuel)) fuel none own []
        return some (.record Datum.recordType (Assoc.sort fields))
      else
        let (_, pairs) ← readEntries (freelyKeyed (datum fuel)) fuel none own []
        return some (.mapping mappingType "interface \x7b\x7d" pairs)

/-- Named fields, of which each of the `known` ones may come once and the others do not count. -/
def named (known : List String) (any : Node → Decoder (Option Datum))
    (value : String → Node → σ → Decoder σ) : EntryReader σ where
  key n := do return (← text n).map (.str Datum.strType)
  anyKey := any
  once key := known.contains key.text
  value key v s := if known.contains key.text then value key.text v s else return s

/-- Reads the entries of a mapping into a state; null is left out. -/
def entries (r : EntryReader σ) (fuel : Nat) (s : σ) (n : Node) : Decoder (Option σ) := do
  match n with
  | .mapping .. =>
    let some own ← uniqueEntries n | return none
    let (_, s) ← readEntries r fuel none own s
    return some s
  | _ => ofScalar n "mapping" fun _ _ => unfit n "mapping"

/-- Reads a mapping from texts to any data. -/
def record (fuel : Nat) (n : Node) : Decoder (Option (List (String × Datum))) :=
  entries (textKeyed (datum fuel) (datum fuel)) fuel [] n

end Decoder

/-! ## Documents -/

/-- Reads the first document of a text, if there is one, with a reader that may go so many levels
deep. -/
def decode {α : Type} (bytes : List UInt8) (reader : Nat → Node → Decoder (Option α)) :
    Except Failure (Option α) := do
  match Tree.parse bytes with
  | .error e => throw (.plain e)
  | .ok none => return none
  | .ok (some tree) =>
    let document : Decoder (Option α) := do
      Decoder.visit
      Decoder.on tree.root (reader tree.bound)
    let (a?, account) ← document.run { tree } |>.run {}
    if account.mismatches.isEmpty then return a?
    else
      throw (.plain ("yaml: unmarshal errors:\n  " ++
        String.intercalate "\n  " account.mismatches.toList))

end Wordcode.Yaml
