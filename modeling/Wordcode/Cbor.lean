import Wordcode.Decimal.Binary
import Wordcode.Text.Octets
import Wordcode.Word

namespace Wordcode

/-! # Concise binary objects

A self-describing binary data format. An item starts with a head, whose first byte holds a major
type and the size class of a number; the number is a value, a length or a count.

* `Cbor.encode` writes the canonical form: numbers in the smallest head that holds them, lengths
  first, floats in the shortest of three widths that keeps their value.
* `Cbor.decode?` reads one item that takes up all of the input, in any well-formed encoding.
-/

namespace Cbor

/-- An item. -/
inductive Item
  | unsigned (n : Nat)
  /-- The integer `-1 - n`. -/
  | negative (n : Nat)
  | bytes (bs : List UInt8)
  /-- A text in UTF-8, in the chunks it was written in. -/
  | text (chunks : List (List UInt8))
  | array (items : List Item)
  | map (entries : List (Item × Item))
  | tag (number : Nat) (content : Item)
  /-- A simple value other than the named ones below. -/
  | simple (n : Nat)
  | bool (b : Bool)
  /-- Null or undefined. -/
  | null
  /-- A double, by its bits. -/
  | float (bits : UInt64)
  deriving Inhabited

/-- A text item. -/
def Item.ofString (s : String) : Item := .text [Text.octets s]

/-- The bits of the one value that stands for all that is not a number. -/
def quietNan : UInt64 := 0x7FF8000000000000

/-- A double as an item. The canonical form has one value that is not a number. -/
def Item.ofFloat (bits : UInt64) : Item :=
  .float (if Decimal.isNan bits then quietNan else bits)

/-- An integer item. -/
def Item.ofInt (n : Int) : Item :=
  if 0 ≤ n then .unsigned n.toNat else .negative (-1 - n).toNat

/-! ## Writing -/

/-- The last `width` bytes of a number, most significant first. -/
def bigEndian (width n : Nat) : List UInt8 :=
  match width with
  | 0 => []
  | w + 1 => bigEndian w (n / 256) ++ [UInt8.ofNat n]

/-- The head of an item: a major type below eight and a number below `2 ^ 64`. -/
def head (major n : Nat) : List UInt8 :=
  if n < 24 then [UInt8.ofNat (major * 32 + n)]
  else if n < 256 then UInt8.ofNat (major * 32 + 24) :: bigEndian 1 n
  else if n < 65536 then UInt8.ofNat (major * 32 + 25) :: bigEndian 2 n
  else if n < 4294967296 then UInt8.ofNat (major * 32 + 26) :: bigEndian 4 n
  else UInt8.ofNat (major * 32 + 27) :: bigEndian 8 n

/-- A binary floating-point format. -/
structure FloatFormat where
  /-- Bits of precision, the leading one included. -/
  precision : Nat
  /-- The exponent that a biased exponent field of zero stands for, less one. -/
  bias : Nat

def half : FloatFormat := ⟨11, 15⟩
def single : FloatFormat := ⟨24, 127⟩

/-- The exponent of the smallest positive number of a format. -/
def FloatFormat.minExponent (f : FloatFormat) : Int := 2 - f.bias - f.precision

/-- The magnitude bits of `m * 2 ^ e` in a format, if the format holds that number exactly. -/
def FloatFormat.bits? (f : FloatFormat) (m : Nat) (e : Int) : Option Nat :=
  if m = 0 then some 0
  else
    let top : Int := Nat.log2 m + e
    -- In units of the last place of its binade, the number must be a whole one.
    let unit := max f.minExponent (top - (f.precision - 1 : Nat))
    let (n, d) := Decimal.scaleTwo m (e - unit)
    if n % d ≠ 0 || f.bias < top then none
    else
      let significand := n / d
      let leading := 1 <<< (f.precision - 1)
      if significand < leading then some significand
      else some ((unit - f.minExponent + 1).toNat * leading + (significand - leading))

/-- A double in the shortest format that keeps its value. -/
def encodeFloat (x : UInt64) : List UInt8 :=
  match Decimal.decodeBits x.toNat with
  | .nan => [0xF9, 0x7E, 0x00]
  | .infinite negative => [0xF9, if negative then 0xFC else 0x7C, 0x00]
  | .finite negative m e =>
    match half.bits? m e, single.bits? m e with
    | some bits, _ => 0xF9 :: bigEndian 2 (if negative then 0x8000 + bits else bits)
    | none, some bits => 0xFA :: bigEndian 4 (if negative then 0x80000000 + bits else bits)
    | none, none => 0xFB :: bigEndian 8 x.toNat

mutual

/-- The canonical encoding of an item, given that the keys of maps are in canonical order. -/
def encode : Item → List UInt8
  | .unsigned n => head 0 n
  | .negative n => head 1 n
  | .bytes bs => head 2 bs.length ++ bs
  | .text chunks => head 3 chunks.flatten.length ++ chunks.flatten
  | .array items => head 4 items.length ++ encodeAll items
  | .map entries => head 5 entries.length ++ encodePairs entries
  | .tag n content => head 6 n ++ encode content
  | .simple n => head 7 n
  | .bool b => [if b then 0xF5 else 0xF4]
  | .null => [0xF6]
  | .float x => encodeFloat x

/-- The encodings of items one after another. -/
def encodeAll : List Item → List UInt8
  | [] => []
  | i :: is => encode i ++ encodeAll is

/-- The encodings of map entries one after another. -/
def encodePairs : List (Item × Item) → List UInt8
  | [] => []
  | (k, v) :: es => encode k ++ (encode v ++ encodePairs es)

end

/-! ## Reading -/

/-- How deep arrays, maps and tags may nest. -/
def maxNesting : Nat := 32

/-- How many items an array, or entries a map, may hold. -/
def maxElements : Nat := 131072

/-- The number after a head byte. -/
inductive Length
  | exact (n : Nat)
  /-- The end is marked by a break. -/
  | untilBreak
  deriving DecidableEq, Repr, Inhabited

/-- The number that bytes denote, most significant first. -/
def ofBigEndian (bs : List UInt8) : Nat :=
  bs.foldl (fun n b => n * 256 + b.toNat) 0

/-- The first `n` bytes and the rest. -/
def splitBytes? (n : Nat) (bs : List UInt8) : Option (List UInt8 × List UInt8) :=
  if n ≤ bs.length then some (bs.take n, bs.drop n) else none

/-- Reads a head: its major type, its size class and its number. -/
def readHead? : List UInt8 → Option (Nat × Nat × Length × List UInt8)
  | [] => none
  | b :: bs =>
    let major := b.toNat / 32
    let size := b.toNat % 32
    let sized (width : Nat) := (splitBytes? width bs).map fun (n, rest) =>
      (major, size, Length.exact (ofBigEndian n), rest)
    if size < 24 then some (major, size, .exact size, bs)
    else match size with
      | 24 => sized 1
      | 25 => sized 2
      | 26 => sized 4
      | 27 => sized 8
      | 31 => some (major, size, .untilBreak, bs)
      | _ => none

/-- The chunks of a string of unknown length: strings of the same major type up to a break. -/
def readChunks? (major : Nat) : Nat → List UInt8 → Option (List (List UInt8) × List UInt8)
  | 0, _ => none
  | _, 0xFF :: rest => some ([], rest)
  | fuel + 1, bs => do
    let (m, _, length, rest) ← readHead? bs
    match m == major, length with
    | true, .exact n =>
      let (chunk, rest) ← splitBytes? n rest
      let (chunks, rest) ← readChunks? major fuel rest
      return (chunk :: chunks, rest)
    | _, _ => none

/-- The bits of the double that is given by its bits in a narrow format. What is not a number keeps
its fraction. -/
def FloatFormat.widen (f : FloatFormat) (width bits : Nat) : UInt64 :=
  let fractionBits := f.precision - 1
  let negative := decide ((bits >>> (width - 1)) % 2 = 1)
  let field := (bits >>> fractionBits) % (1 <<< (width - 1 - fractionBits))
  let fraction := bits % (1 <<< fractionBits)
  if field = 2 * f.bias + 1 then
    if fraction = 0 then Decimal.signed negative Decimal.infinityBits
    else Decimal.signed negative (quietNan.toNat ||| fraction <<< (53 - f.precision))
  else
    let (m, e) : Nat × Int :=
      if field = 0 then (fraction, f.minExponent)
      else ((1 <<< fractionBits) + fraction, f.minExponent + field - 1)
    let (n, d) := Decimal.scaleTwo m e
    Decimal.bitsOfRatio negative n d

/-- The item of major type seven with the given size class and number. -/
def readSimple? (size n : Nat) : Option Item :=
  match size with
  | 20 => some (.bool false)
  | 21 => some (.bool true)
  | 22 | 23 => some .null
  | 24 => if n < 32 then none else some (.simple n)
  | 25 => some (.float (half.widen 16 n))
  | 26 => some (.float (single.widen 32 n))
  | 27 => some (.float (UInt64.ofNat n))
  | _ => some (.simple n)

mutual

/-- Reads an item. Every call reads at least one byte, so the length of the input bounds the
number of nested calls; `nesting` is how much deeper containers may go. -/
def readItem? : Nat → Nat → List UInt8 → Option (Item × List UInt8)
  | 0, _, _ => none
  | fuel + 1, nesting, bs => do
    let (major, size, length, rest) ← readHead? bs
    match major, length with
    | 0, .exact n => return (.unsigned n, rest)
    | 1, .exact n => return (.negative n, rest)
    | 2, .exact n =>
      let (s, rest) ← splitBytes? n rest
      return (.bytes s, rest)
    | 2, .untilBreak =>
      let (chunks, rest) ← readChunks? 2 fuel rest
      return (.bytes chunks.flatten, rest)
    | 3, .exact n =>
      let (s, rest) ← splitBytes? n rest
      return (.text [s], rest)
    | 3, .untilBreak =>
      let (chunks, rest) ← readChunks? 3 fuel rest
      return (.text chunks, rest)
    | 4, _ =>
      if nesting = 0 then none
      else
        let (items, rest) ← readItems? fuel (nesting - 1) length maxElements rest
        return (.array items, rest)
    | 5, _ =>
      if nesting = 0 then none
      else
        let (entries, rest) ← readEntries? fuel (nesting - 1) length maxElements rest
        return (.map entries, rest)
    | 6, .exact n =>
      if nesting = 0 then none
      else
        let (content, rest) ← readItem? fuel (nesting - 1) rest
        return (.tag n content, rest)
    | 7, .exact n => return (← readSimple? size n, rest)
    | _, _ => none

/-- Reads the items of an array, at most `room` of them. -/
def readItems? : Nat → Nat → Length → Nat → List UInt8 → Option (List Item × List UInt8)
  | 0, _, _, _, _ => none
  | _, _, .exact 0, _, bs => some ([], bs)
  | _, _, .untilBreak, _, 0xFF :: rest => some ([], rest)
  | fuel + 1, nesting, length, room, bs => do
    if room = 0 then none
    else
      let (item, rest) ← readItem? fuel nesting bs
      let length := match length with
        | .exact n => .exact (n - 1)
        | .untilBreak => .untilBreak
      let (items, rest) ← readItems? fuel nesting length (room - 1) rest
      return (item :: items, rest)

/-- Reads the entries of a map, at most `room` of them. -/
def readEntries? : Nat → Nat → Length → Nat → List UInt8 →
    Option (List (Item × Item) × List UInt8)
  | 0, _, _, _, _ => none
  | _, _, .exact 0, _, bs => some ([], bs)
  | _, _, .untilBreak, _, 0xFF :: rest => some ([], rest)
  | fuel + 1, nesting, length, room, bs => do
    if room = 0 then none
    else
      let (key, rest) ← readItem? fuel nesting bs
      let (value, rest) ← readItem? fuel nesting rest
      let length := match length with
        | .exact n => .exact (n - 1)
        | .untilBreak => .untilBreak
      let (entries, rest) ← readEntries? fuel nesting length (room - 1) rest
      return ((key, value) :: entries, rest)

end

/-- Reads one item that takes up all of the input. -/
def decode? (bs : List UInt8) : Option Item :=
  match readItem? (2 * bs.length + 2) maxNesting bs with
  | some (item, []) => some item
  | _ => none

/-! ## Typed views

A reader that expects a type accepts null as the zero of that type, looks through tags, and takes
integers where it expects floats. -/

/-- The content behind tags. A tag for a point in time or a big number must hold what it
promises. -/
def untag? : Item → Option Item
  | .tag 0 content => match content with
    | .text chunks => some (.text chunks)
    | _ => none
  | .tag 1 content => match content with
    | .unsigned n => some (.unsigned n)
    | .negative n => some (.negative n)
    | .float x => some (.float x)
    | _ => none
  | .tag 2 content => match content with
    | .bytes bs => some (.unsigned (ofBigEndian bs))
    | _ => none
  | .tag 3 content => match content with
    | .bytes bs => some (.negative (ofBigEndian bs))
    | _ => none
  | .tag _ content => untag? content
  | item => some item

/-- An integer within bounds. -/
def toInt? (low high : Int) (item : Item) : Option Int := do
  let n : Int ← match ← untag? item with
    | .unsigned n => some (n : Int)
    | .simple n => some (n : Int)
    | .negative n => some (-1 - (n : Int))
    | .null => some 0
    | _ => none
  if low ≤ n && n ≤ high then some n else none

def toInt64? (item : Item) : Option Int64 :=
  (toInt? (-Word.limit) (Word.limit - 1) item).map Int64.ofInt

def toByte? (item : Item) : Option UInt8 :=
  (toInt? 0 255 item).map fun n => UInt8.ofNat n.toNat

/-- The bits of a double. -/
def toFloat? (item : Item) : Option UInt64 := do
  match ← untag? item with
  | .float x => return x
  | .unsigned n => return Decimal.bitsOfRatio false n 1
  | .simple n => return Decimal.bitsOfRatio false n 1
  | .negative n => return Decimal.bitsOfRatio true (n + 1) 1
  | .null => return 0
  | _ => none

def toBool? (item : Item) : Option Bool := do
  match ← untag? item with
  | .bool b => return b
  | .null => return false
  | _ => none

/-- A text; every chunk must be valid on its own. -/
def toText? (item : Item) : Option String := do
  match ← untag? item with
  | .text chunks =>
    let parts ← chunks.mapM fun bs => String.fromUTF8? ⟨bs.toArray⟩
    return String.join parts
  | .null => return ""
  | _ => none

/-- A byte string, or an array of byte-sized integers; nothing for null. -/
def toBytes? (item : Item) : Option (Option (List UInt8)) := do
  match ← untag? item with
  | .bytes bs => return some bs
  | .array items => return some (← items.mapM toByte?)
  | .null => return none
  | _ => none

/-- The items of an array. -/
def toItems? (item : Item) : Option (List Item) := do
  match ← untag? item with
  | .array items => return items
  | .null => return []
  | _ => none

/-- Whether two names agree up to the case of ASCII letters. -/
def sameUpToCase (a b : String) : Bool :=
  a.map Char.toLower == b.map Char.toLower

/-- Adds an entry of a map to the fields found so far. A key names the field it spells, or else the
first unset field it spells up to case; the first entry of a field counts. Integer keys are left
out, other keys that are not texts are refused. -/
def addField? (known : List String) (found : List (String × Item)) :
    Item × Item → Option (List (String × Item))
  | (.text chunks, value) => do
    let key ← toText? (.text chunks)
    if known.contains key then
      if (found.lookup key).isSome then return found else return found ++ [(key, value)]
    else
      match known.find? fun n => (found.lookup n).isNone && sameUpToCase n key with
      | some n => return found ++ [(n, value)]
      | none => return found
  | (.unsigned _, _) | (.negative _, _) => some found
  | _ => none

/-- The entries of a map that are fields of a record, each by the field's name. -/
def toFields? (known : List String) (item : Item) : Option (List (String × Item)) := do
  match ← untag? item with
  | .map entries => entries.foldlM (addField? known) []
  | .null => return []
  | _ => none

end Cbor

end Wordcode
