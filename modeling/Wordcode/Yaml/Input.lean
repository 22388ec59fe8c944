import Wordcode.Text.Octets

namespace Wordcode.Yaml

/-! # Reading the bytes of a YAML text

A text comes as bytes in one of three encodings, which a mark at its start tells apart. It is read
piece by piece as the scanner asks for more, so something unreadable is only noticed once the
piece that holds it is asked for.

* `Input.ofBytes` gives the characters in front of the piece that cannot be read, if there is one.
-/

/-- What can be read of a text. -/
structure Input where
  /-- The characters, with line breaks normalised. -/
  chars : List Char
  /-- Whether a piece follows that cannot be read. -/
  cut : Bool := false
  /-- How many characters at the start lose the first one of each line: those of the first piece of
  a text that starts with two byte order marks. -/
  doubled : Nat := 0
  deriving Repr, Inhabited

namespace Input

/-- The number of bytes in a piece. -/
def pieceSize : Nat := 512

/-- The characters that a text may hold. -/
def isAllowed (c : Char) : Bool :=
  let n := c.toNat
  n = 0x09 || n = 0x0A || n = 0x0D || (0x20 ≤ n && n ≤ 0x7E) || n = 0x85 ||
    (0xA0 ≤ n && n ≤ 0xD7FF) || (0xE000 ≤ n && n ≤ 0xFFFD) || 0x10000 ≤ n

/-- Carriage returns, with or without a line feed, and next-line characters become line feeds. -/
def normalizeBreaks : List Char → List Char
  | '\r' :: '\n' :: cs => '\n' :: normalizeBreaks cs
  | '\r' :: cs => '\n' :: normalizeBreaks cs
  | '\u0085' :: cs => '\n' :: normalizeBreaks cs
  | c :: cs => c :: normalizeBreaks cs
  | [] => []

/-- The byte order mark. -/
def mark : Char := '\ufeff'

/-! ## Encodings -/

/-- A way to read a character off some bytes: the character, if there is one, and the number of
bytes that have to be there to tell. -/
abbrev Encoding := List UInt8 → Option Char × Nat

/-- One byte to four bytes for a character. -/
def octetEncoding : Encoding := fun bytes =>
  ((Text.characterOf? bytes).map (·.1), max 1 (Text.leadWidth (bytes.headD 0)))

/-- The number in two bytes. -/
def unit (bigEndian : Bool) (a b : UInt8) : Nat :=
  if bigEndian then a.toNat * 256 + b.toNat else b.toNat * 256 + a.toNat

/-- Two bytes for a character, or four for one beyond the first plane. -/
def unitEncoding (bigEndian : Bool) : Encoding := fun bytes =>
  let ofCode (n : Nat) := if n.isValidChar then some (Char.ofNat n) else none
  match bytes with
  | a :: b :: rest =>
    let high := unit bigEndian a b
    if high / 1024 = 54 then
      match rest with
      | c :: d :: _ =>
        let low := unit bigEndian c d
        if low / 1024 = 55 then (ofCode (0x10000 + high % 1024 * 1024 + low % 1024), 4)
        else (none, 4)
      | _ => (none, 4)
    else (ofCode high, 2)
  | _ => (none, 2)

/-- The encoding of a text, and the size of the mark that tells it. -/
def encodingOf (bytes : List UInt8) : Encoding × Nat :=
  match bytes with
  | 0xEF :: 0xBB :: 0xBF :: _ => (octetEncoding, 3)
  | 0xFF :: 0xFE :: _ => (unitEncoding false, 2)
  | 0xFE :: 0xFF :: _ => (unitEncoding true, 2)
  | _ => (octetEncoding, 0)

/-! ## Pieces -/

/-- A scan over the characters of a text, piece by piece. -/
structure Progress where
  chars : Array Char := #[]
  /-- The place of the next character. -/
  offset : Nat
  /-- The end of the current piece. -/
  stop : Nat := pieceSize
  /-- The number of characters in front of the current piece. -/
  before : Nat := 0
  /-- The number of characters of the first piece. -/
  first? : Option Nat := none
  deriving Inhabited

/-- Makes sure that the next bytes are in the current piece; otherwise a new piece starts with
them. -/
def Progress.demand (p : Progress) (width : Nat) : Progress :=
  if p.offset + width ≤ p.stop then p
  else
    { p with
      stop := p.offset + pieceSize
      before := p.chars.size
      first? := some (p.first?.getD p.chars.size) }

/-- Reads characters to the end, or up to something unreadable. -/
def read (encoding : Encoding) : Nat → List UInt8 → Progress → Progress × Bool
  | 0, _, p => (p, false)
  | _, [], p => (p, false)
  | fuel + 1, bytes, p =>
    let (c?, width) := encoding bytes
    -- What the end of the text cuts off is only noticed when more is asked for.
    let p := p.demand (if bytes.length < width then pieceSize + 1 else width)
    match c? with
    | some c =>
      if isAllowed c then
        read encoding fuel (bytes.drop width)
          { p with chars := p.chars.push c, offset := p.offset + width }
      else (p, true)
    | none => (p, true)

/-- What can be read of some bytes. -/
def ofBytes (bytes : List UInt8) : Input :=
  let (encoding, skipped) := encodingOf bytes
  let (p, cut) := read encoding (bytes.length + 1) (bytes.drop skipped) { offset := skipped }
  let chars := if cut then p.chars.toList.take p.before else p.chars.toList
  let doubled := if chars.head? = some mark then p.first?.getD p.chars.size else 0
  { chars := normalizeBreaks chars, cut, doubled }

end Input

end Wordcode.Yaml
