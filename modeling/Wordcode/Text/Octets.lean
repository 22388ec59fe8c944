namespace Wordcode.Text

/-! # Texts as bytes

The bytes of a text are its encoding in UTF-8. Bytes from outside need not be the encoding of a
text: some of them make up characters, and the others are stray.

* `octets` are the bytes of a text.
* `characterOf?` reads a character off the front of some bytes, and `pieces` cuts bytes into
  characters and stray bytes.
* `ofOctets` is the text that is shown for bytes, with the replacement character for stray ones.
* `Stray` is a sequence of bytes that is no text.
-/

/-- The bytes of a text. -/
def octets (s : String) : List UInt8 := s.toUTF8.data.toList

/-- The text with the given bytes, if there is one. -/
def ofUtf8? (bytes : List UInt8) : Option String := String.fromUTF8? ⟨bytes.toArray⟩

/-- Bytes that are the encoding of no text. -/
@[ext]
structure Stray where
  bytes : List UInt8
  no_text : ofUtf8? bytes = none

/-- The character that is shown for a stray byte. -/
def replacement : Char := '\ufffd'

/-! ## Characters as bytes -/

/-- How many bytes the character takes that starts with a byte; none starts with a byte from the
inside of a character. -/
def leadWidth (b : UInt8) : Nat :=
  if b < 0x80 then 1
  else if b < 0xC0 then 0
  else if b < 0xE0 then 2
  else if b < 0xF0 then 3
  else if b < 0xF8 then 4
  else 0

/-- The smallest code that takes a number of bytes. -/
def leastCode (width : Nat) : Nat :=
  match width with
  | 2 => 0x80
  | 3 => 0x800
  | 4 => 0x10000
  | _ => 0

/-- The part of a code that the first byte of a character holds. -/
def leadBits (width : Nat) (b : UInt8) : Nat :=
  match width with
  | 2 => b.toNat % 32
  | 3 => b.toNat % 16
  | 4 => b.toNat % 8
  | _ => b.toNat

/-- Whether a byte belongs to the inside of a character. -/
def isTrail (b : UInt8) : Bool := 0x80 ≤ b && b < 0xC0

/-- The character at the front of some bytes, and its width. Its bytes must be the shortest that
hold its code. -/
def characterOf? (bytes : List UInt8) : Option (Char × Nat) :=
  match bytes with
  | [] => none
  | b :: rest =>
    let width := leadWidth b
    let trail := rest.take (width - 1)
    let code := trail.foldl (fun n t => n * 64 + t.toNat % 64) (leadBits width b)
    if width ≠ 0 && trail.length = width - 1 && trail.all isTrail && leastCode width ≤ code &&
        code.isValidChar then
      some (Char.ofNat code, width)
    else none

/-- The characters and the stray bytes that bytes are made of. -/
def pieces : List UInt8 → List (Char ⊕ UInt8)
  | [] => []
  | b :: rest =>
    match characterOf? (b :: rest) with
    | some (c, width) => .inl c :: pieces (rest.drop (width - 1))
    | none => .inr b :: pieces rest
termination_by bytes => bytes.length
decreasing_by all_goals simp only [List.length_drop, List.length_cons]; omega

/-- The characters that are shown for bytes. -/
def ofOctets (bytes : List UInt8) : List Char :=
  (pieces bytes).map (Sum.elim id fun _ => replacement)

/-- The text that is shown for bytes that are no text. -/
def Stray.shown (s : Stray) : String := String.ofList (ofOctets s.bytes)

end Wordcode.Text
