import Wordcode.Proofs.Numerals
import Wordcode.Proofs.Sequence
import Mathlib

namespace Wordcode

/-! # Formatted integers

What a format specification says and what an integer looks like under it. A specification is read
from the left, each part by its first character, so that the parts of one for integers can be read
off it in one way only.

* `Spec.Written` are the parts of a specification for integers, as they are written.
* `Spec.parse_text` reads them, and `Spec.exists_written` says that nothing else is accepted.
* `Spec.formatInt_eq` is the text of an integer.
* `Op.format_int_placed` is the result.
-/

/-- The way an alignment is written. -/
def Align.symbol : Align → Char
  | .left => '<'
  | .right => '>'
  | .center => '^'
  | .inside => '='

namespace Spec

theorem alignOf?_symbol (a : Align) : alignOf? a.symbol = some a := by
  cases a <;> rfl

/-- A character that stands for an alignment is its symbol. -/
theorem eq_symbol_of_alignOf? {c : Char} {a : Align} (h : alignOf? c = some a) : c = a.symbol := by
  unfold alignOf? at h
  split at h <;> cases h <;> rfl

/-- The presentation types of integers. -/
def IsIntegerType (type? : Option Char) : Prop :=
  ∀ c ∈ type?, c ∈ ['d', 'n', 'x', 'X', 'o', 'b']

/-! ## Parts -/

/-- An alignment as it is written, with the fill in front of it if there is one. -/
def alignText : Option (Option Char × Align) → List Char
  | some (fill?, a) => fill?.toList ++ [a.symbol]
  | none => []

/-- The parts of a format specification for integers as they are written. -/
structure Written where
  /-- An alignment, and the fill in front of it if there is one. -/
  align? : Option (Option Char × Align) := none
  sign? : Option Char := none
  zero : Bool := false
  /-- The digits of the width. -/
  width : List Char := []
  comma : Bool := false
  /-- The type as it is written; the byte zero stands for none. -/
  type? : Option Char := none
  deriving DecidableEq, Repr

namespace Written

variable (w : Written)

/-- What stands behind the sign. -/
def tail : List Char :=
  (if w.zero then ['0'] else []) ++
    (w.width ++ ((if w.comma then [','] else []) ++ w.type?.toList))

/-- The whole specification. -/
def text : List Char := alignText w.align? ++ w.sign?.toList ++ w.tail

/-- Each part is one of its kind. A width does not start with a zero, unless another one stands in
front of it. -/
structure Valid : Prop where
  sign : ∀ c ∈ w.sign?, c ∈ ['+', '-', ' ']
  digits : ∀ c ∈ w.width, c.isDigit = true
  leading : w.zero = false → w.width.head? ≠ some '0'
  type : ∀ c ∈ w.type?, c ∈ ['\x00', 'd', 'n', 'x', 'X', 'o', 'b']

/-- What a field is filled up with. -/
def fill : Char :=
  match w.align? with
  | some (fill?, _) => fill?.getD ' '
  | none => if w.zero then '0' else ' '

/-- The alignment; numbers stand on the right, or behind zeros. -/
def align : Align :=
  match w.align? with
  | some (_, a) => a
  | none => if w.zero then .inside else .right

/-- The number of columns that the width asks for. -/
def columns : Nat := Nat.ofDigits 10 (w.width.reverse.map fun c => c.toNat - 48)

/-- The presentation type. -/
def presentation : Option Char := if w.type? = some '\x00' then none else w.type?

/-- The base of the numeral. -/
def base : Nat :=
  match w.presentation with
  | some 'x' | some 'X' => 16
  | some 'o' => 8
  | some 'b' => 2
  | _ => 10

/-- The symbols of the numeral. -/
def symbols : List Char := if w.presentation = some 'X' then capitalSymbols else smallSymbols

/-- The sign of a number: a minus, or what the specification asks for. -/
def signText (v : Int) : List Char :=
  if v < 0 then ['-'] else if w.sign? = some '+' then ['+'] else if w.sign? = some ' ' then [' ']
  else []

/-- The specification that the parts are read as. -/
def spec : Spec where
  fill := w.fill
  align? := if w.align?.isSome || w.zero then some w.align else none
  sign? := w.sign?
  width := min w.columns (Word.limit - 1)
  comma := w.comma
  precision? := none
  type? := w.presentation

end Written

/-! ## Reading -/

variable {s : Spec} {rest cs : List Char} {w : Written}

/-- What can stand behind the sign is no alignment and no sign. -/
theorem Written.Valid.apart (h : w.Valid) {c : Char} (hc : c ∈ w.tail) :
    alignOf? c = none ∧ c ∉ ['+', '-', ' '] := by
  -- after the sign come digits, a comma and the letter of a type, and none of them aligns
  have hkind : c.isDigit = true ∨ c ∈ [',', '\x00', 'd', 'n', 'x', 'X', 'o', 'b'] := by
    simp only [tail, List.mem_append, Option.mem_toList] at hc
    rcases hc with hc | hc | hc | hc
    · obtain rfl : c = '0' := by grind
      exact .inl (by decide)
    · exact .inl (h.digits c hc)
    · exact .inr (by grind)
    · exact .inr (List.mem_cons_of_mem _ (h.type c hc))
  rcases hkind with hdigit | hmem
  · constructor
    · unfold alignOf?
      split <;> first | rfl | exact absurd hdigit (by decide)
    · rintro hsign
      simp only [List.mem_cons, List.not_mem_nil, or_false] at hsign
      rcases hsign with rfl | rfl | rfl <;> exact absurd hdigit (by decide)
  · simp only [List.mem_cons, List.not_mem_nil, or_false] at hmem
    rcases hmem with rfl | rfl | rfl | rfl | rfl | rfl | rfl | rfl <;> exact ⟨rfl, by decide⟩

/-- A fill and an alignment are read back. -/
theorem parseAlign_alignText (h : ∀ c ∈ rest, alignOf? c = none) :
    parseAlign {} (alignText w.align? ++ rest) =
      ({ fill := (w.align?.bind (·.1)).getD ' ', align? := w.align?.map (·.2) }, rest) := by
  unfold alignText
  match w.align?, rest with
  | some (some f, a), rest => simp [parseAlign, alignOf?_symbol]
  | some (none, a), [] => simp [parseAlign, alignOf?_symbol]
  | some (none, a), c :: rest => simp [parseAlign, alignOf?_symbol, h c List.mem_cons_self]
  | none, [] => rfl
  | none, [c] => simp [parseAlign, h c List.mem_cons_self]
  | none, c :: d :: rest =>
      simp [parseAlign, h c List.mem_cons_self, h d (List.mem_cons_of_mem c List.mem_cons_self)]

/-- A sign is read back. -/
theorem parseSign_sign? {sign? : Option Char} (hsign : ∀ c ∈ sign?, c ∈ ['+', '-', ' '])
    (h : ∀ c ∈ rest, c ∉ ['+', '-', ' ']) (hs : s.sign? = none) :
    parseSign s (sign?.toList ++ rest) = ({ s with sign? }, rest) := by
  cases sign? with
  | some c =>
      have hc := hsign c rfl
      simp only [List.mem_cons, List.not_mem_nil, or_false] at hc
      rcases hc with rfl | rfl | rfl <;> rfl
  | none =>
      have hsame : { s with sign? := none } = s := by rw [← hs]
      rw [hsame]
      cases rest with
      | nil => rfl
      | cons c rest =>
          have hc := h c List.mem_cons_self
          simp only [List.mem_cons, List.not_mem_nil, or_false, not_or] at hc
          simp [parseSign, hc]

/-- The zero flag is read back; it has no effect after an alignment. -/
theorem parseZero_zero {zero : Bool} (h : zero = false → rest.head? ≠ some '0') :
    parseZero s ((if zero then ['0'] else []) ++ rest) =
      (if zero && s.align?.isNone then { s with fill := '0', align? := some .inside } else s,
        rest) := by
  cases zero with
  | true => simp [parseZero]
  | false =>
      unfold parseZero
      split
      · simp_all
      · simp

/-- The value of digits, from the left, is the value of the reversed digits in base ten. -/
theorem foldl_digits (ds : List Char) :
    ds.foldl (fun n c => n * 10 + (c.toNat - 48)) 0 =
      Nat.ofDigits 10 (ds.reverse.map fun c => c.toNat - 48) := by
  induction ds using List.reverseRecOn with
  | nil => rfl
  | append_singleton ds d ih =>
      rw [List.foldl_append, ih, List.reverse_append]
      simp only [List.foldl_cons, List.foldl_nil, List.reverse_cons, List.reverse_nil,
        List.nil_append, List.cons_append, List.map_cons, Nat.ofDigits_cons]
      ring

/-- Digits end where something else begins. -/
theorem digits_append {ds : List Char} (hds : ∀ c ∈ ds, c.isDigit = true)
    (h : ∀ c ∈ rest.head?, c.isDigit = false) : digits (ds ++ rest) = (ds, rest) := by
  have hnone : rest.takeWhile Char.isDigit = [] ∧ rest.dropWhile Char.isDigit = rest := by
    cases rest with
    | nil => exact ⟨rfl, rfl⟩
    | cons c rest => simp [h c rfl]
  rw [digits, List.takeWhile_append_of_pos hds, List.dropWhile_append_of_pos hds, hnone.1,
    hnone.2, List.append_nil]

/-- A width is read back. -/
theorem parseWidth_width (hdigits : ∀ c ∈ w.width, c.isDigit = true)
    (h : ∀ c ∈ rest.head?, c.isDigit = false) (hs : s.width = 0) :
    parseWidth s (w.width ++ rest) =
      ({ s with width := min w.columns (Word.limit - 1) }, rest) := by
  have hcolumns : number w.width = min (w.columns : Int) (Word.limit - 1) := by
    rw [number, foldl_digits, Written.columns]
  simp only [parseWidth, digits_append hdigits h, ← hcolumns]
  cases hwidth : w.width with
  | nil =>
      have hzero : number [] = 0 := by decide
      simp [hzero, ← hs]
  | cons c ds => simp

/-- A comma is read back. -/
theorem parseComma_comma {comma : Bool} (h : rest.head? ≠ some ',') (hs : s.comma = false) :
    parseComma s ((if comma then [','] else []) ++ rest) = ({ s with comma }, rest) := by
  cases comma with
  | true => simp [parseComma]
  | false =>
      unfold parseComma
      split
      · simp_all
      · simp [← hs]

/-- The type, which is all that may be left. -/
def parseType (text : String) (s : Spec) : List Char → Except Failure Spec
  | [] => .ok s
  | [c] =>
    if c.toNat = 0 then .ok s
    else if c.toNat < 128 then .ok { s with type? := some c }
    else .error (.raise .value s!"invalid format specifier '{text}'")
  | _ => .error (.raise .value s!"invalid format specifier '{text}'")

/-- A specification is read part by part. -/
theorem parse_eq (text : String) :
    parse text = (do
      let r₁ := parseAlign {} text.toList
      let r₂ := parseSign r₁.1 r₁.2
      let r₃ := parseZero r₂.1 r₂.2
      let r₄ := parseWidth r₃.1 r₃.2
      let r₅ := parseComma r₄.1 r₄.2
      let r₆ ← parsePrecision r₅.1 r₅.2
      parseType text r₆.1 r₆.2) := by
  unfold parse
  refine bind_congr fun r₆ => ?_
  unfold parseType
  split
  all_goals rfl

/-- A type is read back. -/
theorem parseType_type? {text : String} (h : ∀ c ∈ w.type?, c.toNat < 128) (hs : s.type? = none) :
    parseType text s w.type?.toList = .ok { s with type? := w.presentation } := by
  have hsame : { s with type? := none } = s := by rw [← hs]
  cases htype : w.type? with
  | none => simp [parseType, Written.presentation, htype, hsame]
  | some c =>
      have hc := h c htype
      by_cases hzero : c = '\x00'
      · subst hzero
        simp [parseType, Written.presentation, htype, hsame]
      · have hne : c.toNat ≠ 0 := by
          intro heq
          exact hzero (Char.toNat_inj.mp heq)
        simp [parseType, Written.presentation, htype, hzero, hne, hc]

theorem parsePrecision_of_ne (h : cs.head? ≠ some '.') : parsePrecision s cs = .ok (s, cs) := by
  unfold parsePrecision
  split
  · simp at h
  · rfl

/-- The parts of a specification are read as they are written. -/
theorem parse_text (h : w.Valid) : parse (String.ofList w.text) = .ok w.spec := by
  -- what stands behind a part does not start like the part itself
  have htypes : ∀ c ∈ w.type?, c.isDigit = false ∧ c ≠ ',' ∧ c ≠ '.' ∧ c.toNat < 128 := by
    intro c hc
    have htype := h.type c hc
    simp only [List.mem_cons, List.not_mem_nil, or_false] at htype
    rcases htype with rfl | rfl | rfl | rfl | rfl | rfl | rfl <;> decide
  have hcomma : ∀ c ∈ ((if w.comma then [','] else []) ++ w.type?.toList).head?,
      c.isDigit = false := by
    intro c hc
    cases hgroups : w.comma with
    | true =>
        obtain rfl : ',' = c := by simpa [hgroups] using hc
        rfl
    | false => exact (htypes c (by simpa [hgroups] using hc)).1
  have hzero : w.zero = false → (w.width ++ ((if w.comma then [','] else []) ++
      w.type?.toList)).head? ≠ some '0' := by
    intro hnone
    cases hwidth : w.width with
    | nil => exact fun hfirst => absurd (hcomma '0' hfirst) (by decide)
    | cons c ds =>
        have hleading := h.leading hnone
        rwa [hwidth] at hleading
  have hsigns : ∀ c ∈ w.sign?.toList ++ w.tail, alignOf? c = none := by
    intro c hc
    rcases List.mem_append.mp hc with hc | hc
    · have hsign := h.sign c (by simpa using hc)
      simp only [List.mem_cons, List.not_mem_nil, or_false] at hsign
      rcases hsign with rfl | rfl | rfl <;> rfl
    · exact (h.apart hc).1
  rw [parse_eq, String.toList_ofList, Written.text, List.append_assoc]
  simp only [parseAlign_alignText hsigns]
  rw [parseSign_sign? h.sign (fun c hc => (h.apart hc).2) rfl]
  simp only [Written.tail, parseZero_zero hzero]
  rw [parseWidth_width h.digits hcomma (by split <;> rfl)]
  rw [parseComma_comma (fun hfirst => (htypes ',' (by simpa using hfirst)).2.1 rfl)
    (by split <;> rfl)]
  rw [parsePrecision_of_ne fun hfirst => (htypes '.' (by simpa using hfirst)).2.2.1 rfl]
  refine (parseType_type? (fun c hc => (htypes c hc).2.2.2) (by split <;> rfl)).trans ?_
  simp only [Written.spec, Written.fill, Written.align]
  cases w.align? <;> cases w.zero <;> rfl

/-! ## What is read -/

/-- What is read for the alignment is a fill and an alignment, or nothing. -/
theorem exists_alignText (s : Spec) (cs : List Char) :
    ∃ align?, cs = alignText align? ++ (parseAlign s cs).2 := by
  unfold parseAlign
  split
  · split
    · rename_i c d rest _ a ha
      exact ⟨some (some c, a), by rw [eq_symbol_of_alignOf? ha]; rfl⟩
    · split
      · rename_i a ha
        exact ⟨some (none, a), by rw [eq_symbol_of_alignOf? ha]; rfl⟩
      · exact ⟨none, rfl⟩
  · split
    · rename_i a ha
      exact ⟨some (none, a), by rw [eq_symbol_of_alignOf? ha]; rfl⟩
    · exact ⟨none, rfl⟩
  · exact ⟨none, rfl⟩

/-- What is read for the sign is a sign or nothing. -/
theorem exists_sign (s : Spec) (cs : List Char) :
    ∃ sign? : Option Char, (∀ c ∈ sign?, c ∈ ['+', '-', ' ']) ∧
      cs = sign?.toList ++ (parseSign s cs).2 := by
  unfold parseSign
  split
  · split
    · exact ⟨some _, by simp_all [or_assoc], rfl⟩
    · exact ⟨none, by simp, rfl⟩
  · exact ⟨none, by simp, rfl⟩

/-- What is read for the flag is a zero or nothing. -/
theorem exists_zero (s : Spec) (cs : List Char) :
    ∃ zero : Bool, cs = (if zero then ['0'] else []) ++ (parseZero s cs).2 ∧
      (zero = false → (parseZero s cs).2.head? ≠ some '0') := by
  unfold parseZero
  split
  · exact ⟨true, rfl, by simp⟩
  · rename_i hne
    refine ⟨false, rfl, fun _ hzero => ?_⟩
    obtain ⟨rest, hrest⟩ := List.head?_eq_some_iff.mp hzero
    exact hne rest hrest

/-- What is read for the width are digits. -/
theorem exists_width (s : Spec) (cs : List Char) :
    ∃ ds : List Char, (∀ c ∈ ds, c.isDigit = true) ∧ cs = ds ++ (parseWidth s cs).2 := by
  unfold parseWidth digits
  dsimp only
  split
  · exact ⟨[], by simp, rfl⟩
  · exact ⟨cs.takeWhile Char.isDigit, fun c hc => List.mem_takeWhile_imp hc,
      List.takeWhile_append_dropWhile.symm⟩

/-- What is read for grouping is a comma or nothing. -/
theorem exists_comma (s : Spec) (cs : List Char) :
    ∃ comma : Bool, cs = (if comma then [','] else []) ++ (parseComma s cs).2 := by
  unfold parseComma
  split
  · exact ⟨true, rfl⟩
  · exact ⟨false, rfl⟩

/-- Nothing is read for a precision that is missing. -/
theorem eq_of_parsePrecision {s' : Spec} {rest : List Char}
    (h : parsePrecision s cs = .ok (s', rest)) (hnone : s'.precision? = none) : rest = cs := by
  unfold parsePrecision at h
  split at h
  · dsimp only at h
    split at h
    · cases h
    · cases h
      cases hnone
  · cases h
    rfl

/-- Reading the type leaves the precision. -/
theorem parseType_precision? {text : String} {s' : Spec} (h : parseType text s cs = .ok s') :
    s'.precision? = s.precision? := by
  unfold parseType at h
  split at h
  · cases h
    rfl
  · split at h
    · cases h
      rfl
    · split at h
      · cases h
        rfl
      · cases h
  · cases h

/-- What is read for the type of an integer is one of the letters for integers, or nothing. -/
theorem exists_type {text : String} {s' : Spec} (h : parseType text s cs = .ok s')
    (htype : IsIntegerType s'.type?) :
    ∃ type? : Option Char, (∀ c ∈ type?, c ∈ ['\x00', 'd', 'n', 'x', 'X', 'o', 'b']) ∧
      cs = type?.toList := by
  -- at most one character is left, which names the type
  unfold parseType at h
  split at h
  · exact ⟨none, by simp, rfl⟩
  · rename_i c
    refine ⟨some c, ?_, rfl⟩
    rintro c' ⟨⟩
    split at h
    · rename_i hzero
      obtain rfl : c = '\x00' := Char.toNat_inj.mp hzero
      exact List.mem_cons_self
    · split at h
      · cases h
        exact List.mem_cons_of_mem _ (htype c rfl)
      · cases h
  · cases h

/-- Nothing but written parts is accepted as a specification for integers without a precision. -/
theorem exists_written {text : String} (h : parse text = .ok s) (hprecision : s.precision? = none)
    (htype : IsIntegerType s.type?) : ∃ w : Written, w.Valid ∧ text = String.ofList w.text := by
  rw [parse_eq] at h
  obtain ⟨⟨s₆, r₆⟩, hr₆, hlast⟩ := except_bind_eq_ok h
  have hsame := eq_of_parsePrecision hr₆ ((parseType_precision? hlast).symm.trans hprecision)
  subst hsame
  -- each reader leaves what the next one reads, so the text is put together from the back
  obtain ⟨type?, htypes, hr₅⟩ := exists_type hlast htype
  obtain ⟨align?, hr₁⟩ := exists_alignText {} text.toList
  generalize parseAlign {} text.toList = r₁ at *
  obtain ⟨sign?, hsign, hr₂⟩ := exists_sign r₁.1 r₁.2
  generalize parseSign r₁.1 r₁.2 = r₂ at *
  obtain ⟨zero, hr₃, hleading⟩ := exists_zero r₂.1 r₂.2
  generalize parseZero r₂.1 r₂.2 = r₃ at *
  obtain ⟨width, hdigits, hr₄⟩ := exists_width r₃.1 r₃.2
  generalize parseWidth r₃.1 r₃.2 = r₄ at *
  obtain ⟨comma, hr₅'⟩ := exists_comma r₄.1 r₄.2
  refine ⟨{ align?, sign?, zero, width, comma, type? }, ⟨hsign, hdigits, ?_, htypes⟩, ?_⟩
  · intro hzero hfirst
    refine hleading hzero ?_
    rw [hr₄, List.head?_append, hfirst]
    rfl
  · rw [hr₅] at hr₅'
    rw [← String.ofList_toList (s := text), hr₁, hr₂, hr₃, hr₄, hr₅']
    simp [Written.text, Written.tail]

/-! ## Texts of integers -/

namespace Written

/-- The numeral of a number as it is formatted. -/
def numeral (w : Written) (n : Nat) : List Char :=
  if w.presentation = some 'X' then (Nat.toDigits w.base n).map Char.toUpper
  else Nat.toDigits w.base n

/-- The numeral of a number, in groups if the specification asks for it. -/
def body (w : Written) (n : Nat) : List Char :=
  if w.comma && w.base = 10 then groupThousands (w.numeral n) else w.numeral n

/-- Every base has more than one digit and at most sixteen. -/
theorem one_lt_base (w : Written) : 1 < w.base ∧ w.base ≤ 16 := by
  unfold base
  split <;> decide

/-- The numeral of a number in the base. -/
theorem isNumeral_numeral (w : Written) (n : Nat) :
    IsNumeral w.base w.symbols n (w.numeral n) := by
  unfold numeral symbols
  split
  · rename_i hcapital
    have hbase : w.base = 16 := by simp [base, hcapital]
    rw [hbase]
    exact isNumeral_toUpper n
  · exact isNumeral_toDigits w.one_lt_base.1 w.one_lt_base.2 n

/-- Decimal numerals are grouped by thousands. -/
theorem grouped_numeral {w : Written} (hbase : w.base = 10) (n : Nat) :
    Grouped (w.numeral n) (groupThousands (w.numeral n)) := by
  have hcapital : w.presentation ≠ some 'X' := by
    intro hcapital
    simp [base, hcapital] at hbase
  refine grouped_groupThousands fun hcomma => ?_
  rw [numeral, if_neg hcapital, hbase] at hcomma
  exact absurd (Nat.isDigit_of_mem_toDigits (by decide) (by decide) hcomma) (by decide)

/-- The text of a word is short. -/
theorem length_body_le (w : Written) {n : Nat} (hn : n < 2 ^ 64) : (w.body n).length ≤ 128 := by
  have hdigits : (Nat.toDigits w.base n).length ≤ 64 := by
    rw [Nat.length_toDigits_le_iff w.one_lt_base.1 (by decide)]
    exact hn.trans_le (Nat.pow_le_pow_left w.one_lt_base.1 64)
  have hnumeral : (w.numeral n).length ≤ 64 := by
    unfold numeral
    split
    · rwa [List.length_map]
    · exact hdigits
  unfold body
  split
  · have hgroups := length_go_le (w.numeral n).reverse
    rw [List.length_reverse] at hgroups
    rw [groupThousands, List.length_reverse]
    omega
  · omega

end Written

/-- The absolute value of an integer has 64 bits. -/
theorem natAbs_toInt_lt (v : Int64) : v.toInt.natAbs < 2 ^ 64 := by
  have hlow := v.le_toInt
  have hhigh := v.toInt_lt
  omega

/-- The sign that is written. -/
theorem signOf_spec (w : Written) (v : Int64) : w.spec.signOf (v < 0) = w.signText v.toInt := by
  simp only [signOf, Written.spec, Written.signText, decide_eq_true_eq, Word.toInt_neg_iff]
  split
  · rfl
  · split <;> simp_all

/-- A sign is one character, if any. -/
theorem length_signText_le (w : Written) (v : Int) : (w.signText v).length ≤ 1 := by
  unfold Written.signText
  repeat' split
  all_goals simp

/-- A short text is filled up to the width, if what is filled in fits into memory. -/
theorem pad_spec (w : Written) {sign body : List Char} (hshort : sign.length + body.length ≤ 129) :
    w.spec.pad w.align sign body =
      if maxMemory < w.columns - (sign.length + body.length) then .error .crash
      else .ok (String.ofList
        (w.spec.fillUp w.align sign body (w.columns - (sign.length + body.length)))) := by
  have hcount : (w.spec.width - sign.length - body.length).toNat =
      min w.columns (Word.limit - 1).toNat - (sign.length + body.length) := by
    simp only [Written.spec, Word.limit]
    omega
  unfold pad
  rw [hcount]
  -- a width that is cut off at the largest word does not fit into memory either
  by_cases hwidth : w.columns ≤ (Word.limit - 1).toNat
  · rw [Nat.min_eq_left hwidth]
  · have hlarge : maxMemory < (Word.limit - 1).toNat - 129 := by decide
    rw [Nat.min_eq_right (Nat.le_of_not_le hwidth), if_pos (by omega), if_pos (by omega)]

/-- An integer under a specification: its sign and its numeral are filled up to the width, if that
fits into memory. -/
theorem formatInt_eq (w : Written) (htype : IsIntegerType w.presentation) (v : Int64) :
    w.spec.formatInt v = w.spec.pad w.align (w.signText v.toInt) (w.body v.toInt.natAbs) := by
  have halign : w.spec.align?.getD .right = w.align := by
    simp only [Written.spec, Written.align]
    cases w.align? <;> cases w.zero <;> rfl
  have hprecision : w.spec.precision? = none := rfl
  have hcomma : w.spec.comma = w.comma := rfl
  have hpresentation : w.spec.type? = w.presentation := rfl
  unfold formatInt
  simp only [halign, hprecision, hcomma, hpresentation, signOf_spec, Option.isSome_none,
    Bool.false_eq_true, if_false]
  cases hkind : w.presentation with
  | none => simp [Written.body, Written.numeral, Written.base, hkind]
  | some c =>
      have hc := htype c hkind
      simp only [List.mem_cons, List.not_mem_nil, or_false] at hc
      -- the letters pick a base and its digits
      rcases hc with rfl | rfl | rfl | rfl | rfl | rfl <;>
        simp [Written.body, Written.numeral, Written.base, hkind]

/-- Without any specification an integer is written as under one that asks for nothing. -/
theorem toString_eq (v : Int) :
    toString v = String.ofList (Written.signText {} v ++ Nat.toDigits 10 v.natAbs) := by
  have hsign : Written.signText {} v = if v < 0 then ['-'] else [] := rfl
  rw [hsign, Int.toString_eq_repr, Int.repr_eq_if]
  split
  · have habs : v.natAbs = v.toNat := by omega
    rw [habs, if_neg (by omega), Nat.repr_eq_ofList_toDigits]
    rfl
  · have habs : v.natAbs = (-v).toNat := by omega
    rw [habs, if_pos (by omega), Nat.repr_eq_ofList_toDigits, String.ofList_append]

/-- Where nothing is written, nothing is asked for. -/
theorem Written.eq_of_text_eq_nil {w : Written} (h : w.text = []) : w = {} := by
  obtain ⟨align?, sign?, zero, width, comma, type?⟩ := w
  simp only [text, tail, List.append_eq_nil_iff, Option.toList_eq_nil_iff] at h
  obtain ⟨⟨halign, rfl⟩, hzero, rfl, hcomma, rfl⟩ := h
  -- every part that is given writes something
  obtain rfl : align? = none := by
    cases align? with
    | none => rfl
    | some p => simp [alignText] at halign
  obtain rfl : zero = false := by
    cases zero with
    | false => rfl
    | true => cases hzero
  obtain rfl : comma = false := by
    cases comma with
    | false => rfl
    | true => cases hcomma
  rfl

/-- The presentation of a valid specification is one for integers. -/
theorem Written.Valid.isIntegerType {w : Written} (h : w.Valid) :
    IsIntegerType w.presentation := by
  intro c hc
  unfold Written.presentation at hc
  split at hc
  · cases hc
  · rename_i hzero
    rcases List.mem_cons.mp (h.type c hc) with rfl | hmem
    · exact absurd hc hzero
    · exact hmem

end Spec

namespace Op

open Spec

/-- An integer is formatted by the parts of its specification. -/
theorem format_int_eq {w : Written} (h : w.Valid) (v : Int64) (s : Store) :
    format (.int v) (String.ofList w.text) s =
      ofExcept (w.spec.pad w.align (w.signText v.toInt) (w.body v.toInt.natAbs)) s := by
  unfold format
  -- an empty specification writes the number as `str` does, which is the default layout
  split
  · rename_i hempty
    obtain rfl := Written.eq_of_text_eq_nil (by simpa using hempty)
    have hstr : str (.int v) s = .ok (toString v.toInt) s := by
      show EStateM.Result.ok (s.reprIn s.size {} (.int v)) s = _
      cases s.size <;> rfl
    have hbody : Written.body {} v.toInt.natAbs = Nat.toDigits 10 v.toInt.natAbs := rfl
    have hshort := Written.length_body_le {} (natAbs_toInt_lt v)
    have hsign := length_signText_le {} v.toInt
    rw [hstr, toString_eq, pad_spec {} (by omega), hbody]
    have hcolumns : Written.columns {} = 0 := rfl
    rw [hcolumns, Nat.zero_sub, if_neg (by decide)]
    rfl
  · rw [parse_text h]
    exact congrArg (fun x => ofExcept x s) (formatInt_eq w h.isIntegerType v)

/-- Every integer is written faithfully under every specification for integers. Its numeral is in
the base of the specification, and in groups if these are asked for. With its sign it is filled up
to the width, which has a result unless what is filled in exceeds all memory. What is written in
parts is such a specification, and no other text is accepted as one. -/
theorem format_int_placed (v : Int64) (s : Store) :
    (∀ w : Written, w.Valid → ∃ (spec : Spec) (numeral body : List Char),
      parse (String.ofList w.text) = .ok spec ∧ spec.precision? = none ∧
      IsIntegerType spec.type? ∧ IsNumeral w.base w.symbols v.toInt.natAbs numeral ∧
      (if w.comma ∧ w.base = 10 then Grouped numeral body else body = numeral) ∧
      if w.columns - ((w.signText v.toInt).length + body.length) ≤ maxMemory then
        ∃ text, format (.int v) (String.ofList w.text) s = .ok (String.ofList text) s ∧
          text.length = max w.columns ((w.signText v.toInt).length + body.length) ∧
          Placed w.fill w.align w.columns (w.signText v.toInt) body text
      else format (.int v) (String.ofList w.text) s = .error .crash s) ∧
    ∀ (text : String) (spec : Spec), parse text = .ok spec → spec.precision? = none →
      IsIntegerType spec.type? → ∃ w : Written, w.Valid ∧ text = String.ofList w.text := by
  refine ⟨fun w h => ?_, fun text spec => exists_written⟩
  refine ⟨w.spec, w.numeral v.toInt.natAbs, w.body v.toInt.natAbs, parse_text h, rfl,
    h.isIntegerType, w.isNumeral_numeral _, ?body, ?text⟩
  case body =>
    unfold Written.body
    by_cases hgroups : w.comma ∧ w.base = 10
    · simpa [hgroups] using Written.grouped_numeral hgroups.2 _
    · simp [hgroups]
  case text =>
    -- a number and its sign are far shorter than the bound on memory
    have hshort := w.length_body_le (natAbs_toInt_lt v)
    have hsign := length_signText_le w v.toInt
    rw [format_int_eq h, pad_spec w (by omega)]
    split
    · rename_i hfits
      have hplaced := w.spec.placed_fillUp w.align (w.signText v.toInt) (w.body v.toInt.natAbs)
        w.columns
      exact ⟨_, by rw [if_neg (Nat.not_lt.mpr hfits)]; rfl, hplaced.length_eq, hplaced⟩
    · rename_i hlarge
      rw [if_pos (Nat.lt_of_not_le hlarge)]
      rfl

/-- The least integer in groups, in the middle of a field. -/
theorem format_int_placed_least :
    let w : Written :=
      { align? := some (some 'é', .center), sign? := some '+', width := ['2', '9'], comma := true
        type? := some 'd' }
    w.Valid ∧ ∃ numeral body text,
      IsNumeral 10 smallSymbols 9223372036854775808 numeral ∧ Grouped numeral body ∧
      Placed 'é' .center 29 ['-'] body text ∧
      format (.int Int64.minValue) "é^+29,d" {} = .ok (String.ofList text) {} ∧
      String.ofList text = "é-9,223,372,036,854,775,808éé" := by
  intro w
  have hvalid : w.Valid := ⟨by simp [w], by simp [w], by simp [w], by simp [w]⟩
  obtain ⟨spec, numeral, body, -, -, -, hnumeral, hbody, htext⟩ :=
    (format_int_placed Int64.minValue {}).1 w hvalid
  have hgroups : w.comma ∧ w.base = 10 := by decide
  have hcolumns : w.columns = 29 := by decide
  have hsign : w.signText Int64.minValue.toInt = ['-'] := by decide
  have hfits : ∀ n, 29 - n ≤ maxMemory := fun n => (Nat.sub_le 29 n).trans (by decide)
  rw [if_pos hgroups] at hbody
  rw [hcolumns, if_pos (hfits _), hsign] at htext
  obtain ⟨text, hformat, -, hplaced⟩ := htext
  have hrun : format (.int Int64.minValue) (String.ofList w.text) {} =
      .ok "é-9,223,372,036,854,775,808éé" {} := by
    cbv
  refine ⟨hvalid, numeral, body, text, hnumeral, hbody, hplaced, hformat, ?_⟩
  rw [hrun] at hformat
  exact (EStateM.Result.ok.inj hformat).1.symm

end Op

end Wordcode
