import Wordcode.Text.Octets
import Wordcode.Text.Search
import Mathlib

namespace Wordcode.Text

/-! # Occurrences

A search looks for the first occurrence of a text, in characters. In the encoding of the texts, an
occurrence can only start where a character starts, so that a search in bytes finds the same one.

* `find?_eq_some_iff` and `find?_eq_none_iff` say what a search finds.
* `encode` is the encoding of a text.
* `encode_take_of_prefix_drop`: occurrences in bytes are occurrences in characters.
* `first_octets_of_find?` and `not_infix_octets_of_find?` say what a search finds in bytes.
-/

variable {s t : List Char} {i : Nat}

/-! ## Characters -/

/-- A search finds the first position at which the text occurs. -/
theorem find?_eq_some_iff :
    find? t s = some i ↔ i ≤ s.length ∧ t <+: s.drop i ∧ ∀ j < i, ¬ t <+: s.drop j := by
  induction s generalizing i with
  | nil => cases t <;> cases i <;> simp [find?]
  | cons c s ih =>
      -- either the text begins here, or its first place is one further
      by_cases hfirst : t <+: c :: s
      · have hfind : find? t (c :: s) = some 0 := by simp [find?, hfirst]
        rw [hfind]
        constructor
        · rintro ⟨⟩
          exact ⟨Nat.zero_le _, hfirst, fun j hj => absurd hj (Nat.not_lt_zero j)⟩
        · rintro ⟨-, -, hleast⟩
          cases i with
          | zero => rfl
          | succ i => exact absurd hfirst (hleast 0 (Nat.zero_lt_succ i))
      · have hfind : find? t (c :: s) = (find? t s).map (· + 1) := by simp [find?, hfirst]
        rw [hfind]
        cases i with
        | zero => simp [hfirst]
        | succ i =>
            have hshift : (find? t s).map (· + 1) = some (i + 1) ↔ find? t s = some i := by simp
            rw [hshift, ih, List.length_cons, Nat.succ_le_succ_iff, List.drop_succ_cons]
            refine and_congr_right fun _ => and_congr_right fun _ => ⟨fun hleast j hj => ?_,
              fun hleast j hj => hleast (j + 1) (Nat.succ_lt_succ hj)⟩
            cases j with
            | zero => exact hfirst
            | succ j => exact hleast j (Nat.lt_of_succ_lt_succ hj)

/-- A search finds nothing where the text does not occur. -/
theorem find?_eq_none_iff : find? t s = none ↔ ¬ t <:+: s := by
  induction s with
  | nil => cases t <;> simp [find?]
  | cons c s ih =>
      rw [List.infix_cons_iff, not_or, ← ih]
      by_cases hfirst : t <+: c :: s <;> simp [find?, hfirst]

/-! ## Bytes -/

/-- The encoding of a text. -/
def encode (s : List Char) : List UInt8 := s.flatMap String.utf8EncodeChar

@[simp]
theorem encode_cons (c : Char) (s : List Char) :
    encode (c :: s) = String.utf8EncodeChar c ++ encode s := List.flatMap_cons

theorem encode_append (s t : List Char) : encode (s ++ t) = encode s ++ encode t :=
  List.flatMap_append

/-- The bytes of a text are its encoding. -/
theorem octets_eq_encode (s : String) : octets s = encode s.toList := by
  rw [octets, String.toUTF8, ← String.utf8Encode_toList, List.utf8Encode, List.data_toByteArray]
  rfl

/-- Characters can be told apart by their bytes, so that one encoding is the start of another one
only where the text is. -/
theorem prefix_of_encode (h : encode t <+: encode s) : t <+: s := by
  obtain ⟨rest, hrest⟩ := h
  refine List.isPrefix_of_utf8Encode_append_eq_utf8Encode rest.toByteArray ?_
  rw [List.utf8Encode, List.utf8Encode, ← List.toByteArray_append]
  exact congrArg List.toByteArray hrest

theorem encode_prefix_encode (h : t <+: s) : encode t <+: encode s := by
  obtain ⟨rest, rfl⟩ := h
  exact encode_append t rest ▸ List.prefix_append _ _

/-- The bytes in front of a position. -/
theorem encode_drop (s : List Char) (i : Nat) :
    (encode s).drop (encode (s.take i)).length = encode (s.drop i) := by
  conv_lhs => rw [← List.take_append_drop i s, encode_append]
  simp

/-- The encoding of a text starts with the first byte of a character. -/
theorem isUTF8FirstByte_of_mem_head? (ht : t ≠ []) {b : UInt8} (h : (encode t).head? = some b) :
    b.IsUTF8FirstByte := by
  cases t with
  | nil => exact absurd rfl ht
  | cons c t =>
      have hpos : 0 < (String.utf8EncodeChar c).length :=
        List.length_pos_iff.mpr String.utf8EncodeChar_ne_nil
      rw [encode_cons, List.head?_append_of_ne_nil _ String.utf8EncodeChar_ne_nil,
        List.head?_eq_getElem?, List.getElem?_eq_getElem hpos] at h
      cases h
      exact UInt8.isUTF8FirstByte_getElem_utf8EncodeChar.mpr rfl

/-- No byte inside of a character is the first one of a character, so an occurrence in bytes starts
where a character starts. -/
theorem encode_take_of_prefix_drop (ht : t ≠ []) {k : Nat} (h : encode t <+: (encode s).drop k) :
    ∃ i, k = (encode (s.take i)).length ∧ t <+: s.drop i := by
  induction s generalizing k with
  | nil =>
      have hnil : encode t = [] := by simpa [encode] using h
      cases t with
      | nil => exact absurd rfl ht
      | cons c t => simp [String.utf8EncodeChar_ne_nil] at hnil
  | cons c s ih =>
      rcases Nat.lt_or_ge k (String.utf8EncodeChar c).length with hinside | hbehind
      · -- the first byte of the occurrence is one of the first character's
        have hhead : ((encode (c :: s)).drop k).head? = some (String.utf8EncodeChar c)[k] := by
          rw [List.head?_drop, encode_cons, List.getElem?_append_left hinside,
            List.getElem?_eq_getElem hinside]
        obtain ⟨b, hb⟩ : ∃ b, (encode t).head? = some b := by
          cases t with
          | nil => exact absurd rfl ht
          | cons d t =>
              rw [encode_cons, List.head?_append_of_ne_nil _ String.utf8EncodeChar_ne_nil]
              exact ⟨_, List.head?_eq_some_head String.utf8EncodeChar_ne_nil⟩
        have hsame : (String.utf8EncodeChar c)[k] = b := by
          obtain ⟨rest, hrest⟩ := h
          rw [← hrest, List.head?_append, hb] at hhead
          exact (Option.some.inj hhead).symm
        have hfirst := isUTF8FirstByte_of_mem_head? ht hb
        rw [← hsame, UInt8.isUTF8FirstByte_getElem_utf8EncodeChar] at hfirst
        subst hfirst
        exact ⟨0, by simp [encode], prefix_of_encode h⟩
      · rw [encode_cons, List.drop_append, List.drop_eq_nil_of_le hbehind, List.nil_append] at h
        obtain ⟨i, hi, hbegins⟩ := ih h
        refine ⟨i + 1, ?_, hbegins⟩
        rw [List.take_succ_cons, encode_cons, List.length_append]
        omega

theorem length_encode_take_le {j : Nat} (h : i ≤ j) :
    (encode (s.take i)).length ≤ (encode (s.take j)).length :=
  (encode_prefix_encode (List.take_prefix_take_left h)).length_le

/-- The bytes of a text first occur behind those of the characters in front of the position that is
found. -/
theorem first_octets_of_find? {s t : String} (h : find? t.toList s.toList = some i) :
    octets t <+: (octets s).drop (octets (String.ofList (s.toList.take i))).length ∧
      ∀ k < (octets (String.ofList (s.toList.take i))).length,
        ¬ octets t <+: (octets s).drop k := by
  obtain ⟨-, hoccurs, hleast⟩ := find?_eq_some_iff.mp h
  simp only [octets_eq_encode, String.toList_ofList]
  refine ⟨by rw [encode_drop]; exact encode_prefix_encode hoccurs, fun k hk hbytes => ?_⟩
  have hne : t.toList ≠ [] := by
    intro hempty
    obtain rfl : i = 0 := by
      by_contra hi
      exact hleast 0 (Nat.pos_of_ne_zero hi) (hempty ▸ List.nil_prefix)
    exact absurd hk (Nat.not_lt_zero k)
  -- an occurrence in the bytes starts where a character does
  obtain ⟨j, rfl, hbegins⟩ := encode_take_of_prefix_drop hne hbytes
  have hbefore : j < i := by
    by_contra hge
    exact absurd (length_encode_take_le (Nat.le_of_not_lt hge)) (Nat.not_le.mpr hk)
  exact hleast j hbefore hbegins

/-- The bytes of a text that is not found do not occur either. -/
theorem not_infix_octets_of_find? {s t : String} (h : find? t.toList s.toList = none) :
    ¬ octets t <:+: octets s := by
  rw [find?_eq_none_iff] at h
  simp only [octets_eq_encode]
  rintro ⟨front, back, hbytes⟩
  have hne : t.toList ≠ [] := fun hempty => h (hempty ▸ List.nil_infix)
  have hdrop : encode t.toList <+: (encode s.toList).drop front.length := by
    rw [← hbytes, List.append_assoc, List.drop_left]
    exact List.prefix_append _ _
  obtain ⟨j, -, hbegins⟩ := encode_take_of_prefix_drop hne hdrop
  exact h (hbegins.isInfix.trans (List.drop_suffix j _).isInfix)

end Wordcode.Text
