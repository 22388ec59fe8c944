import Wordcode.Proofs.Doubles
import Mathlib

namespace Wordcode

/-! # Items and their bytes

Reading undoes writing: the canonical encoding of an item is read back as that item, as long as the
item keeps to the limits of the reader. Beyond the limits it is not read back as anything else.

* `Cbor.Item.Within` says that an item keeps to the limits.
* `Cbor.readHead?_head`: heads of every size class are read back.
* `Cbor.readItem?_encode` reads an item back, whatever bytes come after it.
* `Cbor.decode?_encode` is the same for an item that takes up all of the input.
* `Cbor.eq_of_readItem?`: what is read where an item was written is that item.
-/

namespace Cbor

/-! ## Limits -/

/-- Bits of a double that is written as it is: one that is a number, or the one that is not. -/
def Canonical (x : UInt64) : Prop := Decimal.isNan x → x = quietNan

/-- An item that the reader accepts when containers may nest as deep as given: numbers and lengths
are words, and no container has too many entries. Tags and further simple values are left out. -/
inductive Item.Within : Nat → Item → Prop
  | unsigned {nesting n : Nat} : n < Word.modulus → Within nesting (.unsigned n)
  | negative {nesting n : Nat} : n < Word.modulus → Within nesting (.negative n)
  | bytes {nesting : Nat} {bs : List UInt8} : bs.length < Word.modulus → Within nesting (.bytes bs)
  | text {nesting : Nat} {bs : List UInt8} : bs.length < Word.modulus → Within nesting (.text [bs])
  | bool {nesting : Nat} {b : Bool} : Within nesting (.bool b)
  | null {nesting : Nat} : Within nesting .null
  | float {nesting : Nat} {x : UInt64} : Canonical x → Within nesting (.float x)
  | array {nesting : Nat} {items : List Item} : items.length ≤ maxElements →
    (∀ i ∈ items, Within nesting i) → Within (nesting + 1) (.array items)
  | map {nesting : Nat} {entries : List (Item × Item)} : entries.length ≤ maxElements →
    (∀ e ∈ entries, Within nesting e.1) → (∀ e ∈ entries, Within nesting e.2) →
    Within (nesting + 1) (.map entries)

theorem canonical_ofFloat (x : UInt64) :
    Canonical (if Decimal.isNan x then quietNan else x) := by
  split
  · exact fun _ => rfl
  · rename_i hx
    exact fun h => absurd h hx

theorem Item.Within.ofFloat (nesting : Nat) (x : UInt64) : (Item.ofFloat x).Within nesting :=
  .float (canonical_ofFloat x)

/-! ## Heads -/

@[simp]
theorem length_bigEndian (width n : Nat) : (bigEndian width n).length = width := by
  induction width generalizing n with
  | zero => rfl
  | succ width ih => simp [bigEndian, ih]

/-- Bytes denote the number that they were made from, as far as they reach. -/
theorem ofBigEndian_bigEndian (width n : Nat) :
    ofBigEndian (bigEndian width n) = n % 256 ^ width := by
  induction width generalizing n with
  | zero =>
      rw [Nat.pow_zero, Nat.mod_one]
      rfl
  | succ width ih =>
      have hstep : ofBigEndian (bigEndian (width + 1) n) =
          ofBigEndian (bigEndian width (n / 256)) * 256 + n % 256 := by
        simp [ofBigEndian, bigEndian]
      rw [hstep, ih, Nat.pow_succ, Nat.mul_comm (256 ^ width) 256, Nat.mod_mul]
      omega

/-- Exactly as many bytes as asked for. -/
theorem splitBytes?_append {n : Nat} {bs : List UInt8} (h : bs.length = n) (rest : List UInt8) :
    splitBytes? n (bs ++ rest) = some (bs, rest) := by
  subst h
  unfold splitBytes?
  rw [if_pos (by simp)]
  simp

/-- The first byte of a head. -/
theorem toNat_first {major size : Nat} (hmajor : major < 8) (hsize : size < 32) :
    (UInt8.ofNat (major * 32 + size)).toNat = major * 32 + size := by
  rw [UInt8.toNat_ofNat']
  omega

/-- A head whose number follows the first byte. -/
theorem readHead?_wide {major size width n : Nat} (hmajor : major < 8)
    (hsize : (size, width) ∈ [(24, 1), (25, 2), (26, 4), (27, 8)]) (hn : n < 256 ^ width)
    (rest : List UInt8) :
    readHead? (UInt8.ofNat (major * 32 + size) :: bigEndian width n ++ rest) =
      some (major, size, .exact n, rest) := by
  have hsplit := splitBytes?_append (length_bigEndian width n) rest
  have hvalue : ofBigEndian (bigEndian width n) = n := by
    rw [ofBigEndian_bigEndian, Nat.mod_eq_of_lt hn]
  have hlt : size < 32 := by
    have hall : ∀ p ∈ [(24, 1), (25, 2), (26, 4), (27, 8)], p.1 < 32 := by decide
    exact hall _ hsize
  -- the first byte has the major type and the size
  have hfirst := toNat_first hmajor hlt
  have hdiv : (major * 32 + size) / 32 = major := by omega
  have hmod : (major * 32 + size) % 32 = size := by omega
  rw [List.cons_append, readHead?, hfirst, hdiv, hmod]
  simp only [List.mem_cons, Prod.mk.injEq, List.not_mem_nil, or_false] at hsize
  rcases hsize with ⟨rfl, rfl⟩ | ⟨rfl, rfl⟩ | ⟨rfl, rfl⟩ | ⟨rfl, rfl⟩
  all_goals
    simp [hsplit, hvalue]

/-- A head is read back; only small numbers show in its size class. -/
theorem readHead?_head (major : Nat) {n : Nat} (hmajor : major < 8) (hn : n < Word.modulus)
    (rest : List UInt8) :
    ∃ size, readHead? (head major n ++ rest) = some (major, size, .exact n, rest) := by
  -- the size is chosen by the length of the argument
  unfold head
  split
  · rename_i hsmall
    have hfirst := toNat_first hmajor (show n < 32 by omega)
    have hdiv : (major * 32 + n) / 32 = major := by omega
    have hmod : (major * 32 + n) % 32 = n := by omega
    refine ⟨n, ?_⟩
    rw [List.singleton_append, readHead?, hfirst, hdiv, hmod]
    rw [if_pos hsmall]
  · split
    · exact ⟨24, readHead?_wide hmajor (by decide) (by omega) rest⟩
    · split
      · exact ⟨25, readHead?_wide hmajor (by decide) (by omega) rest⟩
      · split
        · exact ⟨26, readHead?_wide hmajor (by decide) (by omega) rest⟩
        · exact ⟨27, readHead?_wide hmajor (by decide) (by unfold Word.modulus at hn; omega) rest⟩

/-- The head of a float holds its bits. -/
theorem readHead?_encodeFloat {x : UInt64} (h : Canonical x) (rest : List UInt8) :
    ∃ size n, readHead? (encodeFloat x ++ rest) = some (7, size, .exact n, rest) ∧
      readSimple? size n = some (.float x) := by
  obtain ⟨size, width, n, hsize, hn, hencode, hread⟩ := exists_encodeFloat fun hnan =>
    h (decide_eq_true hnan)
  refine ⟨size, n, ?_, hread⟩
  rw [hencode]
  exact readHead?_wide (by decide) (List.mem_cons_of_mem _ hsize) hn rest

theorem one_le_length_head (major n : Nat) : 1 ≤ (head major n).length := by
  unfold head
  split
  · simp
  · split
    · simp
    · split
      · simp
      · split <;> simp

/-- Every item takes at least one byte. -/
theorem one_le_length_encode (i : Item) : 1 ≤ (encode i).length := by
  have hhead := one_le_length_head
  cases i with
  | unsigned | negative | simple => exact hhead _ _
  | bytes | text | array | map | tag =>
      rw [encode, List.length_append]
      exact Nat.le_add_right_of_le (hhead _ _)
  | bool | null => simp [encode]
  | float x =>
      rw [encode, encodeFloat]
      split
      · simp
      · simp
      · split <;> simp

/-! ## Items -/

/-- An item that is no container is read back, however deep containers may nest. -/
theorem readItem?_leaf {i : Item} (h : i.Within 0) (fuel nesting : Nat) (rest : List UInt8) :
    readItem? (fuel + 1) nesting (encode i ++ rest) = some (i, rest) := by
  cases h with
  | unsigned hn =>
      obtain ⟨size, hhead⟩ := readHead?_head 0 (by decide) hn rest
      simp [readItem?, encode, hhead]
  | negative hn =>
      obtain ⟨size, hhead⟩ := readHead?_head 1 (by decide) hn rest
      simp [readItem?, encode, hhead]
  | @bytes _ bs hlength =>
      obtain ⟨size, hhead⟩ := readHead?_head 2 (by decide) hlength (bs ++ rest)
      simp [readItem?, encode, hhead, splitBytes?_append]
  | @text _ bs hlength =>
      obtain ⟨size, hhead⟩ := readHead?_head 3 (by decide) hlength (bs ++ rest)
      simp [readItem?, encode, hhead, splitBytes?_append]
  | @bool _ b => cases b <;> simp [readItem?, encode, readHead?, readSimple?]
  | null => simp [readItem?, encode, readHead?, readSimple?]
  | float hx =>
      obtain ⟨size, n, hhead, hread⟩ := readHead?_encodeFloat hx rest
      simp [readItem?, encode, hhead, hread]

/-- An array is read by reading its items. -/
theorem readItem?_array {items : List Item} (h : items.length < Word.modulus) (fuel nesting : Nat)
    (rest : List UInt8) :
    readItem? (fuel + 1) nesting (encode (.array items) ++ rest) =
      if nesting = 0 then none
      else (readItems? fuel (nesting - 1) (.exact items.length) maxElements
        (encodeAll items ++ rest)).map fun (items, rest) => (.array items, rest) := by
  obtain ⟨size, hhead⟩ := readHead?_head 4 (by decide) h (encodeAll items ++ rest)
  simp [readItem?, encode, hhead, Option.map_eq_bind]

/-- A map is read by reading its entries. -/
theorem readItem?_map {entries : List (Item × Item)} (h : entries.length < Word.modulus)
    (fuel nesting : Nat) (rest : List UInt8) :
    readItem? (fuel + 1) nesting (encode (.map entries) ++ rest) =
      if nesting = 0 then none
      else (readEntries? fuel (nesting - 1) (.exact entries.length) maxElements
        (encodePairs entries ++ rest)).map fun (entries, rest) => (.map entries, rest) := by
  obtain ⟨size, hhead⟩ := readHead?_head 5 (by decide) h (encodePairs entries ++ rest)
  simp [readItem?, encode, hhead, Option.map_eq_bind]

/-- Reading the items of an array, given that each of them is read back. -/
theorem readItems?_encodeAll {nesting : Nat} {items : List Item}
    (hitems : ∀ i ∈ items, ∀ fuel, 2 * (encode i).length ≤ fuel → ∀ rest,
      readItem? fuel nesting (encode i ++ rest) = some (i, rest))
    (fuel room : Nat) (hfuel : 2 * (encodeAll items).length + 1 ≤ fuel)
    (hroom : items.length ≤ room) (rest : List UInt8) :
    readItems? fuel nesting (.exact items.length) room (encodeAll items ++ rest) =
      some (items, rest) := by
  induction items generalizing fuel room with
  | nil =>
      obtain ⟨fuel, rfl⟩ := Nat.exists_eq_succ_of_ne_zero (show fuel ≠ 0 by omega)
      simp [readItems?, encodeAll]
  | cons i items ih =>
      obtain ⟨fuel, rfl⟩ := Nat.exists_eq_succ_of_ne_zero (show fuel ≠ 0 by omega)
      -- the item takes a byte, which pays for the step to it and the step behind it
      have hone := one_le_length_encode i
      rw [encodeAll, List.length_append] at hfuel
      have hfirst := hitems i List.mem_cons_self fuel (by omega) (encodeAll items ++ rest)
      have hrest := ih (fun j hj => hitems j (List.mem_cons_of_mem i hj)) fuel (room - 1)
        (by omega) (by simpa using Nat.sub_le_sub_right hroom 1)
      have hroom' : room ≠ 0 := by
        rw [List.length_cons] at hroom
        omega
      rw [encodeAll, List.append_assoc, List.length_cons, readItems?]
      · simp [hroom', hfirst, hrest]
      · simp
      · simp

/-- Reading the entries of a map, given that keys and values are read back. -/
theorem readEntries?_encodePairs {nesting : Nat} {entries : List (Item × Item)}
    (hitems : ∀ e ∈ entries, ∀ i, (i = e.1 ∨ i = e.2) → ∀ fuel, 2 * (encode i).length ≤ fuel →
      ∀ rest, readItem? fuel nesting (encode i ++ rest) = some (i, rest))
    (fuel room : Nat) (hfuel : 2 * (encodePairs entries).length + 1 ≤ fuel)
    (hroom : entries.length ≤ room) (rest : List UInt8) :
    readEntries? fuel nesting (.exact entries.length) room (encodePairs entries ++ rest) =
      some (entries, rest) := by
  induction entries generalizing fuel room with
  | nil =>
      obtain ⟨fuel, rfl⟩ := Nat.exists_eq_succ_of_ne_zero (show fuel ≠ 0 by omega)
      simp [readEntries?, encodePairs]
  | cons e entries ih =>
      obtain ⟨fuel, rfl⟩ := Nat.exists_eq_succ_of_ne_zero (show fuel ≠ 0 by omega)
      obtain ⟨key, value⟩ := e
      have hone := one_le_length_encode key
      rw [encodePairs, List.length_append, List.length_append] at hfuel
      have hread := hitems _ List.mem_cons_self
      -- a key is read, and then its value
      have hkey := hread key (Or.inl rfl) fuel (by omega)
        (encode value ++ (encodePairs entries ++ rest))
      have hvalue := hread value (Or.inr rfl) fuel (by omega) (encodePairs entries ++ rest)
      have hrest := ih (fun e he => hitems e (List.mem_cons_of_mem _ he)) fuel (room - 1)
        (by omega) (by simpa using Nat.sub_le_sub_right hroom 1)
      have hroom' : room ≠ 0 := by
        rw [List.length_cons] at hroom
        omega
      rw [encodePairs, List.append_assoc, List.append_assoc, List.length_cons, readEntries?]
      · simp [hroom', hkey, hvalue, hrest]
      · simp
      · simp

/-- An item is read back, whatever bytes come after it. -/
theorem readItem?_encode {nesting : Nat} {i : Item} (h : i.Within nesting) (fuel : Nat)
    (hfuel : 2 * (encode i).length ≤ fuel) (rest : List UInt8) :
    readItem? fuel nesting (encode i ++ rest) = some (i, rest) := by
  have hone := one_le_length_encode i
  -- by induction on the nesting; fuel goes down with each item, and each takes at least a byte
  induction h generalizing fuel rest with
  | @array nesting items hlength _ ih =>
      obtain ⟨fuel, rfl⟩ := Nat.exists_eq_succ_of_ne_zero (show fuel ≠ 0 by omega)
      have hheadLength := one_le_length_head 4 items.length
      rw [encode, List.length_append] at hfuel
      have hitems := readItems?_encodeAll
        (fun i hi fuel hfuel rest => ih i hi fuel hfuel rest (one_le_length_encode i))
        fuel maxElements (by omega) hlength rest
      rw [readItem?_array (Nat.lt_of_le_of_lt hlength (by decide))]
      simp [hitems]
  | @map nesting entries hlength _ _ ihkeys ihvalues =>
      obtain ⟨fuel, rfl⟩ := Nat.exists_eq_succ_of_ne_zero (show fuel ≠ 0 by omega)
      have hheadLength := one_le_length_head 5 entries.length
      rw [encode, List.length_append] at hfuel
      have hread : ∀ e ∈ entries, ∀ i, (i = e.1 ∨ i = e.2) → ∀ fuel,
          2 * (encode i).length ≤ fuel → ∀ rest,
          readItem? fuel nesting (encode i ++ rest) = some (i, rest) := by
        rintro e he i (rfl | rfl) fuel hfuel rest
        · exact ihkeys e he fuel hfuel rest (one_le_length_encode _)
        · exact ihvalues e he fuel hfuel rest (one_le_length_encode _)
      have hentries := readEntries?_encodePairs hread fuel maxElements (by omega) hlength rest
      rw [readItem?_map (Nat.lt_of_le_of_lt hlength (by decide))]
      simp [hentries]
  | unsigned | negative | bytes | text | bool | null | float =>
      obtain ⟨fuel, rfl⟩ := Nat.exists_eq_succ_of_ne_zero (show fuel ≠ 0 by omega)
      exact readItem?_leaf (by constructor <;> assumption) fuel _ rest

/-- An item that keeps to the limits is read back from its encoding. -/
theorem decode?_encode {i : Item} (h : i.Within maxNesting) : decode? (encode i) = some i := by
  have hread := readItem?_encode h (2 * (encode i).length + 2) (by omega) []
  rw [List.append_nil] at hread
  unfold decode?
  rw [hread]

/-! ## Items beyond the limits -/

/-- An item whose numbers are words and whose texts are in one piece, without tags and further
simple values. -/
inductive Item.Plain : Item → Prop
  | unsigned {n : Nat} : n < Word.modulus → Plain (.unsigned n)
  | negative {n : Nat} : n < Word.modulus → Plain (.negative n)
  | bytes {bs : List UInt8} : Plain (.bytes bs)
  | text {bs : List UInt8} : Plain (.text [bs])
  | bool {b : Bool} : Plain (.bool b)
  | null : Plain .null
  | float {x : UInt64} : Canonical x → Plain (.float x)
  | array {items : List Item} : (∀ i ∈ items, Plain i) → Plain (.array items)
  | map {entries : List (Item × Item)} : (∀ e ∈ entries, Plain e.1) → (∀ e ∈ entries, Plain e.2) →
    Plain (.map entries)

/-- Whatever is read where an item was written is that item. -/
def Item.Faithful (i : Item) : Prop :=
  ∀ fuel nesting rest r, readItem? fuel nesting (encode i ++ rest) = some r → r = (i, rest)

theorem length_le_length_encodeAll (items : List Item) :
    items.length ≤ (encodeAll items).length := by
  induction items with
  | nil => simp
  | cons i items ih =>
      have hone := one_le_length_encode i
      rw [encodeAll, List.length_append, List.length_cons]
      omega

theorem length_le_length_encodePairs (entries : List (Item × Item)) :
    entries.length ≤ (encodePairs entries).length := by
  induction entries with
  | nil => simp
  | cons e entries ih =>
      have hone := one_le_length_encode e.1
      rw [encodePairs, List.length_append, List.length_append, List.length_cons]
      omega

theorem length_encode_le_of_mem {items : List Item} {i : Item} (h : i ∈ items) :
    (encode i).length ≤ (encodeAll items).length := by
  induction items with
  | nil => cases h
  | cons j items ih =>
      rw [encodeAll, List.length_append]
      rcases List.mem_cons.mp h with rfl | h
      · exact Nat.le_add_right _ _
      · exact Nat.le_add_left_of_le (ih h)

theorem length_encode_add_le_of_mem {entries : List (Item × Item)} {e : Item × Item}
    (h : e ∈ entries) :
    (encode e.1).length + (encode e.2).length ≤ (encodePairs entries).length := by
  induction entries with
  | nil => cases h
  | cons e' entries ih =>
      rw [encodePairs, List.length_append, List.length_append]
      rcases List.mem_cons.mp h with rfl | h
      · omega
      · have hle := ih h
        omega

theorem eq_of_readItems? {items : List Item} (h : ∀ i ∈ items, i.Faithful)
    {fuel nesting room : Nat} {rest : List UInt8} {r : List Item × List UInt8}
    (hread : readItems? fuel nesting (.exact items.length) room (encodeAll items ++ rest) =
      some r) : r = (items, rest) := by
  induction items generalizing fuel room r with
  | nil =>
      cases fuel with
      | zero => simp [readItems?] at hread
      | succ fuel => simpa [readItems?, encodeAll, eq_comm] using hread
  | cons i items ih =>
      cases fuel with
      | zero => simp [readItems?] at hread
      | succ fuel =>
          rw [encodeAll, List.append_assoc, List.length_cons, readItems?] at hread
          · split at hread
            · cases hread
            · obtain ⟨⟨j, rest₁⟩, hfirst, hread⟩ := Option.bind_eq_some_iff.mp hread
              -- each item is read as itself, whatever follows
              cases h i List.mem_cons_self _ _ _ _ hfirst
              obtain ⟨⟨js, rest₂⟩, hrest, hread⟩ := Option.bind_eq_some_iff.mp hread
              cases ih (fun j hj => h j (List.mem_cons_of_mem i hj)) hrest
              exact (Option.some.inj hread).symm
          · simp
          · simp

theorem eq_of_readEntries? {entries : List (Item × Item)}
    (h : ∀ e ∈ entries, e.1.Faithful ∧ e.2.Faithful) {fuel nesting room : Nat}
    {rest : List UInt8} {r : List (Item × Item) × List UInt8}
    (hread : readEntries? fuel nesting (.exact entries.length) room (encodePairs entries ++ rest) =
      some r) : r = (entries, rest) := by
  induction entries generalizing fuel room r with
  | nil =>
      cases fuel with
      | zero => simp [readEntries?] at hread
      | succ fuel => simpa [readEntries?, encodePairs, eq_comm] using hread
  | cons e entries ih =>
      obtain ⟨key, value⟩ := e
      cases fuel with
      | zero => simp [readEntries?] at hread
      | succ fuel =>
          obtain ⟨hkey, hvalue⟩ := h _ List.mem_cons_self
          rw [encodePairs, List.append_assoc, List.append_assoc, List.length_cons,
            readEntries?] at hread
          · split at hread
            · cases hread
            · obtain ⟨⟨k, rest₁⟩, hfirst, hread⟩ := Option.bind_eq_some_iff.mp hread
              cases hkey _ _ _ _ hfirst
              obtain ⟨⟨v, rest₂⟩, hsecond, hread⟩ := Option.bind_eq_some_iff.mp hread
              cases hvalue _ _ _ _ hsecond
              obtain ⟨⟨es, rest₃⟩, hrest, hread⟩ := Option.bind_eq_some_iff.mp hread
              cases ih (fun e he => h e (List.mem_cons_of_mem _ he)) hrest
              exact (Option.some.inj hread).symm
          · simp
          · simp

/-- A leaf is faithful. -/
theorem Item.Within.faithful {i : Item} (h : i.Within 0) : i.Faithful := by
  intro fuel nesting rest r hread
  cases fuel with
  | zero => simp [readItem?] at hread
  | succ fuel =>
      rw [readItem?_leaf h] at hread
      exact (Option.some.inj hread).symm

/-- So is every plain item, as long as its lengths are words. -/
theorem Item.Plain.faithful {i : Item} (h : i.Plain) (hlength : (encode i).length < Word.modulus) :
    i.Faithful := by
  induction h with
  | unsigned hn => exact Within.faithful (.unsigned hn)
  | negative hn => exact Within.faithful (.negative hn)
  | bytes =>
      rw [encode, List.length_append] at hlength
      exact Within.faithful (.bytes (by omega))
  | text =>
      simp only [encode, List.length_append, List.flatten_singleton] at hlength
      exact Within.faithful (.text (by omega))
  | bool => exact Within.faithful .bool
  | null => exact Within.faithful .null
  | float hx => exact Within.faithful (.float hx)
  | @array items _ ih =>
      -- reading may run out of fuel or of nesting, but then nothing is read
      intro fuel nesting rest r hread
      rw [encode, List.length_append] at hlength
      have hcount := length_le_length_encodeAll items
      cases fuel with
      | zero => simp [readItem?] at hread
      | succ fuel =>
          rw [readItem?_array (by omega)] at hread
          split at hread
          · cases hread
          · obtain ⟨r', hitems, rfl⟩ := Option.map_eq_some_iff.mp hread
            have hlengths (i : Item) (hi : i ∈ items) : (encode i).length < Word.modulus := by
              have hle := length_encode_le_of_mem hi
              omega
            cases eq_of_readItems? (fun i hi => ih i hi (hlengths i hi)) hitems
            rfl
  | @map entries _ _ ihkeys ihvalues =>
      intro fuel nesting rest r hread
      rw [encode, List.length_append] at hlength
      have hcount := length_le_length_encodePairs entries
      cases fuel with
      | zero => simp [readItem?] at hread
      | succ fuel =>
          rw [readItem?_map (by omega)] at hread
          split at hread
          · cases hread
          · obtain ⟨r', hentries, rfl⟩ := Option.map_eq_some_iff.mp hread
            have hlengths (e : Item × Item) (he : e ∈ entries) :
                (encode e.1).length < Word.modulus ∧ (encode e.2).length < Word.modulus := by
              have hle := length_encode_add_le_of_mem he
              omega
            cases eq_of_readEntries? (fun e he =>
              ⟨ihkeys e he (hlengths e he).1, ihvalues e he (hlengths e he).2⟩) hentries
            rfl

/-- Nothing but a plain item is read from its encoding, as long as that has a size. -/
theorem eq_of_decode? {i j : Item} (h : i.Plain) (hlength : (encode i).length < Word.modulus)
    (hdecode : decode? (encode i) = some j) : j = i := by
  unfold decode? at hdecode
  split at hdecode
  · rename_i item hread
    rw [← List.append_nil (encode i)] at hread
    cases h.faithful hlength _ _ _ _ hread
    exact (Option.some.inj hdecode).symm
  · cases hdecode

end Cbor

end Wordcode
