import Wordcode.Artifact.Binary
import Wordcode.Proofs.Association
import Wordcode.Proofs.Codecs
import Wordcode.Proofs.Items
import Mathlib

namespace Wordcode

/-! # Records and their fields

Records are stored as maps with text keys, in which a field is left out when it holds the zero of
its type. Reading a record undoes writing it, one field at a time.

* `Artifact.field_present` reads a field of a record.
* `Artifact.toCodeRecord?_codeItem` and `Artifact.toConstRecord?_constItem` are one level of
  reading, `Artifact.eq_mapCode` and `Artifact.toCodeRecord?_of_fits` all levels.
* `Artifact.binary_lawful`: binary objects make up a codec.
-/

namespace Cbor

/-- A text is read back. -/
theorem toText?_ofString (s : String) : toText? (.ofString s) = some s := by
  have hread : String.fromUTF8? ⟨s.toByteArray.data.toList.toArray⟩ = some s := by
    unfold String.fromUTF8?
    rw [dif_pos s.isValidUTF8]
    rfl
  simp [toText?, Item.ofString, untag?, Text.octets, String.toUTF8, hread]

/-- Bytes are read as a text, if they are one. -/
theorem toText?_text (bytes : List UInt8) :
    (toText? (.text [bytes])).map Text.octets =
      if (Text.ofUtf8? bytes).isSome then some bytes else none := by
  have hread : toText? (.text [bytes]) = Text.ofUtf8? bytes := by
    simp only [toText?, untag?, Option.bind_eq_bind, Option.bind_some, List.mapM_cons,
      List.mapM_nil, Text.ofUtf8?]
    cases String.fromUTF8? ⟨bytes.toArray⟩ <;> simp
  rw [hread]
  cases hs : Text.ofUtf8? bytes with
  | none => rfl
  | some s =>
      have hbytes : Text.octets s = bytes := by
        unfold Text.ofUtf8? String.fromUTF8? at hs
        split at hs
        · cases hs
          rfl
        · cases hs
      simp [hbytes]

/-- An integer within bounds is read back. -/
theorem toInt?_ofInt {low high n : Int} (hlow : low ≤ n) (hhigh : n ≤ high) :
    toInt? low high (.ofInt n) = some n := by
  have hbounds : (decide (low ≤ n) && decide (n ≤ high)) = true := by simp [hlow, hhigh]
  unfold Item.ofInt
  by_cases h : 0 ≤ n
  · have hnat : ((n.toNat : Nat) : Int) = n := Int.toNat_of_nonneg h
    rw [if_pos h]
    simp only [toInt?, untag?, Option.bind_eq_bind, Option.bind_some, hnat, hbounds, if_true]
  · have hnat : -1 - (((-1 - n).toNat : Nat) : Int) = n := by omega
    rw [if_neg h]
    simp only [toInt?, untag?, Option.bind_eq_bind, Option.bind_some, hnat, hbounds, if_true]

/-- A word is read back. -/
theorem toInt64?_ofInt (n : Int64) : toInt64? (.ofInt n.toInt) = some n := by
  have hlow : -Word.limit ≤ n.toInt := n.le_toInt
  have hhigh : n.toInt ≤ Word.limit - 1 := Int.le_sub_one_of_lt n.toInt_lt
  rw [toInt64?, toInt?_ofInt hlow hhigh, Option.map_some, Int64.ofInt_toInt]

/-- A byte is read back. -/
theorem toByte?_unsigned (b : UInt8) : toByte? (.unsigned b.toNat) = some b := by
  have hlt := b.toNat_lt
  have hitem : Item.unsigned b.toNat = .ofInt b.toNat := by simp [Item.ofInt]
  rw [toByte?, hitem, toInt?_ofInt (by omega) (by omega)]
  simp

end Cbor

namespace Artifact

open Cbor hiding maxNesting

/-! ## Fields -/

/-- The fields of a record that are not left out. -/
def present (fields : List (String × Option Item)) : List (String × Item) :=
  fields.filterMap fun (key, value?) => value?.map fun value => (key, value)

/-- A record keeps the fields that are present, under their names. -/
theorem record_eq (fields : List (String × Option Item)) :
    record fields = .map ((present fields).map fun (key, value) => (.ofString key, value)) := by
  simp only [record, present, List.map_filterMap, Option.map_map, Function.comp_def]

/-- A name of a field finds what the field has, if it has something. -/
theorem lookup_present {fields : List (String × Option Item)} {name : String}
    (hnodup : (fields.map Prod.fst).Nodup) :
    (present fields).lookup name = (fields.lookup name).join := by
  induction fields with
  | nil => rfl
  | cons f fields ih =>
      obtain ⟨key, value?⟩ := f
      rw [List.map_cons, List.nodup_cons] at hnodup
      have hih := ih hnodup.2
      rw [Assoc.lookup_cons]
      cases value? with
      | none =>
          have hskip : present ((key, none) :: fields) = present fields := rfl
          rw [hskip, hih]
          -- the name is not repeated, so the rest does not have it
          by_cases hname : name = key
          · have hnone : fields.lookup name = none :=
              Assoc.lookup_eq_none_iff.mpr (hname ▸ hnodup.1)
            simp [hname ▸ hnone, hname]
          · simp [hname]
      | some value =>
          have htake : present ((key, some value) :: fields) = (key, value) :: present fields := rfl
          rw [htake, Assoc.lookup_cons, hih]
          by_cases hname : name = key
          · simp [hname]
          · simp [hname]

/-- What is present comes from a field. -/
theorem mem_of_mem_present {fields : List (String × Option Item)} {f : String × Item}
    (h : f ∈ present fields) : (f.1, some f.2) ∈ fields := by
  obtain ⟨⟨key, value?⟩, hfield, heq⟩ := List.mem_filterMap.mp h
  obtain ⟨value, rfl, rfl⟩ := Option.map_eq_some_iff.mp heq
  exact hfield

/-- Fields are found one after another. -/
theorem foldlM_addField? {known : List String} {fields : List (String × Option Item)}
    (hknown : ∀ f ∈ fields, f.1 ∈ known) (found : List (String × Item))
    (hnodup : (found.map Prod.fst ++ fields.map Prod.fst).Nodup) :
    ((present fields).map fun (key, value) => (Item.ofString key, value)).foldlM (addField? known)
      found = some (found ++ present fields) := by
  induction fields generalizing found with
  | nil => simp [present]
  | cons f fields ih =>
      obtain ⟨key, value?⟩ := f
      rw [List.forall_mem_cons] at hknown
      rw [List.map_cons] at hnodup
      cases value? with
      | none =>
          have hskip : present ((key, none) :: fields) = present fields := rfl
          rw [hskip]
          exact ih hknown.2 found (hnodup.sublist ((List.sublist_cons_self _ _).append_left _))
      | some value =>
          have htake : present ((key, some value) :: fields) = (key, value) :: present fields := rfl
          rw [htake]
          have hmem : key ∈ known := hknown.1
          -- the field has not been found before
          have hnew : found.lookup key = none := by
            rw [Assoc.lookup_eq_none_iff]
            intro hfound
            exact (List.disjoint_of_nodup_append hnodup) hfound List.mem_cons_self
          have htext : toText? (.text [Text.octets key]) = some key := toText?_ofString key
          have hstep : addField? known found (.ofString key, value) =
              some (found ++ [(key, value)]) := by
            simp [Item.ofString, addField?, htext, hmem, hnew]
          have hrest := ih hknown.2 (found ++ [(key, value)]) (by simpa using hnodup)
          rw [List.map_cons, List.foldlM_cons, hstep]
          simpa using hrest

/-- The fields of a record are found again, when all of them are known. -/
theorem toFields?_record {known : List String} {fields : List (String × Option Item)}
    (hknown : ∀ f ∈ fields, f.1 ∈ known) (hnodup : (fields.map Prod.fst).Nodup) :
    toFields? known (record fields) = some (present fields) := by
  rw [record_eq]
  exact foldlM_addField? hknown [] (by simpa using hnodup)

/-- Reading a field of a record. -/
theorem field_present {α : Type} {fields : List (String × Option Item)} {name : String}
    {value? : Option Item} (hnodup : (fields.map Prod.fst).Nodup)
    (hfield : fields.lookup name = some value?) (zero : α) (read : Item → Option α) :
    field (present fields) name zero read = value?.elim (some zero) read := by
  unfold field
  rw [lookup_present hnodup, hfield]
  cases value? <;> rfl

/-! ## Values of fields -/

/-- A field that is left out when it is zero comes back as zero. -/
theorem elim_nonzero {α : Type} {isZero : Bool} {item : Item} {zero a : α}
    {read : Item → Option α} (hzero : isZero = true → zero = a) (hread : read item = some a) :
    (nonzero isZero item).elim (some zero) read = some a := by
  cases isZero with
  | true => simp [nonzero, hzero rfl]
  | false => simp [nonzero, hread]

/-- Texts are read back. -/
theorem elim_texts (xs : List String) :
    (texts xs).elim (some []) (fun item => do (← toItems? item).mapM toText?) = some xs := by
  refine elim_nonzero (fun hempty => (List.isEmpty_iff.mp hempty).symm) ?_
  show (xs.map Item.ofString).mapM toText? = some xs
  induction xs with
  | nil => rfl
  | cons x xs ih =>
      rw [List.map_cons, List.mapM_cons, toText?_ofString, ih]
      rfl

/-- A count is read back. -/
theorem elim_count (n : Int64) : (count n).elim (some 0) toInt64? = some n :=
  elim_nonzero (fun hzero => (eq_of_beq hzero).symm) (toInt64?_ofInt n)

/-- Bytes are read back if they are a text. -/
theorem elim_bytes (bytes : List UInt8) :
    (nonzero bytes.isEmpty (.text [bytes])).elim (some [])
        (fun item => (toText? item).map Text.octets) =
      if (Text.ofUtf8? bytes).isSome then some bytes else none := by
  cases bytes with
  | nil => rfl
  | cons b bytes => exact toText?_text (b :: bytes)

/-- A double as it is written and read back: of those that are not numbers one is left. -/
def reread (x : UInt64) : UInt64 :=
  if Decimal.isZero x then 0 else if Decimal.isNan x then quietNan else x

/-- A number that is not NaN comes back as it was, but for the sign of zero. -/
theorem reread_eq {x : UInt64} (h : Decimal.isNan x = false) : reread x = restored x := by
  simp [reread, restored, h]

/-- A number that is left out is zero, and this is what is read for it. -/
theorem elim_float (x : UInt64) :
    (nonzero (Decimal.isZero x) (.ofFloat x)).elim (some 0) toFloat? = some (reread x) := by
  unfold reread
  cases Decimal.isZero x <;> rfl

/-- Reading the items of an array that is left out when there are none. -/
theorem elim_items {α : Type} (items : List Item) (read : Item → Option α) :
    (nonzero items.isEmpty (.array items)).elim (some [])
      (fun item => do (← toItems? item).mapM read) = items.mapM read := by
  cases items <;> rfl

/-- What stands for a code object is a record of its fields. -/
theorem codeItem_eq (r : CodeRecord) :
    codeItem r = record (codeFields r (constItems r.constants)) := by
  cases r
  rw [codeItem]

/-- A record is not null. -/
theorem optional_codeItem {α : Type} (r : CodeRecord) (read : Item → Option α) :
    optional read (codeItem r) = (read (codeItem r)).map some := by
  rw [codeItem_eq]
  rfl

/-! ## One level -/

theorem some_bind {α β : Type} (a : α) (k : α → Option β) : (some a >>= k) = k a := rfl

/-- Reading the record of a code object comes down to reading its constants. -/
theorem toCodeRecord?_codeItem (fuel : Nat) (r : CodeRecord) :
    toCodeRecord? (fuel + 1) (codeItem r) =
      ((constItems r.constants).mapM (toConstRecord? fuel)).map fun rs =>
        { r with constants := rs } := by
  have hnodup : ((codeFields r (constItems r.constants)).map Prod.fst).Nodup := by
    show ["id", "ins", "args", "file", "name", "vars", "flags", "names", "consts", "kwonly",
      "posonly"].Nodup
    decide
  have hknown : ∀ f ∈ codeFields r (constItems r.constants), f.1 ∈ ["id", "name", "file", "ins",
      "consts", "names", "vars", "posonly", "args", "kwonly", "flags"] := by
    simp [codeFields]
  -- a field is looked up and its value is read; some values are always there
  have hread {α : Type} (key : String) {value? : Option Item}
      (hfield : (codeFields r (constItems r.constants)).lookup key = some value?) (zero : α)
      (read : Item → Option α) {a? : Option α} (helim : value?.elim (some zero) read = a?) :
      field (present (codeFields r (constItems r.constants))) key zero read = a? := by
    rw [field_present hnodup hfield, helim]
  have hid := hread "id" rfl "" toText? (toText?_ofString r.id)
  have hname := hread "name" rfl "" toText? (toText?_ofString r.name)
  have hfile := hread "file" rfl "" toText?
    (elim_nonzero (fun h => (eq_of_beq h).symm) (toText?_ofString r.file))
  have hbytes :
      (some (r.stream?.elim .null .bytes)).elim (some none) toBytes? = some r.stream? := by
    cases r.stream? <;> rfl
  have hstream := hread "ins" rfl none toBytes? hbytes
  have hnames := hread "names" rfl [] _ (elim_texts r.names)
  have hvariables := hread "vars" rfl [] _ (elim_texts r.variableNames)
  have hconstants := hread "consts" rfl [] _
    (elim_items (constItems r.constants) (toConstRecord? fuel))
  have hpositionalOnly := hread "posonly" rfl 0 toInt64? (elim_count r.positionalOnly)
  have hpositional := hread "args" rfl 0 toInt64? (elim_count r.positional)
  have hkeywordOnly := hread "kwonly" rfl 0 toInt64? (elim_count r.keywordOnly)
  have hflags := hread "flags" rfl 0 toByte?
    (elim_nonzero (fun h => (eq_of_beq h).symm) (toByte?_unsigned r.flags))
  rw [codeItem_eq, toCodeRecord?, toFields?_record hknown hnodup]
  simp only [some_bind, hid, hname, hfile, hstream, hnames, hvariables, hconstants, hpositionalOnly,
    hpositional, hkeywordOnly, hflags]
  cases (constItems r.constants).mapM (toConstRecord? fuel) <;> rfl

/-- Reading the record of a constant comes down to reading the records in it. -/
theorem toConstRecord?_constItem (fuel : Nat) (kind : String) (bool : Bool) (int : Int64)
    (float : UInt64) (str : List UInt8) (code? : Option CodeRecord) (items : List ConstRecord) :
    toConstRecord? (fuel + 1) (constItem (.mk kind bool int float str code? items)) = do
      let str ← (if (Text.ofUtf8? str).isSome then some str else none : Option _)
      let code? ← (codeItem? code?).elim (some none) (optional (toCodeRecord? fuel))
      let rs ← (constItems items).mapM (toConstRecord? fuel)
      return .mk kind bool int (reread float) str code? rs := by
  rw [constItem]
  generalize hfields :
    constFields kind bool int float str (codeItem? code?) (constItems items) = fields
  have hnodup : (fields.map Prod.fst).Nodup := by
    rw [← hfields]
    show ["b", "c", "f", "i", "k", "s", "t"].Nodup
    decide
  have hknown : ∀ f ∈ fields, f.1 ∈ ["k", "b", "i", "f", "s", "c", "t"] := by
    rw [← hfields]
    simp [constFields]
  -- each field is read under its own name, whether or not it is there
  have hread {α : Type} (key : String) {value? : Option Item}
      (hfield : fields.lookup key = some value?) (zero : α) (read : Item → Option α) {a? : Option α}
      (helim : value?.elim (some zero) read = a?) : field (present fields) key zero read = a? := by
    rw [field_present hnodup hfield, helim]
  have hbool : (nonzero (!bool) (.bool bool)).elim (some false) toBool? = some bool := by
    cases bool <;> rfl
  have hkind := hread "k" (by rw [← hfields]; rfl) "" toText?
    (show (some (Item.ofString kind)).elim (some "") toText? = some kind from toText?_ofString kind)
  have hbool' := hread "b" (by rw [← hfields]; rfl) false toBool? hbool
  have hint := hread "i" (by rw [← hfields]; rfl) 0 toInt64? (elim_count int)
  have hfloat := hread "f" (by rw [← hfields]; rfl) 0 toFloat? (elim_float float)
  have hstr := hread "s" (by rw [← hfields]; rfl) [] _ (elim_bytes str)
  have hcode := hread "c" (by rw [← hfields]; rfl) none (optional (toCodeRecord? fuel)) rfl
  have hitems := hread "t" (by rw [← hfields]; rfl) [] _
    (elim_items (constItems items) (toConstRecord? fuel))
  rw [toConstRecord?, toFields?_record hknown hnodup]
  simp only [some_bind, hkind, hbool', hint, hfloat, hstr, hcode, hitems]

/-! ## All levels -/

theorem mapM_constItems_nil {fuel : Nat} :
    (constItems []).mapM (toConstRecord? fuel) = some [] := by
  rw [constItems]
  rfl

/-- Reading several constants is reading the first and then the others. -/
theorem mapM_constItems_cons (fuel : Nat) (r : ConstRecord) (rs : List ConstRecord) :
    (constItems (r :: rs)).mapM (toConstRecord? fuel) = do
      let r' ← toConstRecord? fuel (constItem r)
      let rs' ← (constItems rs).mapM (toConstRecord? fuel)
      return r' :: rs' := by
  rw [constItems, List.mapM_cons]

mutual

/-- What is read where a record was written is that record. -/
theorem eq_mapCode : (r : CodeRecord) → ∀ {fuel : Nat} {r' : CodeRecord},
    toCodeRecord? fuel (codeItem r) = some r' → r' = mapCode reread r
  | { constants := rs, .. }, 0, _, h => by simp [toCodeRecord?] at h
  | { constants := rs, .. }, fuel + 1, r', h => by
      rw [toCodeRecord?_codeItem] at h
      obtain ⟨rs', hrs, rfl⟩ := Option.map_eq_some_iff.mp h
      rw [mapCode, ← eq_mapConsts rs hrs]

/-- What is read for a constant is the constant with its numbers read again. -/
theorem eq_mapConst : (r : ConstRecord) → ∀ {fuel : Nat} {r' : ConstRecord},
    toConstRecord? fuel (constItem r) = some r' → r' = mapConst reread r
  | .mk .., 0, _, h => by simp [toConstRecord?] at h
  | .mk kind bool int float str code? items, fuel + 1, r', h => by
      rw [toConstRecord?_constItem] at h
      obtain ⟨str', hstr, h⟩ := Option.bind_eq_some_iff.mp h
      obtain ⟨code?', hcode, h⟩ := Option.bind_eq_some_iff.mp h
      obtain ⟨items', hitems, h⟩ := Option.bind_eq_some_iff.mp h
      cases h
      obtain rfl : str = str' := by
        split at hstr <;> cases hstr
        rfl
      rw [mapConst, ← eq_mapConsts items hitems, ← eq_mapCode? code? hcode]

/-- The same for the code object of a constant, if it has one. -/
theorem eq_mapCode? : (code? : Option CodeRecord) → ∀ {fuel : Nat} {code?' : Option CodeRecord},
    (codeItem? code?).elim (some none) (optional (toCodeRecord? fuel)) = some code?' →
    code?' = mapCode? reread code?
  | none, _, _, h => by
      rw [codeItem?] at h
      cases h
      rw [mapCode?]
  | some r, _, _, h => by
      rw [codeItem?, Option.elim_some, optional_codeItem] at h
      obtain ⟨r', hr, rfl⟩ := Option.map_eq_some_iff.mp h
      rw [mapCode?, eq_mapCode r hr]

/-- The same for several constants. -/
theorem eq_mapConsts : (rs : List ConstRecord) → ∀ {fuel : Nat} {rs' : List ConstRecord},
    (constItems rs).mapM (toConstRecord? fuel) = some rs' → rs' = mapConsts reread rs
  | [], _, _, h => by
      rw [mapM_constItems_nil] at h
      cases h
      rw [mapConsts]
  | r :: rs, fuel, _, h => by
      rw [mapM_constItems_cons] at h
      obtain ⟨r', hr, h⟩ := Option.bind_eq_some_iff.mp h
      obtain ⟨rs', hrs, h⟩ := Option.bind_eq_some_iff.mp h
      cases h
      rw [mapConsts, ← eq_mapConst r hr, ← eq_mapConsts rs hrs]

end

mutual

/-- A record that keeps to the limits is read. -/
theorem exists_toCodeRecord? : (r : CodeRecord) → ∀ {n fuel : Nat}, codeFits n r → n ≤ fuel →
    ∃ r', toCodeRecord? fuel (codeItem r) = some r'
  | { constants := rs, .. }, 0, _, h, _ => by simp [codeFits] at h
  | { constants := rs, .. }, n + 1, 0, _, hfuel => absurd hfuel (by omega)
  | { constants := rs, .. }, n + 1, fuel + 1, h, hfuel => by
      simp only [codeFits, Bool.and_eq_true] at h
      obtain ⟨rs', hrs⟩ := exists_mapM_constItems rs h.2.2 (show n - 1 ≤ fuel by omega)
      rw [toCodeRecord?_codeItem, hrs]
      exact ⟨_, rfl⟩

/-- A constant within the limits is read. -/
theorem exists_toConstRecord? : (r : ConstRecord) → ∀ {n fuel : Nat}, constFits n r → n ≤ fuel →
    ∃ r', toConstRecord? fuel (constItem r) = some r'
  | .mk .., 0, _, h, _ => by simp [constFits] at h
  | .mk .., n + 1, 0, _, hfuel => absurd hfuel (by omega)
  | .mk kind bool int float str code? items, n + 1, fuel + 1, h, hfuel => by
      simp only [constFits, Bool.and_eq_true] at h
      obtain ⟨⟨⟨-, -, hstr⟩, hcode⟩, -, hitems⟩ := h
      obtain ⟨items', hitems'⟩ := exists_mapM_constItems items hitems (show n - 1 ≤ fuel by omega)
      obtain ⟨code?', hcode'⟩ := exists_toCodeRecord?? code? hcode (show n ≤ fuel by omega)
      rw [toConstRecord?_constItem, if_pos hstr, hcode', hitems']
      exact ⟨_, rfl⟩

/-- A code object within the limits is read. -/
theorem exists_toCodeRecord?? : (code? : Option CodeRecord) → ∀ {n fuel : Nat},
    codeFits? n code? → n ≤ fuel →
    ∃ code?', (codeItem? code?).elim (some none) (optional (toCodeRecord? fuel)) = some code?'
  | none, _, _, _, _ => ⟨none, by rw [codeItem?]; rfl⟩
  | some r, _, _, h, hfuel => by
      rw [codeFits?] at h
      obtain ⟨r', hr⟩ := exists_toCodeRecord? r h hfuel
      exact ⟨some r', by rw [codeItem?, Option.elim_some, optional_codeItem, hr]; rfl⟩

/-- Several constants within the limits are read. -/
theorem exists_mapM_constItems : (rs : List ConstRecord) → ∀ {n fuel : Nat}, constsFit n rs →
    n ≤ fuel → ∃ rs', (constItems rs).mapM (toConstRecord? fuel) = some rs'
  | [], _, _, _, _ => ⟨[], mapM_constItems_nil⟩
  | r :: rs, n, fuel, h, hfuel => by
      simp only [constsFit, Bool.and_eq_true] at h
      obtain ⟨r', hr⟩ := exists_toConstRecord? r h.1 hfuel
      obtain ⟨rs', hrs⟩ := exists_mapM_constItems rs h.2 hfuel
      rw [mapM_constItems_cons, hr, hrs]
      exact ⟨_, rfl⟩

end

/-! ## Limits -/

/-- A property of items that records have when the values of their fields have it. -/
theorem forall_nonzero {P : Item → Prop} {isZero : Bool} {item : Item} (h : P item) :
    ∀ i, nonzero isZero item = some i → P i := by
  intro i hi
  unfold nonzero at hi
  split at hi
  · cases hi
  · cases hi
    exact h

/-- A short text is within any depth. -/
theorem within_ofString {s : String} (h : isShortText s) (n : Nat) :
    (Item.ofString s).Within n :=
  .text (of_decide_eq_true h)

/-- An integer is within any depth. -/
theorem within_ofInt (n : Nat) (k : Int64) : (Item.ofInt k.toInt).Within n := by
  have hlow := k.le_toInt
  have hhigh := k.toInt_lt
  have hword : Word.modulus = 2 ^ 64 := by decide
  unfold Item.ofInt
  split
  · exact .unsigned (by omega)
  · exact .negative (by omega)

/-- A record is one level deeper than its fields. -/
theorem within_record {n : Nat} {fields : List (String × Option Item)}
    (hlength : fields.length ≤ maxItems) (hnames : ∀ f ∈ fields, isShortText f.1)
    (h : ∀ f ∈ fields, ∀ i, f.2 = some i → i.Within n) : (record fields).Within (n + 1) := by
  have hmem (e : Item × Item) (he : e ∈ fields.filterMap fun (key, value?) =>
      value?.map fun value => (Item.ofString key, value)) : e.1.Within n ∧ e.2.Within n := by
    obtain ⟨⟨key, value?⟩, hf, hentry⟩ := List.mem_filterMap.mp he
    obtain ⟨value, rfl, rfl⟩ := Option.map_eq_some_iff.mp hentry
    exact ⟨within_ofString (hnames _ hf) n, h _ hf value rfl⟩
  exact .map (Nat.le_trans (List.length_filterMap_le _ _) hlength) (fun e he => (hmem e he).1)
    fun e he => (hmem e he).2

/-- An array that is left out when it is empty. -/
theorem within_array {α : Type} {n : Nat} {as : List α} {items : List Item}
    (hlength : items.length = as.length) (hroomy : isRoomy n as)
    (h : ∀ i ∈ items, i.Within (n - 1)) :
    ∀ i, nonzero items.isEmpty (.array items) = some i → i.Within n := by
  rw [isRoomy, Bool.and_eq_true, Bool.or_eq_true, decide_eq_true_eq, decide_eq_true_eq] at hroomy
  intro i hi
  unfold nonzero at hi
  -- an empty array is left out, which takes no room
  split at hi
  · cases hi
  · rename_i hne
    cases hi
    have hpos : 0 < n := by
      refine hroomy.1.resolve_left fun hempty => hne ?_
      rw [List.isEmpty_iff_length_eq_zero] at hempty ⊢
      omega
    obtain ⟨m, rfl⟩ : ∃ m, n = m + 1 := ⟨n - 1, by omega⟩
    exact .array (hlength ▸ hroomy.2) h

/-- A list of short texts is one level deep. -/
theorem within_texts {n : Nat} {xs : List String} (hroomy : isRoomy n xs)
    (hshort : xs.all isShortText) : ∀ i, texts xs = some i → i.Within n := by
  have hitems : ∀ i ∈ xs.map Item.ofString, i.Within (n - 1) := by
    intro i hi
    obtain ⟨s, hs, rfl⟩ := List.mem_map.mp hi
    exact within_ofString (List.all_eq_true.mp hshort s hs) _
  have hwithin := within_array (List.length_map Item.ofString) hroomy hitems
  rwa [List.isEmpty_map] at hwithin

theorem length_constItems (rs : List ConstRecord) : (constItems rs).length = rs.length := by
  induction rs with
  | nil => simp [constItems]
  | cons r rs ih => rw [constItems, List.length_cons, ih, List.length_cons]

mutual

/-- The item of a record keeps to the limits when the record does. -/
theorem within_codeItem : (r : CodeRecord) → ∀ {n : Nat}, codeFits n r → (codeItem r).Within n
  | { constants := rs, .. }, 0, h => by simp [codeFits] at h
  | { id, name, file, stream?, constants := rs, names, variableNames, flags, .. }, n + 1, h => by
      simp only [codeFits, Bool.and_eq_true, List.all_cons, List.all_nil] at h
      obtain ⟨⟨⟨⟨⟨hid, hname, hfile, -⟩, hstream⟩, hnames⟩, hvariables⟩, hroomy, hconstants⟩ := h
      have hitems := within_array (length_constItems rs) hroomy (within_constItems rs hconstants)
      have hbytes : (stream?.elim Item.null Item.bytes).Within n := by
        cases stream? with
        | none => exact .null
        | some bytes => exact .bytes (of_decide_eq_true hstream)
      have hflags : flags.toNat < Word.modulus := Nat.lt_trans flags.toNat_lt (by decide)
      rw [codeItem]
      refine within_record (show 11 ≤ maxItems by decide) ?_ ?_
      · simp only [codeFields, List.forall_mem_cons]
        decide
      · simp only [codeFields, List.forall_mem_cons, Option.some.injEq, forall_eq',
          List.not_mem_nil, false_implies, implies_true, and_true]
        exact ⟨within_ofString hid n, hbytes, forall_nonzero (within_ofInt n _),
          forall_nonzero (within_ofString hfile n), within_ofString hname n,
          within_texts hvariables.1 hvariables.2, forall_nonzero (.unsigned hflags),
          within_texts hnames.1 hnames.2, hitems, forall_nonzero (within_ofInt n _),
          forall_nonzero (within_ofInt n _)⟩

/-- What stands for a constant within a depth is within it. -/
theorem within_constItem : (r : ConstRecord) → ∀ {n : Nat}, constFits n r → (constItem r).Within n
  | .mk .., 0, h => by simp [constFits] at h
  | .mk kind bool int float str code? items, n + 1, h => by
      simp only [constFits, Bool.and_eq_true] at h
      obtain ⟨⟨⟨hkind, hstr, -⟩, hcode⟩, hroomy, hitems⟩ := h
      have harray := within_array (length_constItems items) hroomy (within_constItems items hitems)
      rw [constItem]
      refine within_record (show 7 ≤ maxItems by decide) ?_ ?_
      · simp only [constFields, List.forall_mem_cons]
        decide
      · simp only [constFields, List.forall_mem_cons, Option.some.injEq, forall_eq',
          List.not_mem_nil, false_implies, implies_true, and_true]
        exact ⟨forall_nonzero .bool, within_codeItem? code? hcode,
          forall_nonzero (Item.Within.ofFloat n float), forall_nonzero (within_ofInt n int),
          within_ofString hkind n, forall_nonzero (.text (of_decide_eq_true hstr)), harray⟩

/-- What stands for a code object is. -/
theorem within_codeItem? : (code? : Option CodeRecord) → ∀ {n : Nat}, codeFits? n code? →
    ∀ i, codeItem? code? = some i → i.Within n
  | none, _, _, _, hi => by
      rw [codeItem?] at hi
      cases hi
  | some r, _, h, _, hi => by
      rw [codeItem?] at hi
      cases hi
      exact within_codeItem r (by rwa [codeFits?] at h)

/-- What stands for each of several constants is. -/
theorem within_constItems : (rs : List ConstRecord) → ∀ {n : Nat}, constsFit n rs →
    ∀ i ∈ constItems rs, i.Within n
  | [], _, _ => by simp [constItems]
  | r :: rs, _, h => by
      simp only [constsFit, Bool.and_eq_true] at h
      rw [constItems, List.forall_mem_cons]
      exact ⟨within_constItem r h.1, within_constItems rs h.2⟩

end

/-! ## Beyond the limits -/

/-- An integer is plain. -/
theorem plain_ofInt (k : Int64) : (Item.ofInt k.toInt).Plain := by
  have hlow := k.le_toInt
  have hhigh := k.toInt_lt
  have hword : Word.modulus = 2 ^ 64 := by decide
  unfold Item.ofInt
  split
  · exact .unsigned (by omega)
  · exact .negative (by omega)

/-- A record of plain fields is plain. -/
theorem plain_record {fields : List (String × Option Item)}
    (h : ∀ f ∈ fields, ∀ i, f.2 = some i → i.Plain) : (record fields).Plain := by
  rw [record_eq]
  refine .map (fun e he => ?_) fun e he => ?_
  · obtain ⟨f, -, rfl⟩ := List.mem_map.mp he
    exact .text
  · obtain ⟨f, hf, rfl⟩ := List.mem_map.mp he
    exact h _ (mem_of_mem_present hf) f.2 rfl

/-- A list of texts is plain. -/
theorem plain_texts (xs : List String) : ∀ i, texts xs = some i → i.Plain := by
  refine forall_nonzero (.array fun i hi => ?_)
  obtain ⟨s, -, rfl⟩ := List.mem_map.mp hi
  exact .text

mutual

/-- The item of a record is plain. -/
theorem plain_codeItem : (r : CodeRecord) → (codeItem r).Plain
  | { stream?, constants := rs, flags, .. } => by
      have hbytes : (stream?.elim Item.null Item.bytes).Plain := by
        cases stream? with
        | none => exact .null
        | some bytes => exact .bytes
      have hflags : flags.toNat < Word.modulus := Nat.lt_trans flags.toNat_lt (by decide)
      rw [codeItem]
      refine plain_record ?_
      simp only [codeFields, List.forall_mem_cons, Option.some.injEq, forall_eq',
        List.not_mem_nil, false_implies, implies_true, and_true]
      exact ⟨.text, hbytes, forall_nonzero (plain_ofInt _), forall_nonzero .text, .text,
        plain_texts _, forall_nonzero (.unsigned hflags), plain_texts _,
        forall_nonzero (.array (plain_constItems rs)), forall_nonzero (plain_ofInt _),
        forall_nonzero (plain_ofInt _)⟩

/-- What stands for a constant has no tags and no bytes that are not text. -/
theorem plain_constItem : (r : ConstRecord) → (constItem r).Plain
  | .mk kind bool int float str code? items => by
      rw [constItem]
      refine plain_record ?_
      simp only [constFields, List.forall_mem_cons, Option.some.injEq, forall_eq',
        List.not_mem_nil, false_implies, implies_true, and_true]
      exact ⟨forall_nonzero .bool, plain_codeItem? code?,
        forall_nonzero (.float (canonical_ofFloat float)), forall_nonzero (plain_ofInt int), .text,
        forall_nonzero .text, forall_nonzero (.array (plain_constItems items))⟩

/-- What stands for a code object has none. -/
theorem plain_codeItem? : (code? : Option CodeRecord) → ∀ i, codeItem? code? = some i → i.Plain
  | none, _, hi => by
      rw [codeItem?] at hi
      cases hi
  | some r, _, hi => by
      rw [codeItem?] at hi
      cases hi
      exact plain_codeItem r

/-- What stands for several constants has none. -/
theorem plain_constItems : (rs : List ConstRecord) → ∀ i ∈ constItems rs, i.Plain
  | [] => by simp [constItems]
  | r :: rs => by
      rw [constItems, List.forall_mem_cons]
      exact ⟨plain_constItem r, plain_constItems rs⟩

end

/-! ## The codec -/

/-- The fields of the outer record. -/
def outerFields (a : Contents) : List (String × Option Item) :=
  [("v", some (.ofInt a.version.toInt)), ("code", some (a.code?.elim .null codeItem))]

/-- Reading the outer record comes down to reading that of the code object. -/
theorem toContents?_contentsItem (a : Contents) :
    toContents? (contentsItem a) =
      ((codeItem? a.code?).elim (some none)
        (optional (toCodeRecord? (2 * Cbor.maxNesting)))).map fun code? => { a with code? } := by
  have hnodup : ((outerFields a).map Prod.fst).Nodup := by
    show ["v", "code"].Nodup
    decide
  have hknown : ∀ f ∈ outerFields a, f.1 ∈ ["v", "code"] := by simp [outerFields]
  -- the version is always there
  have hversion : field (present (outerFields a)) "v" 0 toInt64? = some a.version := by
    rw [field_present hnodup rfl]
    exact toInt64?_ofInt a.version
  have hcode : field (present (outerFields a)) "code" none
      (optional (toCodeRecord? (2 * Cbor.maxNesting))) =
        (codeItem? a.code?).elim (some none) (optional (toCodeRecord? (2 * Cbor.maxNesting))) := by
    rw [field_present hnodup rfl]
    cases a.code? <;> rw [codeItem?] <;> rfl
  have hfields : toFields? ["v", "code"] (contentsItem a) = some (present (outerFields a)) :=
    toFields?_record hknown hnodup
  rw [toContents?, hfields]
  simp only [some_bind, hversion, hcode]
  cases (codeItem? a.code?).elim (some none) (optional (toCodeRecord? (2 * Cbor.maxNesting))) <;>
    rfl

/-- An artifact that comes back comes back with its numbers read again. -/
theorem returns_map (a : Contents) : Returns a (a.map reread) :=
  ⟨reread, fun _ hx => reread_eq hx, rfl⟩

/-- Binary objects store records: they are read back within the limits, and nothing else is read in
their place. -/
theorem binary_lawful : binary.Lawful where
  decode?_encode a ha := by
    obtain ⟨code?, hcode⟩ := exists_toCodeRecord?? a.code? ha
      (show maxNesting - 1 ≤ 2 * Cbor.maxNesting by decide)
    -- what fits is within the limits of the format, so that it is read at all
    have hwithin : (contentsItem a).Within Cbor.maxNesting := by
      refine within_record (n := maxNesting - 1) (show 2 ≤ maxItems by decide) ?_ ?_
      · simp only [List.forall_mem_cons]
        decide
      · have hitem : (a.code?.elim .null codeItem).Within (maxNesting - 1) := by
          cases hr : a.code? with
          | none => exact .null
          | some r => exact within_codeItem r (by rwa [Contents.fits, hr, codeFits?] at ha)
        simp only [List.forall_mem_cons, Option.some.injEq, forall_eq', List.not_mem_nil,
          false_implies, implies_true, and_true]
        exact ⟨within_ofInt _ a.version, hitem⟩
    refine ⟨a.map reread, ?_, returns_map a⟩
    show (decode? (encode (contentsItem a))).bind toContents? = _
    rw [decode?_encode hwithin, Option.bind_some, toContents?_contentsItem, hcode,
      eq_mapCode? a.code? hcode]
    rfl
  eq_of_decode? a b hlength hread := by
    obtain ⟨item, hdecode, hread⟩ := Option.bind_eq_some_iff.mp hread
    -- for any artifact, what is read is what was written
    have hplain : (contentsItem a).Plain := by
      have hitem : (a.code?.elim .null codeItem).Plain := by
        cases a.code? with
        | none => exact .null
        | some r => exact plain_codeItem r
      refine plain_record ?_
      simp only [List.forall_mem_cons, Option.some.injEq, forall_eq', List.not_mem_nil,
        false_implies, implies_true, and_true]
      exact ⟨plain_ofInt a.version, hitem⟩
    obtain rfl := eq_of_decode? hplain hlength hdecode
    rw [toContents?_contentsItem] at hread
    obtain ⟨code?, hcode, rfl⟩ := Option.map_eq_some_iff.mp hread
    rw [eq_mapCode? a.code? hcode]
    exact returns_map a

end Artifact

end Wordcode
