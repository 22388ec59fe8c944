import Wordcode.Store.Equality
import Mathlib

namespace Wordcode

/-! # Keys of values

Dicts file values under hash keys. The key of a tuple is one text: for each item the type, the key
and a separator.

* `Value.Part` is what a value holds at some depth of tuples, and `Value.Plain` are the values that
  consist of `None`, truth values, integers, strings and tuples.
* `Value.hash_respects_equality`: equal plain values have one key, and a tuple has a key exactly
  when all of its parts are of hashable types.
* `Value.equals_of_hash_eq`: plain values with one key are equal, if the separator does not occur in
  their strings. `Value.not_equals_of_separator` shows that it must not.
-/

namespace Value

/-- A value that is another one, or that it holds at some depth of tuples. -/
inductive Part : Value → Value → Prop
  | self (v : Value) : Part v v
  | item {v w : Value} {items : List Value} {id : Nat} :
    w ∈ items → Part v w → Part v (.tuple items id)

/-- Whether values of a value's type have keys. A tuple only has one if its items do. -/
def isHashable : Value → Bool
  | .none | .bool _ | .int _ | .float .. | .str .. | .tuple .. => true
  | .host h => h.convention == .bare
  | .range .. | .slice .. | .list _ | .dict _ | .iterator _ | .function .. | .code .. | .method ..
  | .builtin _ => false

/-- `None`, truth values, integers, strings, and tuples of these to any depth. -/
inductive Plain : Value → Prop
  | none : Plain .none
  | bool (b : Bool) : Plain (.bool b)
  | int (n : Int64) : Plain (.int n)
  | str (s : String) (id : Nat) : Plain (.str s id)
  | tuple {items : List Value} (id : Nat) : (∀ v ∈ items, Plain v) → Plain (.tuple items id)

/-! ## Which values have keys -/

/-- The fault of a value whose type has no keys. -/
def unhashable (v : Value) : Failure := .raise .type s!"unhashable type: '{v.typeName}'"

/-- Hashing a value that has no key fails with an error that says so. -/
theorem hash_of_not_isHashable {v : Value} (h : v.isHashable = false) :
    v.hash = .error v.unhashable := by
  cases v with
  | host h' =>
      obtain ⟨name, convention⟩ := h'
      cases convention with
      | bare => cases h
      | positional | keywords => rfl
  | none | bool | int | float | str | tuple => cases h
  | range | slice | list | dict | iterator | function | code | method | builtin => rfl

mutual

/-- A value has a key, or some part of it is of a type without keys, which the fault names. -/
theorem hash_cases : (v : Value) →
    (∃ key, v.hash = .ok key ∧ ∀ w, Part w v → w.isHashable = true) ∨
      ∃ w, Part w v ∧ w.isHashable = false ∧ v.hash = .error w.unhashable
  | .tuple items id => by
      -- a tuple has a key if all its items have
      rcases hashItems_cases items with ⟨text, htext, hparts⟩ | ⟨w, v, hv, hw, hhashable, herror⟩
      · refine Or.inl ⟨.tuple text, by rw [hash, htext]; rfl, fun w hw => ?_⟩
        cases hw with
        | self => rfl
        | item hv hw => exact hparts _ hv w hw
      · exact Or.inr ⟨w, .item hv hw, hhashable, by rw [hash, herror]; rfl⟩
  | .host h => by
      by_cases hhashable : (Value.host h).isHashable = true
      · obtain ⟨name, convention⟩ := h
        have hbare : convention = .bare := by simpa [isHashable] using hhashable
        subst hbare
        refine Or.inl ⟨.none, rfl, fun w hw => ?_⟩
        cases hw
        rfl
      · have hnot : (Value.host h).isHashable = false := by simpa using hhashable
        exact Or.inr ⟨_, .self _, hnot, hash_of_not_isHashable hnot⟩
  | .none | .bool _ | .int _ | .float .. | .str .. => by
      refine Or.inl ⟨_, rfl, fun w hw => ?_⟩
      cases hw
      rfl
  | .range .. | .slice .. | .list _ | .dict _ | .iterator _ | .function .. | .code ..
  | .method .. | .builtin _ => Or.inr ⟨_, .self _, rfl, hash_of_not_isHashable rfl⟩

/-- Items have keys, all of them, or the first one that has none is reported. -/
theorem hashItems_cases : (vs : List Value) →
    (∃ text, hashItems vs = .ok text ∧ ∀ v ∈ vs, ∀ w, Part w v → w.isHashable = true) ∨
      ∃ w, ∃ v ∈ vs, Part w v ∧ w.isHashable = false ∧ hashItems vs = .error w.unhashable
  | [] => Or.inl ⟨"", rfl, by simp⟩
  | v :: vs => by
      -- the first item that cannot be hashed is the one reported
      rcases hash_cases v with ⟨key, hkey, hparts⟩ | ⟨w, hw, hhashable, herror⟩
      · rcases hashItems_cases vs with ⟨text, htext, hrest⟩ | ⟨w, u, hu, hw, hhashable, herror⟩
        · refine Or.inl ⟨_, by rw [hashItems, hkey, htext]; rfl, ?_⟩
          rintro u hu
          rcases List.mem_cons.mp hu with rfl | hu
          · exact hparts
          · exact hrest u hu
        · refine Or.inr ⟨w, u, List.mem_cons_of_mem v hu, hw, hhashable, ?_⟩
          rw [hashItems, hkey, herror]
          rfl
      · refine Or.inr ⟨w, v, List.mem_cons_self, hw, hhashable, ?_⟩
        rw [hashItems, herror]
        rfl

end

/-- All parts of a plain value have keys. -/
theorem Plain.isHashable_of_part {v w : Value} (hv : v.Plain) (h : Part w v) :
    w.isHashable = true := by
  induction hv with
  | tuple id _ ih =>
      cases h with
      | self => rfl
      | item hmem hpart => exact ih _ hmem hpart
  | none | bool | int | str =>
      cases h
      rfl

/-- Plain values have keys. -/
theorem Plain.exists_hash {v : Value} (hv : v.Plain) : ∃ key, v.hash = .ok key := by
  rcases hash_cases v with ⟨key, hkey, -⟩ | ⟨w, hw, hhashable, -⟩
  · exact ⟨key, hkey⟩
  · rw [hv.isHashable_of_part hw] at hhashable
    cases hhashable

/-! ## Equal values have one key -/

section

variable {lists dicts : Nat → Nat → Bool}

/-- Items that are equal one by one have one text. -/
theorem hashItems_eq_of_equalItems {as bs : List Value}
    (has : ∀ a ∈ as, ∀ b, b.Plain → equalsWith lists dicts a b = true → a.hash = b.hash)
    (hbs : ∀ b ∈ bs, b.Plain) (h : equalItemsWith lists dicts as bs = true) :
    hashItems as = hashItems bs := by
  -- by induction on the items of one of them; the other has as many
  induction as generalizing bs with
  | nil =>
      cases bs with
      | nil => rfl
      | cons b bs => simp [equalItemsWith] at h
  | cons a as ih =>
      cases bs with
      | nil => simp [equalItemsWith] at h
      | cons b bs =>
          obtain ⟨hfirst, hrest⟩ : equalsWith lists dicts a b = true ∧
              equalItemsWith lists dicts as bs = true := by simpa [equalItemsWith] using h
          have hhash := has a List.mem_cons_self b (hbs b List.mem_cons_self) hfirst
          have htext := ih (fun a' ha' => has a' (List.mem_cons_of_mem a ha'))
            (fun b' hb' => hbs b' (List.mem_cons_of_mem b hb')) hrest
          rw [hashItems, hashItems, hhash, htext]

/-- Equality goes through tuples, and so do keys. -/
theorem Plain.hash_eq_of_equals {a b : Value} (ha : a.Plain) (hb : b.Plain)
    (h : equalsWith lists dicts a b = true) : a.hash = b.hash := by
  induction ha generalizing b with
  | tuple id _ ih =>
      cases hb with
      | tuple id' hbs =>
          rw [equalsWith] at h
          rw [hash, hash, hashItems_eq_of_equalItems (fun a ha b hb => ih a ha hb) hbs h]
      | none | bool | int | str => simp [equalsWith] at h
  | none | bool | int | str =>
      -- numbers and truth values are equal as numbers, which is what their keys hold
      cases hb <;> simp_all [equalsWith, hash, ofBool]

end

/-- Equal plain values are filed under one key. A tuple has a key exactly when everything that it
holds at any depth is of a hashable type; otherwise there is a type fault about such a part. -/
theorem hash_respects_equality :
    (∀ (s : Store) (a b : Value), a.Plain → b.Plain → s.equals a b = true →
      ∃ key, a.hash = .ok key ∧ b.hash = .ok key) ∧
    ∀ (items : List Value) (id : Nat),
      ((∃ key, (Value.tuple items id).hash = .ok key) ↔
        ∀ v, Part v (.tuple items id) → v.isHashable = true) ∧
      ((¬ ∀ v, Part v (.tuple items id) → v.isHashable = true) →
        ∃ v, Part v (.tuple items id) ∧ v.isHashable = false ∧
          (Value.tuple items id).hash =
            .error (.raise .type s!"unhashable type: '{v.typeName}'")) := by
  constructor
  · intro s a b ha hb h
    obtain ⟨key, hkey⟩ := ha.exists_hash
    -- equality is tested to some depth, and data need none
    have hsame : a.hash = b.hash := by
      unfold Store.equals at h
      cases hsize : s.size with
      | zero =>
          rw [hsize] at h
          exact ha.hash_eq_of_equals hb h
      | succ depth =>
          rw [hsize] at h
          exact ha.hash_eq_of_equals hb h
    exact ⟨key, hkey, hsame ▸ hkey⟩
  · intro items id
    rcases hash_cases (.tuple items id) with ⟨key, hkey, hparts⟩ | ⟨w, hw, hhashable, herror⟩
    · exact ⟨⟨fun _ => hparts, fun _ => ⟨key, hkey⟩⟩, fun hnot => absurd hparts hnot⟩
    · have hnot : ¬ ∀ v, Part v (.tuple items id) → v.isHashable = true := by
        intro hall
        rw [hall w hw] at hhashable
        cases hhashable
      refine ⟨⟨?_, fun hall => absurd hall hnot⟩, fun _ => ⟨w, hw, hhashable, herror⟩⟩
      rintro ⟨key, hkey⟩
      rw [herror] at hkey
      cases hkey

/-- Truth values and integers are equal at any depth, and lists make a tuple unhashable. -/
theorem hash_respects_equality_mixed :
    (∃ key, (Value.tuple [.bool true, .tuple [.str "x" 1, .int 0] 2] 3).hash = .ok key ∧
      (Value.tuple [.int 1, .tuple [.str "x" 4, .bool false] 5] 6).hash = .ok key) ∧
    ∃ v, Part v (.tuple [.int 1, .tuple [.list 0] 2] 3) ∧ v.isHashable = false ∧
      (Value.tuple [.int 1, .tuple [.list 0] 2] 3).hash =
        .error (.raise .type s!"unhashable type: '{v.typeName}'") := by
  refine ⟨hash_respects_equality.1 {} _ _ ?_ ?_ (by rfl), (hash_respects_equality.2 _ _).2 ?_⟩
  · have hinner : Plain (.tuple [.str "x" 1, .int 0] 2) :=
      .tuple 2 (by simp only [List.forall_mem_cons]; exact ⟨.str "x" 1, .int 0, by simp⟩)
    refine .tuple 3 ?_
    simp only [List.forall_mem_cons]
    exact ⟨.bool true, hinner, by simp⟩
  · have hinner : Plain (.tuple [.str "x" 4, .bool false] 5) :=
      .tuple 5 (by simp only [List.forall_mem_cons]; exact ⟨.str "x" 4, .bool false, by simp⟩)
    refine .tuple 6 ?_
    simp only [List.forall_mem_cons]
    exact ⟨.int 1, hinner, by simp⟩
  · intro hall
    have hlist : Part (.list 0) (.tuple [.int 1, .tuple [.list 0] 2] 3) :=
      .item (w := .tuple [.list 0] 2) (by simp) (.item (w := .list 0) (by simp) (.self _))
    exact absurd (hall _ hlist) (by decide)

/-! ## Values with one key -/

/-- No string in a value holds the character that separates items. -/
def Clear (v : Value) : Prop := ∀ s id, Part (.str s id) v → '\x00' ∉ s.toList

/-- The items of a clear tuple are clear. -/
theorem Clear.item {items : List Value} {id : Nat} (h : Clear (.tuple items id)) {v : Value}
    (hv : v ∈ items) : v.Clear :=
  fun s id' hpart => h s id' (.item hv hpart)

theorem Clear.tuple {items : List Value} (id : Nat) (h : ∀ v ∈ items, v.Clear) :
    Clear (.tuple items id) := by
  intro s id' hpart
  cases hpart with
  | item hmem hpart => exact h _ hmem s id' hpart

/-- A string without the separator is clear. -/
theorem Clear.str {s : String} (id : Nat) (h : '\x00' ∉ s.toList) : Clear (.str s id) := by
  intro s' id' hpart
  cases hpart
  exact h

theorem Clear.bool (b : Bool) : Clear (.bool b) := nofun

theorem Clear.int (n : Int64) : Clear (.int n) := nofun

theorem ofBool_inj {b c : Bool} : ofBool b = ofBool c ↔ b = c := by
  cases b <;> cases c <;> decide

end Value

/-- What a key adds to the text of a tuple. -/
def HashKey.item (key : HashKey) : List Char :=
  (key.typeName ++ ":" ++ key.text ++ "\x00").toList

/-- A number is shown as digits, perhaps with a sign. -/
theorem isDigit_of_mem_repr {n : Int} {c : Char} (hc : c ∈ n.repr.toList) :
    c = '-' ∨ c.isDigit = true := by
  have hdigits {m : Nat} (hc : c ∈ m.repr.toList) : c.isDigit = true := by
    rw [Nat.repr_eq_ofList_toDigits, String.toList_ofList] at hc
    exact Nat.isDigit_of_mem_toDigits (by decide) (by decide) hc
  rw [Int.repr_eq_if] at hc
  split at hc
  · exact .inr (hdigits hc)
  · rw [String.toList_append, List.mem_append] at hc
    exact hc.imp (by simp) hdigits

/-- A number is shown without the character that separates items. -/
theorem not_mem_toList_repr (n : Int) : '\x00' ∉ n.repr.toList := fun h =>
  absurd (isDigit_of_mem_repr h) (by decide)

/-- Two texts that are clear of a separator are told apart from what follows it. -/
theorem append_separator_inj {c : Char} {xs ys r r' : List Char} (hxs : c ∉ xs) (hys : c ∉ ys)
    (h : xs ++ c :: r = ys ++ c :: r') : xs = ys ∧ r = r' := by
  -- neither part has the separator, so they end where it first comes
  induction xs generalizing ys with
  | nil =>
      cases ys with
      | nil => simpa using h
      | cons y ys =>
          obtain ⟨rfl, -⟩ := List.cons_eq_cons.mp h
          exact absurd List.mem_cons_self hys
  | cons x xs ih =>
      cases ys with
      | nil =>
          obtain ⟨rfl, -⟩ := List.cons_eq_cons.mp h
          exact absurd List.mem_cons_self hxs
      | cons y ys =>
          obtain ⟨rfl, hrest⟩ := List.cons_eq_cons.mp h
          obtain ⟨rfl, hr⟩ :=
            ih (List.not_mem_of_not_mem_cons hxs) (List.not_mem_of_not_mem_cons hys) hrest
          exact ⟨rfl, hr⟩

namespace HashKey

/-- An item starts with the name of a type, so it does not look like the end of a tuple. -/
theorem item_append_ne (key : HashKey) (r r' : List Char) : key.item ++ r ≠ '\x00' :: r' := by
  cases key <;> simp [item, typeName, String.toList_append]

/-- A number can be read off its item. -/
theorem int_item_inj {n m : Int64} {r r' : List Char}
    (h : (HashKey.int n).item ++ r = (HashKey.int m).item ++ r') : n = m ∧ r = r' := by
  have htext : n.toInt.repr.toList ++ '\x00' :: r = m.toInt.repr.toList ++ '\x00' :: r' := by
    simpa [item, typeName, text, String.toList_append, Int.toString_eq_repr] using h
  obtain ⟨hrepr, hr⟩ :=
    append_separator_inj (not_mem_toList_repr _) (not_mem_toList_repr _) htext
  exact ⟨Int64.toInt_inj.mp (Int.repr_inj.mp (String.toList_inj.mp hrepr)), hr⟩

/-- A string that is clear of separators can be read off its item. -/
theorem str_item_inj {s s' : String} {r r' : List Char} (hs : '\x00' ∉ s.toList)
    (hs' : '\x00' ∉ s'.toList) (h : (HashKey.str s).item ++ r = (HashKey.str s').item ++ r') :
    s = s' ∧ r = r' := by
  have htext : s.toList ++ '\x00' :: r = s'.toList ++ '\x00' :: r' := by
    simpa [item, typeName, text, String.toList_append] using h
  obtain ⟨hchars, hr⟩ := append_separator_inj hs hs' htext
  exact ⟨String.toList_inj.mp hchars, hr⟩

end HashKey

namespace Value

/-- The keys of plain values are those of the types that they have. -/
theorem Plain.hash_eq_ok {v : Value} (hv : v.Plain) {key : HashKey} (h : v.hash = .ok key) :
    (v = .none ∧ key = .none) ∨
      (∃ n, key = .int n ∧ (v = .int n ∨ ∃ b, v = .bool b ∧ n = ofBool b)) ∨
      (∃ s id, v = .str s id ∧ key = .str s) ∨
      ∃ items id text, v = .tuple items id ∧ key = .tuple text ∧ hashItems items = .ok text := by
  -- integers and truth values share their keys; otherwise the key tells the type
  cases hv with
  | none =>
      cases h
      exact Or.inl ⟨rfl, rfl⟩
  | bool b =>
      cases h
      exact Or.inr (Or.inl ⟨_, rfl, Or.inr ⟨b, rfl, rfl⟩⟩)
  | int n =>
      cases h
      exact Or.inr (Or.inl ⟨n, rfl, Or.inl rfl⟩)
  | str s id =>
      cases h
      exact Or.inr (Or.inr (Or.inl ⟨s, id, rfl, rfl⟩))
  | @tuple items id hitems =>
      rw [hash] at h
      cases htext : hashItems items with
      | error f =>
          rw [htext] at h
          cases h
      | ok text =>
          rw [htext] at h
          cases h
          exact Or.inr (Or.inr (Or.inr ⟨items, id, text, rfl, rfl, htext⟩))

/-- The text of a tuple is that of its first item followed by that of the others. -/
theorem hashItems_cons_eq_ok {v : Value} {vs : List Value} {text : String}
    (h : hashItems (v :: vs) = .ok text) :
    ∃ key rest, v.hash = .ok key ∧ hashItems vs = .ok rest ∧
      text.toList = key.item ++ rest.toList := by
  cases hkey : v.hash with
  | error f =>
      rw [hashItems, hkey] at h
      cases h
  | ok key =>
      cases hrest : hashItems vs with
      | error f =>
          rw [hashItems, hkey, hrest] at h
          cases h
      | ok rest =>
          rw [hashItems, hkey, hrest] at h
          cases h
          exact ⟨key, rest, rfl, rfl, by simp [HashKey.item]⟩

section

variable (lists dicts : Nat → Nat → Bool)

/-- The item of a value can be read off any text that starts with it, up to equality. -/
def Readable (a : Value) : Prop :=
  ∀ (b : Value) (key key' : HashKey) (r r' : List Char), b.Plain → b.Clear →
    a.hash = .ok key → b.hash = .ok key' → key.item ++ r = key'.item ++ r' →
      equalsWith lists dicts a b = true ∧ r = r'

variable {lists dicts}

/-- Readable items can be read one after the other, up to the separator after the last. -/
theorem equalItems_of_text_eq {as bs : List Value} {text text' : String} {r r' : List Char}
    (has : ∀ a ∈ as, Readable lists dicts a) (hbs : ∀ b ∈ bs, b.Plain ∧ b.Clear)
    (htext : hashItems as = .ok text) (htext' : hashItems bs = .ok text')
    (h : text.toList ++ '\x00' :: r = text'.toList ++ '\x00' :: r') :
    equalItemsWith lists dicts as bs = true ∧ r = r' := by
  induction as generalizing bs text text' with
  | nil =>
      cases htext
      cases bs with
      | nil =>
          cases htext'
          exact ⟨rfl, by simpa using h⟩
      | cons b bs =>
          obtain ⟨key, rest, -, -, hcons⟩ := hashItems_cons_eq_ok htext'
          rw [hcons, List.append_assoc] at h
          exact absurd h.symm (key.item_append_ne _ _)
  | cons a as ih =>
      obtain ⟨key, rest, hkey, hrest, hcons⟩ := hashItems_cons_eq_ok htext
      rw [hcons, List.append_assoc] at h
      cases bs with
      | nil =>
          cases htext'
          exact absurd h (key.item_append_ne _ _)
      | cons b bs =>
          obtain ⟨key', rest', hkey', hrest', hcons'⟩ := hashItems_cons_eq_ok htext'
          rw [hcons', List.append_assoc] at h
          obtain ⟨hplain, hclear⟩ := hbs b List.mem_cons_self
          -- the first item is read off, and what is left are the others
          obtain ⟨hfirst, hremaining⟩ :=
            has a List.mem_cons_self b key key' _ _ hplain hclear hkey hkey' h
          obtain ⟨hitems, hr⟩ := ih (fun a' ha' => has a' (List.mem_cons_of_mem a ha'))
            (fun b' hb' => hbs b' (List.mem_cons_of_mem b hb')) hrest hrest' hremaining
          exact ⟨by simp [equalItemsWith, hfirst, hitems], hr⟩

/-- Plain values whose strings are clear of separators are readable: an item starts with the name of
its type, which settles what follows up to the next separator. -/
theorem Plain.readable {a : Value} (ha : a.Plain) (hclear : a.Clear) : Readable lists dicts a := by
  -- items of different types start with different names, so one case is left for each type
  induction ha with
  | none =>
      intro b key key' r r' hb _ hkey hkey' h
      cases hkey
      obtain ⟨rfl, rfl⟩ | ⟨m, rfl, -⟩ | ⟨s', id', -, rfl⟩ | ⟨items, id', text, -, rfl, -⟩ :=
        hb.hash_eq_ok hkey'
      · exact ⟨rfl, List.append_cancel_left h⟩
      all_goals simp [HashKey.item, HashKey.typeName, String.toList_append] at h
  | bool _ | int _ =>
      intro b key key' r r' hb _ hkey hkey' h
      cases hkey
      obtain ⟨-, rfl⟩ | ⟨m, rfl, rfl | ⟨b, rfl, rfl⟩⟩ | ⟨s', id', -, rfl⟩ |
        ⟨items, id', text, -, rfl, -⟩ := hb.hash_eq_ok hkey'
      case inr.inl.inl | inr.inl.inr =>
        obtain ⟨hnumber, hr⟩ := HashKey.int_item_inj h
        exact ⟨by simpa [equalsWith, ofBool_inj] using hnumber, hr⟩
      all_goals simp [HashKey.item, HashKey.typeName, String.toList_append] at h
  | str s id =>
      intro b key key' r r' hb hclear' hkey hkey' h
      cases hkey
      obtain ⟨-, rfl⟩ | ⟨m, rfl, -⟩ | ⟨s', id', rfl, rfl⟩ | ⟨items, id', text, -, rfl, -⟩ :=
        hb.hash_eq_ok hkey'
      case inr.inr.inl =>
        obtain ⟨rfl, hr⟩ := HashKey.str_item_inj (hclear s id (.self _))
          (hclear' s' id' (.self _)) h
        exact ⟨by simp [equalsWith], hr⟩
      all_goals simp [HashKey.item, HashKey.typeName, String.toList_append] at h
  | @tuple items id hitems ih =>
      intro b key key' r r' hb hclear' hkey hkey' h
      obtain ⟨h', -⟩ | ⟨_, -, h' | ⟨_, h', -⟩⟩ | ⟨_, _, h', -⟩ | ⟨_, _, text, ⟨⟩, rfl, htext⟩ :=
        (Plain.tuple id hitems).hash_eq_ok hkey
      case inr.inr.inr =>
        obtain ⟨-, rfl⟩ | ⟨m, rfl, -⟩ | ⟨s', id', -, rfl⟩ |
          ⟨items', id', text', rfl, rfl, htext'⟩ := hb.hash_eq_ok hkey'
        case inr.inr.inr =>
          cases hb with
          | tuple _ hitems' =>
              rw [equalsWith]
              refine equalItems_of_text_eq (fun a ha => ih a ha (hclear.item ha))
                (fun b hb => ⟨hitems' b hb, hclear'.item hb⟩) htext htext' ?_
              simpa [HashKey.item, HashKey.typeName, HashKey.text, String.toList_append] using h
        all_goals simp [HashKey.item, HashKey.typeName, String.toList_append] at h
      all_goals cases h'

end

/-- Plain values under one key are equal, if no string in them holds the character that separates
the items of a tuple. -/
theorem equals_of_hash_eq (s : Store) {a b : Value} {key : HashKey} (ha : a.Plain) (hb : b.Plain)
    (hca : a.Clear) (hcb : b.Clear) (hkey : a.hash = .ok key) (hkey' : b.hash = .ok key) :
    s.equals a b = true := by
  unfold Store.equals
  cases s.size with
  | zero => exact (ha.readable hca b key key [] [] hb hcb hkey hkey' rfl).1
  | succ depth => exact (ha.readable hca b key key [] [] hb hcb hkey hkey' rfl).1

/-- A truth value and a number have one key beside equal strings, and so the tuples are equal. -/
theorem equals_of_hash_eq_mixed :
    ({} : Store).equals (.tuple [.bool true, .str "x" 1] 2) (.tuple [.int 1, .str "x" 3] 4) =
      true := by
  have hplain : Plain (.tuple [.bool true, .str "x" 1] 2) :=
    .tuple 2 (by simp only [List.forall_mem_cons]; exact ⟨.bool true, .str "x" 1, by simp⟩)
  have hplain' : Plain (.tuple [.int 1, .str "x" 3] 4) :=
    .tuple 4 (by simp only [List.forall_mem_cons]; exact ⟨.int 1, .str "x" 3, by simp⟩)
  have hclear : Clear (.tuple [.bool true, .str "x" 1] 2) :=
    .tuple 2 (by simp only [List.forall_mem_cons]; exact ⟨.bool true, .str 1 (by decide), by simp⟩)
  have hclear' : Clear (.tuple [.int 1, .str "x" 3] 4) :=
    .tuple 4 (by simp only [List.forall_mem_cons]; exact ⟨.int 1, .str 3 (by decide), by simp⟩)
  exact equals_of_hash_eq {} hplain hplain' hclear hclear' rfl rfl

/-- A separator in a string makes tuples of different lengths share a key without being equal, so a
dict that holds the one answers for the other. -/
theorem not_equals_of_separator :
    ∃ (a b : Value) (key : HashKey), a.Plain ∧ b.Plain ∧ a.hash = .ok key ∧ b.hash = .ok key ∧
      ∀ s : Store, s.equals a b = false := by
  refine ⟨.tuple [.str "a\x00str:b" 1] 2, .tuple [.str "a" 3, .str "b" 4] 5,
    .tuple "str:a\x00str:b\x00", ?_, ?_, by rfl, by rfl, fun s => ?_⟩
  · exact .tuple 2 (by simpa using .str _ _)
  · exact .tuple 5 (by simp only [List.forall_mem_cons]; exact ⟨.str _ _, .str _ _, by simp⟩)
  · unfold Store.equals
    cases s.size with
    | zero => simp [Store.equalsUpTo, equalsWith, equalItemsWith]
    | succ depth => simp [Store.equalsUpTo, equalsWith, equalItemsWith]

end Value

end Wordcode
