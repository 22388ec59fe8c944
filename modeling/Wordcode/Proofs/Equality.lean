import Wordcode.Proofs.Hashing
import Wordcode.Proofs.Mappings
import Wordcode.Proofs.Nesting
import Mathlib

namespace Wordcode

/-! # Equality is an equivalence

Equality looks at its first operand: it asks whether the second one has all that the first one has.
On values without floats and cycles this comes to the same from both sides.

* `Value.atom?` is what decides the equality of a value without parts.
* `Store.equalsUpTo_eq` says that the count of references in equality does not matter;
  `Store.equals_tuple_iff`, `Store.equals_slice_iff`, `Store.equals_list_iff` and
  `Store.equals_dict_iff` say what equality is of values with parts.
* `Dict.Sound.lookups_iff` is about dicts: if one is not larger than the other and has all its keys,
  it has no others.
* `Store.equals_equivalence` is the result.
-/

/-! ## Values without parts -/

/-- What tells a value from the values that are not one and the same. -/
inductive Identity
  | none
  | bool (b : Bool)
  | int (n : Int64)
  | object (type : String) (id : Nat)
  | builtin (b : Builtin)
  | host (h : Host)

/-- What decides the equality of a value without parts. -/
inductive Atom
  | none
  | number (n : Int64)
  | text (t : String)
  /-- Of an empty range only the length counts, and of a range of one integer not the step. -/
  | range (length start step : Int64)
  | iterator (ref : Nat)
  | function (id : Nat)
  | code (serial : Nat)
  | method (m : Method) (receiver : Identity)
  | builtin (b : Builtin)
  | host (h : Host)

/-- What decides the equality of a range. -/
def Range.atom (r : Range) : Atom :=
  .range r.length (if r.length = 0 then 0 else r.start)
    (if r.length = 0 ∨ r.length = 1 then 0 else r.step)

namespace Value

/-- The identity of a value. -/
def identity : Value → Identity
  | .none => .none
  | .bool b => .bool b
  | .int n => .int n
  | .float _ id => .object "float" id
  | .str _ id => .object "str" id
  | .range _ id => .object "range" id
  | .tuple _ id => .object "tuple" id
  | .slice _ _ _ id => .object "slice" id
  | .list ref => .object "list" ref
  | .dict ref => .object "dict" ref
  | .iterator ref => .object "iterator" ref
  | .function ref => .object "function" ref
  | .code _ id => .object "code" id
  | .method _ _ id => .object "method" id
  | .builtin b => .builtin b
  | .host h => .host h

/-- What decides the equality of a value without parts. -/
def atom? : Value → Option Atom
  | .none => some .none
  | .bool b => some (.number (ofBool b))
  | .int n => some (.number n)
  | .str t _ => some (.text t)
  | .range r _ => some r.atom
  | .iterator ref => some (.iterator ref)
  | .function ref => some (.function ref)
  | .code c _ => some (.code c.serial)
  | .method receiver m _ => some (.method m receiver.identity)
  | .builtin b => some (.builtin b)
  | .host h => some (.host h)
  | .float .. | .tuple .. | .slice .. | .list _ | .dict _ => Option.none

theorem same_iff {a b : Value} : a.same b = true ↔ a.identity = b.identity := by
  cases a <;> cases b <;> simp [same, identity]

end Value

theorem Range.equals_iff {a b : Range} : a.equals b = true ↔ a.atom = b.atom := by
  unfold Range.equals Range.atom
  grind

/-- Without parts the contents of lists and dicts do not matter. -/
theorem Value.equalsWith_atom_iff {s : Store} {a b : Value} (lists dicts : Nat → Nat → Bool)
    (hatom : a.atom?.isSome = true) (ha : s.Admits a) (hb : s.Admits b) :
    Value.equalsWith lists dicts a b = true ↔ a.atom? = b.atom? := by
  cases a with
  | float | tuple | slice | list | dict => cases hatom
  | host h =>
      have hbare : h.convention ≠ .bare := ha
      cases b <;> simp [equalsWith, atom?, Range.atom, hbare]
  | method receiver m id => cases b <;> simp [equalsWith, atom?, Range.atom, same_iff]
  | range r id => cases b <;> simp [equalsWith, atom?, Range.equals_iff, Range.atom]
  | _ =>
      cases b with
      | float => exact hb.elim
      | _ => simp [equalsWith, atom?, Range.atom, ofBool_inj]

/-- How lists and dicts are compared does not matter to a value without parts. -/
theorem Value.equalsWith_eq_of_atom {a : Value} (lists dicts lists' dicts' : Nat → Nat → Bool)
    (hatom : a.atom?.isSome = true) (b : Value) :
    Value.equalsWith lists dicts a b = Value.equalsWith lists' dicts' a b := by
  cases a with
  | float | tuple | slice | list | dict => cases hatom
  | _ => cases b <;> rfl

/-- Sequences are equal item by item. -/
theorem Value.equalItemsWith_iff (lists dicts : Nat → Nat → Bool) {as bs : List Value} :
    Value.equalItemsWith lists dicts as bs = true ↔
      List.Forall₂ (fun a b => Value.equalsWith lists dicts a b = true) as bs := by
  induction as generalizing bs with
  | nil => cases bs <;> simp [equalItemsWith]
  | cons a as ih => cases bs <;> simp [equalItemsWith, ih]

/-! ## The count of references -/

/-- Relations that agree on the members of a list agree on it item by item. -/
theorem forall₂_congr_mem {α β : Type} {R R' : α → β → Prop} {as : List α} {bs : List β}
    (h : ∀ a ∈ as, ∀ b ∈ bs, R a b ↔ R' a b) : List.Forall₂ R as bs ↔ List.Forall₂ R' as bs := by
  rw [List.forall₂_iff_get, List.forall₂_iff_get]
  refine and_congr_right fun _ => ?_
  refine forall_congr' fun i => forall_congr' fun hi => forall_congr' fun hi' => ?_
  exact h _ (List.get_mem as ⟨i, hi⟩) _ (List.get_mem bs ⟨i, hi'⟩)

/-- A relation that is symmetric between the members of two lists is so item by item. -/
theorem forall₂_symm_mem {α : Type} {R : α → α → Prop} {as bs : List α} (h : List.Forall₂ R as bs)
    (hsymm : ∀ a ∈ as, ∀ b ∈ bs, R a b → R b a) : List.Forall₂ R bs as := by
  rw [List.forall₂_iff_get] at h ⊢
  obtain ⟨hlength, hget⟩ := h
  refine ⟨hlength.symm, fun i hi hi' => ?_⟩
  exact hsymm _ (List.get_mem as ⟨i, hi'⟩) _ (List.get_mem bs ⟨i, hi⟩) (hget i hi' hi)

/-- A relation that is transitive between the members of three lists is so item by item. -/
theorem forall₂_trans_mem {α : Type} {R : α → α → Prop} {as bs cs : List α}
    (h : List.Forall₂ R as bs) (h' : List.Forall₂ R bs cs)
    (htrans : ∀ a ∈ as, ∀ b ∈ bs, ∀ c ∈ cs, R a b → R b c → R a c) : List.Forall₂ R as cs := by
  rw [List.forall₂_iff_get] at h h' ⊢
  obtain ⟨hlength, hget⟩ := h
  obtain ⟨hlength', hget'⟩ := h'
  refine ⟨hlength.trans hlength', fun i hi hi'' => ?_⟩
  have hi' : i < bs.length := hlength ▸ hi
  exact htrans _ (List.get_mem as ⟨i, hi⟩) _ (List.get_mem bs ⟨i, hi'⟩) _
    (List.get_mem cs ⟨i, hi''⟩) (hget i hi hi') (hget' i hi' hi'')

/-- A relation of optional values is symmetric if it is for the values at hand. -/
theorem optionRel_symm_mem {α : Type} {R : α → α → Prop} {x y : Option α} (h : Option.Rel R x y)
    (hsymm : ∀ a ∈ x, ∀ b ∈ y, R a b → R b a) : Option.Rel R y x := by
  cases h with
  | none => exact .none
  | some h => exact .some (hsymm _ rfl _ rfl h)

/-- A relation of optional values is transitive if it is for the values at hand. -/
theorem optionRel_trans_mem {α : Type} {R : α → α → Prop} {x y z : Option α}
    (h : Option.Rel R x y) (h' : Option.Rel R y z)
    (htrans : ∀ a ∈ x, ∀ b ∈ y, ∀ c ∈ z, R a b → R b c → R a c) : Option.Rel R x z := by
  cases h with
  | none => exact h'
  | some h =>
      cases h' with
      | some h' => exact .some (htrans _ rfl _ rfl _ rfl h h')

/-- What an entry needs to have an equal one in a dict. -/
def Dict.Matches (d : Dict) (eq : Value → Value → Bool) (e : Entry) : Prop :=
  ∃ v, d.find? e.hash = some v ∧ eq e.value v = true

namespace Store

variable {s : Store} {a b c : Value} {n : Nat}

/-- A value without parts has no cycles. -/
theorem Ordinary.of_atom (hatom : a.atom?.isSome = true) (ha : s.Admits a) : s.Ordinary a := by
  refine .of_held ha fun w hw => ?_
  cases hw <;> cases hatom

/-- Values without parts are equal if they have the same atom. -/
theorem equalsUpTo_atom_iff (hatom : a.atom?.isSome = true) (ha : s.Admits a) (hb : s.Admits b) :
    s.equalsUpTo n a b = true ↔ a.atom? = b.atom? := by
  cases n <;> exact Value.equalsWith_atom_iff _ _ hatom ha hb

/-- A tuple equals a tuple of equal items. -/
theorem equalsUpTo_tuple_iff {items : List Value} {id : Nat} :
    s.equalsUpTo n (.tuple items id) b = true ↔ ∃ items' id', b = .tuple items' id' ∧
      List.Forall₂ (fun x y => s.equalsUpTo n x y = true) items items' := by
  cases n <;> cases b <;> simp [equalsUpTo, Value.equalsWith, Value.equalItemsWith_iff]

/-- A slice equals a slice of equal bounds. -/
theorem equalsUpTo_slice_iff {x y z : Value} {id : Nat} :
    s.equalsUpTo n (.slice x y z id) b = true ↔ ∃ x' y' z' id', b = .slice x' y' z' id' ∧
      s.equalsUpTo n x x' = true ∧ s.equalsUpTo n y y' = true ∧ s.equalsUpTo n z z' = true := by
  cases n <;> cases b <;> simp [equalsUpTo, Value.equalsWith, and_assoc]

/-- A list equals itself, and a list of equal items. -/
theorem equalsUpTo_list_iff {ref : Nat} :
    s.equalsUpTo (n + 1) (.list ref) b = true ↔ ∃ ref', b = .list ref' ∧ (ref = ref' ∨
      List.Forall₂ (fun x y => s.equalsUpTo n x y = true) (s.items ref) (s.items ref')) := by
  cases b <;> simp [equalsUpTo, Value.equalsWith, List.forall₂_iff_zip]

/-- A dict equals a dict of the same size that has an equal value for each of its keys. -/
theorem equalsUpTo_dict_iff {ref : Nat} :
    s.equalsUpTo (n + 1) (.dict ref) b = true ↔ ∃ ref', b = .dict ref' ∧
      (s.dict ref).size = (s.dict ref').size ∧
        ∀ e ∈ s.entries ref, (s.dict ref').Matches (s.equalsUpTo n) e := by
  cases b with
  | dict ref' =>
      simp only [equalsUpTo, Value.equalsWith, Bool.and_eq_true, beq_iff_eq, List.all_eq_true,
        Value.dict.injEq, exists_eq_left', Dict.Matches]
      refine and_congr_right fun _ => forall₂_congr fun e _ => ?_
      cases (s.dict ref').find? e.hash <;> simp
  | _ => simp [equalsUpTo, Value.equalsWith]

/-- The bound of depth does not matter to a value without parts. -/
theorem equalsUpTo_eq_of_atom (hatom : a.atom?.isSome = true) (n m : Nat) (b : Value) :
    s.equalsUpTo n a b = s.equalsUpTo m a b := by
  cases n <;> cases m <;> exact Value.equalsWith_eq_of_atom _ _ _ _ hatom b

/-- Another reference makes no difference to a value that reaches no more than are counted. -/
theorem Ordinary.equalsUpTo_succ_iff (ha : s.Ordinary a) :
    ∀ n, s.rank a ≤ n → ∀ b, s.equalsUpTo (n + 1) a b = true ↔ s.equalsUpTo n a b = true := by
  induction ha using Ordinary.induction with
  | step a ha ih =>
    intro n hn b
    have hparts (w : Value) (hw : s.Holds a w) (y : Value) :
        s.equalsUpTo (n + 1) w y = true ↔ s.equalsUpTo n w y = true :=
      ih w hw n ((ha.rank_le_of_holds hw).trans hn) y
    -- one reference less is left for what is held through a reference
    have hcontents (href : a.IsReference) : ∃ m, n = m + 1 ∧ ∀ w, s.Holds a w → ∀ y,
        (s.equalsUpTo (m + 1) w y = true ↔ s.equalsUpTo m w y = true) := by
      have hpos := ha.rank_pos href
      refine ⟨n - 1, by omega, fun w hw y => ih w hw (n - 1) ?_ y⟩
      have := ha.rank_lt_of_holds href hw
      omega
    cases a with
    | float => exact ha.admits_self.elim
    | tuple items id =>
        rw [equalsUpTo_tuple_iff, equalsUpTo_tuple_iff]
        refine exists₂_congr fun items' id' => and_congr_right fun _ => ?_
        exact forall₂_congr_mem fun x hx y _ => hparts x (.item hx) y
    | slice x y z id =>
        rw [equalsUpTo_slice_iff, equalsUpTo_slice_iff]
        simp only [hparts x .start, hparts y .stop, hparts z .step]
    | list ref =>
        obtain ⟨m, rfl, hm⟩ := hcontents trivial
        rw [equalsUpTo_list_iff, equalsUpTo_list_iff]
        refine exists_congr fun ref' => and_congr_right fun _ => or_congr_right ?_
        exact forall₂_congr_mem fun x hx y _ => hm x (.element hx) y
    | dict ref =>
        obtain ⟨m, rfl, hm⟩ := hcontents trivial
        rw [equalsUpTo_dict_iff, equalsUpTo_dict_iff]
        refine exists_congr fun ref' => and_congr_right fun _ => and_congr_right fun _ => ?_
        refine forall₂_congr fun e he => exists_congr fun v => and_congr_right fun _ => ?_
        exact hm e.value (.value he) v
    | _ => rw [equalsUpTo_eq_of_atom rfl (n + 1) n]

/-- The count of references does not matter as long as it is not less than the rank. -/
theorem Ordinary.equalsUpTo_iff (ha : s.Ordinary a) (hn : s.rank a ≤ n) :
    s.equalsUpTo n a b = true ↔ s.equals a b = true := by
  have hstable (m : Nat) (hm : s.rank a ≤ m) :
      s.equalsUpTo m a b = true ↔ s.equalsUpTo (s.rank a) a b = true := by
    induction m, hm using Nat.le_induction with
    | base => rfl
    | succ m hm ih => rw [ha.equalsUpTo_succ_iff m hm, ih]
  rw [hstable n hn, equals, hstable s.size ha.rank_le_size]

/-! ## Equality by the type of the first operand -/

theorem Ordinary.equals_atom_iff (ha : s.Ordinary a) (hb : s.Ordinary b)
    (hatom : a.atom?.isSome = true) : s.equals a b = true ↔ a.atom? = b.atom? :=
  equalsUpTo_atom_iff hatom ha.admits_self hb.admits_self

theorem equals_tuple_iff {items : List Value} {id : Nat} :
    s.equals (.tuple items id) b = true ↔ ∃ items' id', b = .tuple items' id' ∧
      List.Forall₂ (fun x y => s.equals x y = true) items items' :=
  equalsUpTo_tuple_iff

theorem equals_slice_iff {x y z : Value} {id : Nat} :
    s.equals (.slice x y z id) b = true ↔ ∃ x' y' z' id', b = .slice x' y' z' id' ∧
      s.equals x x' = true ∧ s.equals y y' = true ∧ s.equals z z' = true :=
  equalsUpTo_slice_iff

/-- For a list without cycles the bound of depth is enough. -/
theorem Ordinary.equals_list_iff {ref : Nat} (ha : s.Ordinary (.list ref)) :
    s.equals (.list ref) b = true ↔ ∃ ref', b = .list ref' ∧ (ref = ref' ∨
      List.Forall₂ (fun x y => s.equals x y = true) (s.items ref) (s.items ref')) := by
  rw [← ha.equalsUpTo_iff (ha.rank_le_size.trans (Nat.le_succ _)), equalsUpTo_list_iff]
  rfl

/-- For a dict without cycles it is, too. -/
theorem Ordinary.equals_dict_iff_matches {ref : Nat} (ha : s.Ordinary (.dict ref)) :
    s.equals (.dict ref) b = true ↔ ∃ ref', b = .dict ref' ∧
      (s.dict ref).size = (s.dict ref').size ∧
        ∀ e ∈ s.entries ref, (s.dict ref').Matches s.equals e := by
  rw [← ha.equalsUpTo_iff (ha.rank_le_size.trans (Nat.le_succ _)), equalsUpTo_dict_iff]
  rfl

end Store

/-! ## Dicts -/

/-- The keys of values that are not floats are equal to themselves. -/
theorem Value.hash_beq_self {v : Value} {key : HashKey} (hv : ∀ x id, v ≠ .float x id)
    (hkey : v.hash = .ok key) : (key == key) = true := by
  -- only the key of a float can differ from itself
  cases v with
  | none =>
      cases hkey
      rfl
  | bool b =>
      cases hkey
      exact beq_self_eq_true (ofBool b)
  | int n =>
      cases hkey
      exact beq_self_eq_true n
  | str text id =>
      cases hkey
      exact beq_self_eq_true text
  | float x id => exact (hv x id rfl).elim
  | tuple items id =>
      rw [hash] at hkey
      cases hitems : hashItems items with
      | error e => simp [hitems, Except.map] at hkey
      | ok text =>
          simp only [hitems, Except.map, Except.ok.injEq] at hkey
          subst hkey
          exact beq_self_eq_true text
  | host h =>
      obtain ⟨name, convention⟩ := h
      cases convention with
      | bare =>
          cases hkey
          rfl
      | positional | keywords => cases hkey
  | _ => cases hkey

namespace Dict

variable {d d' : Dict} {h h' : HashKey} {v : Value}

/-- In a sound dict, what is found for a key is the value of the entry with the key. -/
theorem Sound.find?_eq_some_iff (hd : d.Sound) :
    d.find? h = some v ↔ ∃ e ∈ d.entries, (e.hash == h) = true ∧ e.value = v := by
  constructor
  · intro hfind
    rw [hd.find?_eq_find?_entries, Entry.find?, Option.map_eq_some_iff] at hfind
    obtain ⟨e, he, hvalue⟩ := hfind
    exact ⟨e, List.mem_of_find?_eq_some he, by simpa using List.find?_some he, hvalue⟩
  · rintro ⟨e, he, hbeq, rfl⟩
    obtain ⟨i, hi⟩ := List.mem_iff_getElem?.mp he
    have hposition := (hd.locates h i).mpr ⟨e, hi, hbeq⟩
    simp [Dict.find?, hposition, hi]

/-- Equal keys have one value. -/
theorem Sound.find?_congr (hd : d.Sound) (hh : (h == h') = true) : d.find? h = d.find? h' := by
  refine Option.ext fun v => ?_
  simp only [hd.find?_eq_some_iff, BEq.congr_right hh]

/-- If all keys of a dict are in another one, each entry can be given the position of its key there,
and no position is given twice. -/
theorem Sound.exists_injective (hd : d.Sound) (hd' : d'.Sound)
    (hkeys : ∀ e ∈ d.entries, (d'.find? e.hash).isSome = true) :
    ∃ f : Fin d.entries.length → Fin d'.entries.length, f.Injective ∧
      ∀ i, (d'.entries[f i].hash == d.entries[i].hash) = true := by
  have hposition (i : Fin d.entries.length) : ∃ j : Fin d'.entries.length,
      (d'.entries[j].hash == d.entries[i].hash) = true := by
    obtain ⟨v, hv⟩ := Option.isSome_iff_exists.mp (hkeys d.entries[i] (List.getElem_mem i.isLt))
    obtain ⟨e, he, hbeq, -⟩ := hd'.find?_eq_some_iff.mp hv
    obtain ⟨j, hj, rfl⟩ := List.mem_iff_getElem.mp he
    exact ⟨⟨j, hj⟩, hbeq⟩
  choose f hf using hposition
  refine ⟨f, fun i j hij => ?_, hf⟩
  -- two entries with one position have equal keys, so they are one entry
  have hi := BEq.symm (hf i)
  have hj := BEq.symm (hf j)
  rw [hij] at hi
  exact Fin.ext (hd.position_eq (List.getElem?_eq_getElem i.isLt) (List.getElem?_eq_getElem j.isLt)
    hi hj)

/-- A dict is no larger than one that has all its keys. -/
theorem Sound.size_le (hd : d.Sound) (hd' : d'.Sound)
    (hkeys : ∀ e ∈ d.entries, (d'.find? e.hash).isSome = true) : d.size ≤ d'.size := by
  obtain ⟨f, hinj, -⟩ := hd.exists_injective hd' hkeys
  have hle := Fintype.card_le_of_injective f hinj
  rwa [Fintype.card_fin, Fintype.card_fin] at hle

/-- If it is not smaller either, it has all keys of the other one. -/
theorem Sound.exists_find?_of_size_eq (hd : d.Sound) (hd' : d'.Sound)
    (hkeys : ∀ e ∈ d.entries, (d'.find? e.hash).isSome = true) (hsize : d.size = d'.size)
    {w : Value} (hfind : d'.find? h = some w) : ∃ v, d.find? h = some v := by
  obtain ⟨f, hinj, hf⟩ := hd.exists_injective hd' hkeys
  -- as many positions are given as there are, so the position of the key is among them
  have hbijective : f.Bijective :=
    (Fintype.bijective_iff_injective_and_card f).mpr ⟨hinj, by simpa [size] using hsize⟩
  obtain ⟨e, he, hbeq, -⟩ := hd'.find?_eq_some_iff.mp hfind
  obtain ⟨j, hj, rfl⟩ := List.mem_iff_getElem.mp he
  obtain ⟨i, hi⟩ := hbijective.2 ⟨j, hj⟩
  have hkey := hf i
  simp only [hi] at hkey
  exact ⟨_, hd.find?_eq_some_iff.mpr
    ⟨d.entries[i], List.getElem_mem _, BEq.trans (BEq.symm hkey) hbeq, rfl⟩⟩

/-- A dict that has an equal value for a key has the key. -/
theorem Matches.isSome {eq : Value → Value → Bool} {e : Entry} (h : d.Matches eq e) :
    (d.find? e.hash).isSome = true := by
  obtain ⟨w, hw, -⟩ := h
  rw [hw, Option.isSome_some]

/-- The keys of all entries are equal to themselves. -/
def SelfEqualKeys (d : Dict) : Prop := ∀ e ∈ d.entries, (e.hash == e.hash) = true

/-- The key of an entry finds its value, unless the key is not equal to itself. -/
theorem Sound.find?_hash (hd : d.Sound) (hself : d.SelfEqualKeys) {e : Entry}
    (he : e ∈ d.entries) : d.find? e.hash = some e.value :=
  hd.find?_eq_some_iff.mpr ⟨e, he, hself e he, rfl⟩

/-- Two dicts of one size are equal from the side of one of them just when every key has equal
values in both or is in neither. -/
theorem Sound.lookups_iff (hd : d.Sound) (hd' : d'.Sound) (hself : d.SelfEqualKeys)
    (hself' : d'.SelfEqualKeys) (eq : Value → Value → Bool) :
    (d.size = d'.size ∧ ∀ e ∈ d.entries, d'.Matches eq e) ↔
      ∀ h, Option.Rel (fun v w => eq v w = true) (d.find? h) (d'.find? h) := by
  constructor
  · -- with equal sizes, no key of the second dict is missing in the first
    rintro ⟨hsize, hmatches⟩ h
    cases hfind : d.find? h with
    | some v =>
        obtain ⟨e, he, hbeq, rfl⟩ := hd.find?_eq_some_iff.mp hfind
        obtain ⟨w, hw, heq⟩ := hmatches e he
        rw [← hd'.find?_congr hbeq, hw]
        exact .some heq
    | none =>
        cases hfind' : d'.find? h with
        | none => exact .none
        | some w =>
            obtain ⟨v, hv⟩ := hd.exists_find?_of_size_eq hd'
              (fun e he => (hmatches e he).isSome) hsize hfind'
            cases hfind.symm.trans hv
  · intro hlookups
    have hrel (h : HashKey) {r r' : Option Value} (hr : d.find? h = r) (hr' : d'.find? h = r') :
        Option.Rel (fun v w => eq v w = true) r r' := hr ▸ hr' ▸ hlookups h
    have hmatches : ∀ e ∈ d.entries, d'.Matches eq e := by
      intro e he
      cases hfind' : d'.find? e.hash with
      | none => cases hrel e.hash (hd.find?_hash hself he) hfind'
      | some w =>
          cases hrel e.hash (hd.find?_hash hself he) hfind' with
          | some heq => exact ⟨w, hfind', heq⟩
    -- each dict has the keys of the other one
    have hkeys : ∀ e ∈ d.entries, (d'.find? e.hash).isSome = true :=
      fun e he => (hmatches e he).isSome
    have hkeys' : ∀ e ∈ d'.entries, (d.find? e.hash).isSome = true := by
      intro e he
      cases hfind : d.find? e.hash with
      | none => cases hrel e.hash hfind (hd'.find?_hash hself' he)
      | some v => rfl
    exact ⟨le_antisymm (hd.size_le hd' hkeys) (hd'.size_le hd hkeys'), hmatches⟩

/-- The order of insertion does not matter to looking keys up. -/
theorem Sound.find?_eq_of_perm (hd : d.Sound) (hd' : d'.Sound) (hperm : d.pairs.Perm d'.pairs)
    (h : HashKey) : d.find? h = d'.find? h := by
  have hentry {d d' : Dict} (hd : d.Sound) (hd' : d'.Sound) (hperm : d.pairs.Perm d'.pairs)
      {v : Value} (hfind : d.find? h = some v) : d'.find? h = some v := by
    obtain ⟨e, he, hbeq, rfl⟩ := hd.find?_eq_some_iff.mp hfind
    have hpair : e.pair ∈ d'.pairs := hperm.subset (List.mem_map_of_mem he)
    obtain ⟨e', he', hpair⟩ := List.mem_map.mp hpair
    simp only [Entry.pair, Prod.mk.injEq] at hpair
    -- one key is filed under one hash key
    have hhash : e'.hash = e.hash := by
      have hkey' := hd'.hash_key e' he'
      rw [hpair.1, hd.hash_key e he] at hkey'
      exact (Except.ok.inj hkey').symm
    exact hd'.find?_eq_some_iff.mpr ⟨e', he', by rwa [hhash], hpair.2⟩
  exact Option.ext fun v => ⟨hentry hd hd' hperm, hentry hd' hd hperm.symm⟩

end Dict

namespace Store

variable {s : Store} {a b c : Value}

/-- Keys without floats are equal to themselves. -/
theorem Ordinary.selfEqualKeys {ref : Nat} (hv : s.Ordinary (.dict ref)) (hs : s.SoundDicts) :
    (s.dict ref).SelfEqualKeys := by
  intro e he
  refine Value.hash_beq_self (fun x id hkey => ?_) ((hs.dict ref).hash_key e he)
  have hadmits := (hv.held (.key he)).admits_self
  rw [hkey] at hadmits
  exact hadmits

/-- Dicts are equal just when every key has equal values in both or is in neither. -/
theorem Ordinary.equals_dict_iff {ref ref' : Nat} (ha : s.Ordinary (.dict ref))
    (hb : s.Ordinary (.dict ref')) (hs : s.SoundDicts) :
    s.equals (.dict ref) (.dict ref') = true ↔ ∀ h, Option.Rel (fun v w => s.equals v w = true)
      ((s.dict ref).find? h) ((s.dict ref').find? h) := by
  rw [ha.equals_dict_iff_matches]
  simp only [Value.dict.injEq, exists_eq_left']
  exact (hs.dict ref).lookups_iff (hs.dict ref') (ha.selfEqualKeys hs) (hb.selfEqualKeys hs) _

/-- What a dict has for a key is one of its values. -/
theorem holds_of_find? (hs : s.SoundDicts) {ref : Nat} {h : HashKey} {v : Value}
    (hfind : (s.dict ref).find? h = some v) : s.Holds (.dict ref) v := by
  obtain ⟨e, he, -, rfl⟩ := (hs.dict ref).find?_eq_some_iff.mp hfind
  exact .value he

theorem Ordinary.exists_of_equals_dict {ref : Nat} (ha : s.Ordinary (.dict ref))
    (h : s.equals (.dict ref) b = true) : ∃ ref', b = .dict ref' := by
  obtain ⟨ref', rfl, -⟩ := ha.equals_dict_iff_matches.mp h
  exact ⟨ref', rfl⟩

/-! ## The three laws -/

/-- Equality is reflexive, by induction on what a value holds. -/
theorem Ordinary.equals_refl (hs : s.SoundDicts) (ha : s.Ordinary a) : s.equals a a = true := by
  induction ha using Ordinary.induction with
  | step a ha ih =>
    -- two containers are equal if what they hold is, and these hold the same
    cases a with
    | float => exact ha.admits_self.elim
    | tuple items id =>
        refine equals_tuple_iff.mpr ⟨items, id, rfl, List.forall₂_same.mpr fun x hx => ?_⟩
        exact ih x (.item hx)
    | slice x y z id =>
        exact equals_slice_iff.mpr ⟨x, y, z, id, rfl, ih x .start, ih y .stop, ih z .step⟩
    | list ref => exact ha.equals_list_iff.mpr ⟨ref, rfl, .inl rfl⟩
    | dict ref =>
        refine (ha.equals_dict_iff ha hs).mpr fun h => ?_
        cases hfind : (s.dict ref).find? h with
        | none => exact .none
        | some v => exact .some (ih v (holds_of_find? hs hfind))
    | _ => exact (ha.equals_atom_iff ha rfl).mpr rfl

/-- Equality is symmetric. -/
theorem Ordinary.equals_symm (hs : s.SoundDicts) (ha : s.Ordinary a) :
    ∀ b, s.Ordinary b → s.equals a b = true → s.equals b a = true := by
  induction ha using Ordinary.induction with
  | step a ha ih =>
    intro b hb h
    -- a value without parts equals those of the same atom; the others follow from their parts
    cases a with
    | float => exact ha.admits_self.elim
    | tuple items id =>
        obtain ⟨items', id', rfl, hitems⟩ := equals_tuple_iff.mp h
        refine equals_tuple_iff.mpr ⟨items, id, rfl, ?_⟩
        exact forall₂_symm_mem hitems fun x hx y hy => ih x (.item hx) y (hb.held (.item hy))
    | slice x y z id =>
        obtain ⟨x', y', z', id', rfl, hx, hy, hz⟩ := equals_slice_iff.mp h
        refine equals_slice_iff.mpr ⟨x, y, z, id, rfl, ?_, ?_, ?_⟩
        · exact ih x .start x' (hb.held .start) hx
        · exact ih y .stop y' (hb.held .stop) hy
        · exact ih z .step z' (hb.held .step) hz
    | list ref =>
        obtain ⟨ref', rfl, hitems⟩ := ha.equals_list_iff.mp h
        refine hb.equals_list_iff.mpr ⟨ref, rfl, hitems.imp Eq.symm fun hitems => ?_⟩
        exact forall₂_symm_mem hitems fun x hx y hy => ih x (.element hx) y (hb.held (.element hy))
    | dict ref =>
        obtain ⟨ref', rfl⟩ := ha.exists_of_equals_dict h
        have hlookups := (ha.equals_dict_iff hb hs).mp h
        refine (hb.equals_dict_iff ha hs).mpr fun h => ?_
        exact optionRel_symm_mem (hlookups h) fun v hv w hw =>
          ih v (holds_of_find? hs hv) w (hb.held (holds_of_find? hs hw))
    | _ =>
        have hatom := (ha.equals_atom_iff hb rfl).mp h
        exact (hb.equals_atom_iff ha (hatom ▸ rfl)).mpr hatom.symm

/-- Equality is transitive. -/
theorem Ordinary.equals_trans (hs : s.SoundDicts) (ha : s.Ordinary a) :
    ∀ b c, s.Ordinary b → s.Ordinary c → s.equals a b = true → s.equals b c = true →
      s.equals a c = true := by
  -- the induction is on what the first value holds, and the other two may be anything
  induction ha using Ordinary.induction with
  | step a ha ih =>
    intro b c hb hc hab hbc
    cases a with
    | float => exact ha.admits_self.elim
    | tuple items id =>
        obtain ⟨items', id', rfl, hitems⟩ := equals_tuple_iff.mp hab
        obtain ⟨items'', id'', rfl, hitems'⟩ := equals_tuple_iff.mp hbc
        refine equals_tuple_iff.mpr ⟨items'', id'', rfl, ?_⟩
        exact forall₂_trans_mem hitems hitems' fun x hx y hy z hz =>
          ih x (.item hx) y z (hb.held (.item hy)) (hc.held (.item hz))
    | slice x y z id =>
        obtain ⟨x', y', z', id', rfl, hx, hy, hz⟩ := equals_slice_iff.mp hab
        obtain ⟨x'', y'', z'', id'', rfl, hx', hy', hz'⟩ := equals_slice_iff.mp hbc
        refine equals_slice_iff.mpr ⟨x'', y'', z'', id'', rfl, ?_, ?_, ?_⟩
        · exact ih x .start x' x'' (hb.held .start) (hc.held .start) hx hx'
        · exact ih y .stop y' y'' (hb.held .stop) (hc.held .stop) hy hy'
        · exact ih z .step z' z'' (hb.held .step) (hc.held .step) hz hz'
    | list ref =>
        obtain ⟨ref', rfl, hitems⟩ := ha.equals_list_iff.mp hab
        obtain ⟨ref'', rfl, hitems'⟩ := hb.equals_list_iff.mp hbc
        refine ha.equals_list_iff.mpr ⟨ref'', rfl, ?_⟩
        -- a list is equal to itself without a look at its items
        rcases hitems with rfl | hitems
        · exact hitems'
        rcases hitems' with rfl | hitems'
        · exact .inr hitems
        · exact .inr (forall₂_trans_mem hitems hitems' fun x hx y hy z hz =>
            ih x (.element hx) y z (hb.held (.element hy)) (hc.held (.element hz)))
    | dict ref =>
        obtain ⟨ref', rfl⟩ := ha.exists_of_equals_dict hab
        obtain ⟨ref'', rfl⟩ := hb.exists_of_equals_dict hbc
        have hlookups := (ha.equals_dict_iff hb hs).mp hab
        have hlookups' := (hb.equals_dict_iff hc hs).mp hbc
        refine (ha.equals_dict_iff hc hs).mpr fun h => ?_
        exact optionRel_trans_mem (hlookups h) (hlookups' h) fun v hv w hw x hx =>
          ih v (holds_of_find? hs hv) w x (hb.held (holds_of_find? hs hw))
            (hc.held (holds_of_find? hs hx))
    | _ =>
        have hatom := (ha.equals_atom_iff hb rfl).mp hab
        have hatom' := (hb.equals_atom_iff hc (hatom ▸ rfl)).mp hbc
        exact (ha.equals_atom_iff hc rfl).mpr (hatom.trans hatom')

/-- Dicts that have the same keys and values in any order are equal. -/
theorem Ordinary.equals_of_perm {ref ref' : Nat} (ha : s.Ordinary (.dict ref))
    (hb : s.Ordinary (.dict ref')) (hs : s.SoundDicts)
    (hperm : (s.dict ref).pairs.Perm (s.dict ref').pairs) :
    s.equals (.dict ref) (.dict ref') = true := by
  refine (ha.equals_dict_iff hb hs).mpr fun h => ?_
  rw [← (hs.dict ref).find?_eq_of_perm (hs.dict ref') hperm]
  cases hfind : (s.dict ref).find? h with
  | none => exact .none
  | some v => exact .some ((ha.held (holds_of_find? hs hfind)).equals_refl hs)

/-- Equality of the values without floats and cycles is an equivalence. Dicts are equal just when
every key has equal values in both or is in neither, and a dict can be replaced by one into which
the same keys and values have been inserted in another order. -/
theorem equals_equivalence (hs : s.SoundDicts) :
    Equivalence (fun a b : {v // s.Ordinary v} => s.equals a b = true) ∧
      (∀ ref ref', s.Ordinary (.dict ref) → s.Ordinary (.dict ref') →
        (s.equals (.dict ref) (.dict ref') = true ↔ ∀ h, Option.Rel (fun v w => s.equals v w = true)
          ((s.dict ref).find? h) ((s.dict ref').find? h))) ∧
      ∀ ref ref', s.Ordinary (.dict ref) → s.Ordinary (.dict ref') →
        (s.dict ref).pairs.Perm (s.dict ref').pairs → ∀ v, s.Ordinary v →
          s.equals (.dict ref) v = s.equals (.dict ref') v ∧
            s.equals v (.dict ref) = s.equals v (.dict ref') := by
  refine ⟨⟨?refl, ?symm, ?trans⟩, ?lookups, ?order⟩
  case refl => exact fun a => a.2.equals_refl hs
  case symm => exact fun {a b} => a.2.equals_symm hs b b.2
  case trans => exact fun {a b c} => a.2.equals_trans hs b c b.2 c.2
  case lookups => exact fun ref ref' ha hb => ha.equals_dict_iff hb hs
  case order =>
    intro ref ref' ha hb hperm v hv
    -- dicts with the same entries are equal, so they equal the same values
    have hab := ha.equals_of_perm hb hs hperm
    have hba := hb.equals_of_perm ha hs hperm.symm
    constructor
    · exact Bool.eq_iff_iff.mpr
        ⟨hb.equals_trans hs _ v ha hv hba, ha.equals_trans hs _ v hb hv hab⟩
    · exact Bool.eq_iff_iff.mpr
        ⟨fun h => hv.equals_trans hs _ _ ha hb h hab, fun h => hv.equals_trans hs _ _ hb ha h hba⟩

/-- Three dicts of a number and a list. The second has other numbers that are equal, in the other
order, and the third has what the first one has in the other order. -/
def reordered : Store where
  lists := #[[.int 2, .none], [.int 2, .none]]
  dicts := #[(Dict.set {} (.str "a") (.str "a" 0) (.int 1)).set (.str "b") (.str "b" 1) (.list 0),
    (Dict.set {} (.str "b") (.str "b" 2) (.list 1)).set (.str "a") (.str "a" 3) (.bool true),
    (Dict.set {} (.str "b") (.str "b" 1) (.list 0)).set (.str "a") (.str "a" 0) (.int 1)]

theorem soundDicts_reordered : reordered.SoundDicts := by
  intro d hd
  simp only [reordered, List.mem_cons, List.not_mem_nil, or_false] at hd
  rcases hd with rfl | rfl | rfl <;> exact (Dict.Sound.empty.set rfl).set rfl

/-- None of the dicts of this store holds another one. -/
theorem ordinary_reordered {ref : Nat} (href : ref < 3) : reordered.Ordinary (.dict ref) := by
  have hlist (ref : Nat) (href : ref < 2) : reordered.Ordinary (.list ref) := by
    refine .list href fun v hv => ?_
    interval_cases ref <;> rcases List.mem_pair.mp hv with rfl | rfl <;> exact .of_atom rfl trivial
  refine .dict href fun e he => ?_
  interval_cases ref <;> rcases List.mem_pair.mp he with rfl | rfl <;>
    first
      | exact ⟨.of_atom rfl trivial, .of_atom rfl trivial⟩
      | exact ⟨.of_atom rfl trivial, hlist _ (by decide)⟩

/-- The laws for dicts with the same entries in different orders. -/
theorem equals_equivalence_reordered :
    reordered.SoundDicts ∧ reordered.equals (.dict 0) (.dict 1) = true ∧
      reordered.equals (.dict 1) (.dict 0) = true ∧
        reordered.equals (.dict 2) (.dict 1) = true := by
  obtain ⟨hequivalence, -, horder⟩ := equals_equivalence soundDicts_reordered
  have hequal : reordered.equals (.dict 0) (.dict 1) = true := by decide
  refine ⟨soundDicts_reordered, hequal, ?_, ?_⟩
  · exact hequivalence.symm (x := ⟨.dict 0, ordinary_reordered (by decide)⟩)
      (y := ⟨.dict 1, ordinary_reordered (by decide)⟩) hequal
  · rw [← (horder 0 2 (ordinary_reordered (by decide)) (ordinary_reordered (by decide))
      (List.Perm.swap _ _ _) (.dict 1) (ordinary_reordered (by decide))).1]
    exact hequal

end Store

end Wordcode
