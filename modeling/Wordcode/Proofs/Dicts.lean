import Wordcode.Dict
import Mathlib

namespace Wordcode

/-! # Dicts as lists of pairs

The index of a dict agrees with its entries after every operation. So a dict is as good as a list of
keys and values in the order of insertion, in which keys are searched from the front.

* `Dict.Sound` is the agreement: keys are distinct, and the index has the position of each.
* `Dict.Sound.set`, `Dict.Sound.remove?` and `Dict.Sound.setAll`: operations preserve it.
* `Pairs` is the list of keys and values with its own operations; `Dict.find?_eq`, `Dict.pairs_set`,
  `Dict.remove?_eq` and `Dict.pairs_setAll` say that the operations on a dict are these.

Keys are compared like the keys of the index, by `==`. Floats that are not numbers differ from
themselves, so every entry under such a key is new and no operation finds it.
-/

/-! ## Comparing keys -/

open Float.Model in
/-- Unpacked doubles compare as equal if they are one number. Both zeros are. -/
theorem compare_eq_some_eq {x y : UnpackedFloat} :
    x.compare y = some .eq ↔
      (x = y ∧ x ≠ .notANumber) ∨ ∃ s t, x = .zero s ∧ y = .zero t := by
  -- one case for each pair of kinds; zeros are equal whatever their signs
  cases x with
  | notANumber => cases y <;> simp [UnpackedFloat.compare]
  | infinity s =>
      cases y with
      | infinity t => cases s <;> cases t <;> simp [UnpackedFloat.compare] <;> decide
      | _ => cases s <;> simp [UnpackedFloat.compare]
  | zero s =>
      cases y with
      | infinity t | finite t => cases t <;> simp [UnpackedFloat.compare]
      | zero t => simp [UnpackedFloat.compare]
      | notANumber => simp [UnpackedFloat.compare]
  | finite s m e hm =>
      cases y with
      | finite t m' e' hm' =>
          cases s <;> cases t <;>
            simp [UnpackedFloat.compare, Ordering.swap_eq_eq, Ordering.then_eq_eq, and_comm]
      | infinity t => cases s <;> cases t <;> simp [UnpackedFloat.compare]
      | zero t => cases s <;> simp [UnpackedFloat.compare]
      | notANumber => cases s <;> simp [UnpackedFloat.compare]

/-- Comparison of doubles is symmetric and transitive, but not reflexive. -/
theorem float_beq_iff {x y : Float} :
    (x == y) = true ↔ (x.toModel.unpack = y.toModel.unpack ∧ x.toModel.unpack ≠ .notANumber) ∨
      ∃ s t, x.toModel.unpack = .zero s ∧ y.toModel.unpack = .zero t := by
  rw [← compare_eq_some_eq]
  exact beq_iff_eq (a := x.toModel.unpack.compare y.toModel.unpack) (b := some .eq)

instance floatPartialEquivBEq : PartialEquivBEq Float where
  symm {x y} h := by
    rw [float_beq_iff] at h ⊢
    grind
  trans {x y z} h h' := by
    rw [float_beq_iff] at h h' ⊢
    grind

instance HashKey.partialEquivBEq : PartialEquivBEq HashKey where
  symm {a b} h :=
    match a, b, h with
    | .none, .none, _ => rfl
    | .int m, .int n, h => BEq.symm (a := m) (b := n) h
    | .float x, .float y, h => BEq.symm (a := x) (b := y) h
    | .str s, .str t, h => BEq.symm (a := s) (b := t) h
    | .tuple s, .tuple t, h => BEq.symm (a := s) (b := t) h
  trans {a b c} h h' :=
    match a, b, c, h, h' with
    | .none, .none, .none, _, _ => rfl
    | .int m, .int n, .int k, h, h' => BEq.trans (a := m) (b := n) (c := k) h h'
    | .float x, .float y, .float z, h, h' => BEq.trans (a := x) (b := y) (c := z) h h'
    | .str s, .str t, .str u, h, h' => BEq.trans (a := s) (b := t) (c := u) h h'
    | .tuple s, .tuple t, .tuple u, h, h' => BEq.trans (a := s) (b := t) (c := u) h h'

/-! ## Positions -/

/-- Keys are not equal if one of them is equal to a key that differs from the other. -/
theorem HashKey.beq_eq_false_of_beq {a b c : HashKey} (hb : (a == b) = false)
    (hc : (a == c) = true) : (b == c) = false := by
  by_contra hbc
  have : (a == b) = true := BEq.trans hc (BEq.symm (by simpa using hbc))
  simp [hb] at this

namespace Positions

/-- Positions that are those of the keys of a list, under every equal key. -/
def Locates (ps : Positions) (keys : List HashKey) : Prop :=
  ∀ h i, ps.find? h = some i ↔ ∃ k, keys[i]? = some k ∧ (k == h) = true

theorem find?_cons (p : HashKey × Nat) (ps : Positions) (h : HashKey) :
    find? (p :: ps) h = if p.1 == h then some p.2 else ps.find? h := by
  cases hp : p.1 == h <;> simp [find?, hp]

theorem find?_set (ps : Positions) (h : HashKey) (i : Nat) (h' : HashKey) :
    (ps.set h i).find? h' = if h == h' then some i else ps.find? h' := by
  induction ps with
  | nil => simp [set, find?]
  | cons p ps ih =>
      by_cases hp : (p.1 == h) = true
      · simp only [set, hp, if_true, find?_cons, BEq.congr_left hp]
        split <;> rfl
      · grind [set, find?_cons, HashKey.beq_eq_false_of_beq]

theorem find?_erase (ps : Positions) (h h' : HashKey) :
    (ps.erase h).find? h' = if h == h' then none else ps.find? h' := by
  induction ps with
  | nil => simp [erase, find?]
  | cons p ps ih =>
      by_cases hp : (p.1 == h) = true
      · have hcons : erase (p :: ps) h = erase ps h := by simp [erase, hp]
        rw [hcons, ih, find?_cons, BEq.congr_left hp]
        split <;> rfl
      · have hcons : erase (p :: ps) h = p :: erase ps h := by simp [erase, hp]
        grind [find?_cons, HashKey.beq_eq_false_of_beq]

/-- Of distinct keys that get positions from `i` on, each gets its own; other keys keep theirs. -/
theorem find?_setFrom {es : List Entry}
    (hdistinct : (es.map (·.hash)).Pairwise fun a b => (a == b) = false)
    (ps : Positions) (i : Nat) (h : HashKey) (k : Nat) :
    (ps.setFrom i es).find? h = some k ↔
      (∃ j e, es[j]? = some e ∧ (e.hash == h) = true ∧ k = i + j) ∨
        (∀ e ∈ es, (e.hash == h) = false) ∧ ps.find? h = some k := by
  induction es generalizing ps i with
  | nil => simp [setFrom]
  | cons e es ih =>
      rw [List.map_cons, List.pairwise_cons] at hdistinct
      obtain ⟨hfirst, hrest⟩ := hdistinct
      rw [setFrom, ih hrest, find?_set]
      -- if the first entry has the key, none of the others does
      by_cases he : (e.hash == h) = true
      · have hothers : ∀ e' ∈ es, (e'.hash == h) = false := fun e' he' =>
          HashKey.beq_eq_false_of_beq (hfirst _ (List.mem_map_of_mem he')) he
        constructor
        · rintro (⟨j, e', hj, he', rfl⟩ | ⟨-, hfind⟩)
          · exact Or.inl ⟨j + 1, e', by simpa using hj, he', by omega⟩
          · exact Or.inl ⟨0, e, by simp, he, by grind⟩
        · rintro (⟨j, e', hj, he', rfl⟩ | ⟨hnone, -⟩)
          · cases j with
            | zero => exact Or.inr ⟨hothers, by simp [he]⟩
            | succ j => exact Or.inl ⟨j, e', by simpa using hj, he', by omega⟩
          · simp [hnone e List.mem_cons_self] at he
      · constructor
        · rintro (⟨j, e', hj, he', rfl⟩ | ⟨hnone, hfind⟩)
          · exact Or.inl ⟨j + 1, e', by simpa using hj, he', by omega⟩
          · exact Or.inr ⟨by simpa [he] using hnone, by simpa [he] using hfind⟩
        · rintro (⟨j, e', hj, he', rfl⟩ | ⟨hnone, hfind⟩)
          · cases j with
            | zero =>
                obtain rfl : e = e' := by simpa using hj
                exact absurd he' he
            | succ j => exact Or.inl ⟨j, e', by simpa using hj, he', by omega⟩
          · exact Or.inr ⟨fun e' he' => hnone e' (List.mem_cons_of_mem e he'),
              by simpa [he] using hfind⟩

end Positions

/-! ## Soundness -/

namespace Dict

/-- The keys under which the entries are filed. -/
def hashes (d : Dict) : List HashKey := d.entries.map (·.hash)

/-- A dict whose entries are filed under the keys of their keys, which are distinct, and whose index
has the position of each. -/
structure Sound (d : Dict) : Prop where
  hash_key : ∀ e ∈ d.entries, e.key.hash = .ok e.hash
  distinct : d.hashes.Pairwise fun a b => (a == b) = false
  locates : ∀ h i, d.index.find? h = some i ↔ ∃ e, d.entries[i]? = some e ∧ (e.hash == h) = true

theorem Sound.empty : Sound {} where
  hash_key := by simp
  distinct := .nil
  locates := by simp [Positions.find?]

variable {d : Dict} {h : HashKey} {key value : Value}

/-- A key that the index does not have is not in the dict. -/
theorem Sound.beq_eq_false_of_find? (hd : d.Sound) (hfind : d.index.find? h = none) :
    ∀ e ∈ d.entries, (e.hash == h) = false := by
  intro e he
  obtain ⟨i, hi⟩ := List.mem_iff_getElem?.mp he
  by_contra hbeq
  have hsome := (hd.locates h i).mpr ⟨e, hi, by simpa using hbeq⟩
  simp [hfind] at hsome

/-- A key stands at one position. -/
theorem Sound.position_eq (hd : d.Sound) {i j : Nat} {e e' : Entry} (hi : d.entries[i]? = some e)
    (hj : d.entries[j]? = some e') (he : (e.hash == h) = true) (he' : (e'.hash == h) = true) :
    i = j := by
  have hfind := (hd.locates h i).mpr ⟨e, hi, he⟩
  have hfind' := (hd.locates h j).mpr ⟨e', hj, he'⟩
  exact Option.some.inj (hfind.symm.trans hfind')

/-- The values of entries do not matter. -/
theorem Sound.of_keys (hd : d.Sound) {es : List Entry}
    (hkeys : es.map (fun e => (e.hash, e.key)) = d.entries.map fun e => (e.hash, e.key)) :
    Sound { d with entries := es } := by
  -- entries at one position have one key in both lists
  have hget (i : Nat) (e : Entry) (he : es[i]? = some e) :
      ∃ e', d.entries[i]? = some e' ∧ e'.hash = e.hash ∧ e'.key = e.key := by
    have := congrArg (·[i]?) hkeys
    simp only [List.getElem?_map, he] at this
    grind
  have hget' (i : Nat) (e : Entry) (he : d.entries[i]? = some e) :
      ∃ e', es[i]? = some e' ∧ e'.hash = e.hash := by
    have := congrArg (·[i]?) hkeys
    simp only [List.getElem?_map, he] at this
    grind
  have hhashes : es.map (·.hash) = d.hashes := by
    have := congrArg (List.map Prod.fst) hkeys
    simpa [hashes, Function.comp_def] using this
  constructor
  case hash_key =>
    intro e he
    obtain ⟨i, hi⟩ := List.mem_iff_getElem?.mp he
    obtain ⟨e', hi', hhash, hkey⟩ := hget i e hi
    rw [← hhash, ← hkey]
    exact hd.hash_key e' (List.mem_of_getElem? hi')
  case distinct =>
    rw [hashes, hhashes]
    exact hd.distinct
  case locates =>
    intro h i
    rw [hd.locates]
    constructor
    · rintro ⟨e, hi, he⟩
      obtain ⟨e', hi', hhash⟩ := hget' i e hi
      exact ⟨e', hi', by rwa [hhash]⟩
    · rintro ⟨e, hi, he⟩
      obtain ⟨e', hi', hhash, -⟩ := hget i e hi
      exact ⟨e', hi', by rwa [hhash]⟩

/-- A new key gets a new position at the end. -/
theorem Sound.append (hd : d.Sound) (hkey : key.hash = .ok h) (hfind : d.index.find? h = none) :
    Sound { entries := d.entries ++ [{ hash := h, key, value }]
            index := d.index.set h d.size } := by
  have hnew := hd.beq_eq_false_of_find? hfind
  constructor
  case hash_key =>
    intro e he
    rcases List.mem_append.mp he with he | he
    · exact hd.hash_key e he
    · obtain rfl := List.mem_singleton.mp he
      exact hkey
  case distinct =>
    have hdistinct := hd.distinct
    simp only [hashes, List.map_append, List.pairwise_append, List.map_cons, List.map_nil,
      List.mem_map, List.mem_singleton, List.pairwise_singleton] at hdistinct ⊢
    refine ⟨hdistinct, trivial, ?_⟩
    rintro _ ⟨e, he, rfl⟩ _ rfl
    exact hnew e he
  case locates =>
    intro h' i
    rw [Positions.find?_set, List.getElem?_append]
    -- the new key is at the end and nowhere else
    by_cases hh : (h == h') = true
    · have hothers : ∀ e ∈ d.entries, (e.hash == h') = false := by
        intro e he
        rw [← BEq.congr_right hh]
        exact hnew e he
      rw [if_pos hh]
      constructor
      · rintro ⟨rfl⟩
        exact ⟨{ hash := h, key, value }, by simp [size], hh⟩
      · rintro ⟨e, hi, he⟩
        split at hi
        next => simp [hothers e (List.mem_of_getElem? hi)] at he
        next hge =>
          obtain ⟨hlt, -⟩ := List.getElem?_eq_some_iff.mp hi
          rw [List.length_singleton] at hlt
          rw [size]
          congr 1
          omega
    · rw [if_neg hh, hd.locates]
      refine exists_congr fun e => and_congr_left fun he => ?_
      split
      next => rfl
      next hge =>
        have hne : e ≠ { hash := h, key, value } := by
          rintro rfl
          exact hh he
        have hnone : d.entries[i]? = none := List.getElem?_eq_none (by omega)
        simp [hnone, List.getElem?_singleton, hne.symm]

/-- Setting a key keeps the index in step. -/
theorem Sound.set (hd : d.Sound) (hkey : key.hash = .ok h) : (d.set h key value).Sound := by
  unfold Dict.set
  split
  next i hfind =>
    refine hd.of_keys (List.ext_getElem? fun j => ?_)
    rw [List.getElem?_map, List.getElem?_map, List.getElem?_modify]
    cases d.entries[j]? <;> split <;> rfl
  next hfind => exact hd.append hkey hfind

/-- Removing a key moves the later entries, and their positions with them. -/
theorem Sound.erase (hd : d.Sound) {i : Nat} (hfind : d.index.find? h = some i) :
    Sound { entries := d.entries.eraseIdx i
            index := (d.index.erase h).setFrom i ((d.entries.eraseIdx i).drop i) } := by
  have hdistinct : ((d.entries.eraseIdx i).map (·.hash)).Pairwise fun a b => (a == b) = false :=
    hd.distinct.sublist ((List.eraseIdx_sublist d.entries i).map _)
  constructor
  case hash_key => exact fun e he => hd.hash_key e (List.mem_of_mem_eraseIdx he)
  case distinct => exact hdistinct
  case locates =>
    intro h' k
    obtain ⟨e, hi, he⟩ := (hd.locates h i).mp hfind
    have hdrop := hdistinct.sublist (((d.entries.eraseIdx i).drop_sublist i).map _)
    rw [Positions.find?_setFrom hdrop, Positions.find?_erase]
    simp only [List.getElem?_drop]
    constructor
    · rintro (⟨j, e', hj, he', rfl⟩ | ⟨hnone, hfind'⟩)
      · exact ⟨e', hj, he'⟩
      · by_cases hh : (h == h') = true
        · simp [hh] at hfind'
        · rw [if_neg hh] at hfind'
          obtain ⟨e', hk, he'⟩ := (hd.locates h' k).mp hfind'
          refine ⟨e', ?_, he'⟩
          rw [List.getElem?_eraseIdx]
          rcases lt_trichotomy k i with hlt | rfl | hgt
          · rwa [if_pos hlt]
          · obtain rfl : e = e' := Option.some.inj (hi.symm.trans hk)
            exact absurd (BEq.trans (BEq.symm he) he') hh
          · -- a later entry has moved, so it is among those that get new positions
            have hmem : e' ∈ (d.entries.eraseIdx i).drop i := by
              refine List.mem_of_getElem? (i := k - 1 - i) ?_
              rw [List.getElem?_drop, List.getElem?_eraseIdx, if_neg (by omega)]
              rwa [show i + (k - 1 - i) + 1 = k by omega]
            simp [hnone e' hmem] at he'
    · rintro ⟨e', hk, he'⟩
      by_cases hik : i ≤ k
      · exact Or.inl ⟨k - i, e', by rwa [Nat.add_sub_cancel' hik], he', by omega⟩
      · rw [List.getElem?_eraseIdx, if_pos (by omega)] at hk
        have hh : ¬ (h == h') = true := fun hh =>
          hik (hd.position_eq hi hk (BEq.trans he hh) he').le
        refine Or.inr ⟨fun e'' he'' => ?_, ?_⟩
        · obtain ⟨j, hj⟩ := List.mem_iff_getElem?.mp he''
          rw [List.getElem?_drop, List.getElem?_eraseIdx, if_neg (by omega)] at hj
          by_contra hbeq
          have := hd.position_eq hk hj he' (by simpa using hbeq)
          omega
        · rw [if_neg hh]
          exact (hd.locates h' k).mpr ⟨e', hk, he'⟩

/-- Removing a key keeps the index in step. -/
theorem Sound.remove? (hd : d.Sound) {v : Value} {d' : Dict} (h' : d.remove? h = some (v, d')) :
    d'.Sound := by
  cases hfind : d.index.find? h with
  | none => simp [Dict.remove?, hfind] at h'
  | some i =>
      obtain ⟨e, hi, -⟩ := (hd.locates h i).mp hfind
      obtain ⟨-, rfl⟩ : e.value = v ∧ _ = d' := by simpa [Dict.remove?, hfind, hi] using h'
      exact hd.erase hfind

/-- Setting keys one after another keeps the index in step. -/
theorem Sound.setAll (hd : d.Sound) {new : List Entry}
    (hnew : ∀ e ∈ new, e.key.hash = .ok e.hash) : (d.setAll new).Sound := by
  unfold Dict.setAll
  induction new generalizing d with
  | nil => exact hd
  | cons e new ih =>
      exact ih (hd.set (hnew e List.mem_cons_self))
        fun e' he' => hnew e' (List.mem_cons_of_mem e he')

/-- Keys that are new and distinct are appended. -/
theorem Sound.entries_setAll (hd : d.Sound) {new : List Entry}
    (hnew : ∀ e ∈ new, e.key.hash = .ok e.hash)
    (hdistinct : (d.hashes ++ new.map (·.hash)).Pairwise fun a b => (a == b) = false) :
    (d.setAll new).entries = d.entries ++ new := by
  unfold Dict.setAll
  induction new generalizing d with
  | nil => simp
  | cons e new ih =>
      -- a new key has no position, so its entry is appended
      have hfind : d.index.find? e.hash = none := by
        rw [Option.eq_none_iff_forall_ne_some]
        intro i hi
        obtain ⟨e', hget, he'⟩ := (hd.locates _ _).mp hi
        have := (List.pairwise_append.mp hdistinct).2.2 e'.hash
          (List.mem_map_of_mem (List.mem_of_getElem? hget)) e.hash (by simp)
        simp [this] at he'
      have hset : (d.set e.hash e.key e.value).entries = d.entries ++ [e] := by
        simp [Dict.set, hfind]
      rw [List.foldl_cons, ih (hd.set (hnew e List.mem_cons_self))
        (fun e' he' => hnew e' (List.mem_cons_of_mem e he')) ?_, hset]
      · simp
      · rw [hashes, hset]
        simpa [hashes] using hdistinct

end Dict

/-! ## Pairs -/

/-- Whether dicts file two values under one key. -/
def Value.sameKey (a b : Value) : Bool :=
  match a.hash, b.hash with
  | .ok h, .ok h' => h == h'
  | _, _ => false

/-- Keys and values in the order of insertion. -/
abbrev Pairs := List (Value × Value)

namespace Pairs

/-- The value of a key. -/
def find? (ps : Pairs) (key : Value) : Option Value :=
  (List.find? (fun p : Value × Value => p.1.sameKey key) ps).map (·.2)

/-- Replaces the value of a key that is there, keeping the earlier key, or else appends the key. -/
def set (ps : Pairs) (key value : Value) : Pairs :=
  if ps.any fun p => p.1.sameKey key then
    ps.map fun p => if p.1.sameKey key then (p.1, value) else p
  else ps ++ [(key, value)]

/-- Drops a key. -/
def remove (ps : Pairs) (key : Value) : Pairs := ps.filter fun p => !p.1.sameKey key

/-- Sets keys one after another. -/
def setAll (ps new : Pairs) : Pairs := new.foldl (fun ps p => ps.set p.1 p.2) ps

end Pairs

/-- The key and the value of an entry. -/
def Entry.pair (e : Entry) : Value × Value := (e.key, e.value)

namespace Dict

/-- The keys and values of a dict. -/
def pairs (d : Dict) : Pairs := d.entries.map Entry.pair

variable {d : Dict} {h : HashKey} {key value : Value}

theorem Sound.sameKey_eq (hd : d.Sound) (hkey : key.hash = .ok h) {e : Entry} (he : e ∈ d.entries) :
    e.key.sameKey key = (e.hash == h) := by
  simp [Value.sameKey, hd.hash_key e he, hkey]

/-- The entry of a key is the only one that the key matches. -/
theorem Sound.find?_entries (hd : d.Sound) {i : Nat} (hfind : d.index.find? h = some i) :
    d.entries.find? (fun e => e.hash == h) = d.entries[i]? := by
  obtain ⟨e, hi, he⟩ := (hd.locates h i).mp hfind
  rw [hi, List.find?_eq_some_iff_getElem]
  obtain ⟨hlt, hget⟩ := List.getElem?_eq_some_iff.mp hi
  refine ⟨he, i, hlt, hget, fun j hj => ?_⟩
  by_contra hbeq
  have := hd.position_eq hi (List.getElem?_eq_getElem (i := j) (by omega)) he (by simpa using hbeq)
  omega

/-- Looking a key up through the index finds what a search of the entries finds. -/
theorem Sound.find?_eq_find?_entries (hd : d.Sound) (h : HashKey) :
    d.find? h = Entry.find? d.entries h := by
  unfold Dict.find? Entry.find?
  cases hfind : d.index.find? h with
  | some i => simp only [hd.find?_entries hfind]
  | none =>
      have : d.entries.find? (fun e => e.hash == h) = none :=
        List.find?_eq_none.mpr fun e he => by simp [hd.beq_eq_false_of_find? hfind e he]
      simp only [this, Option.map_none]

/-- Looking a key up. -/
theorem Sound.find?_eq (hd : d.Sound) (hkey : key.hash = .ok h) :
    d.find? h = d.pairs.find? key := by
  rw [hd.find?_eq_find?_entries, Entry.find?, Pairs.find?, pairs, List.find?_map, Option.map_map,
    List.find?_congr]
  · rfl
  · intro e he
    exact (hd.sameKey_eq hkey he).symm

/-- The index has the one position whose key matches. -/
theorem Sound.beq_iff_position_eq (hd : d.Sound) {i j : Nat} {e : Entry}
    (hfind : d.index.find? h = some i) (hj : d.entries[j]? = some e) :
    (e.hash == h) = true ↔ i = j := by
  obtain ⟨e', hi, he'⟩ := (hd.locates h i).mp hfind
  constructor
  · exact fun he => hd.position_eq hi hj he' he
  · rintro rfl
    obtain rfl : e' = e := Option.some.inj (hi.symm.trans hj)
    exact he'

/-- Setting a key. -/
theorem Sound.pairs_set (hd : d.Sound) (hkey : key.hash = .ok h) :
    (d.set h key value).pairs = d.pairs.set key value := by
  rw [Dict.set, Pairs.set]
  -- the index finds the entry whose key is the same, or there is none
  cases hfind : d.index.find? h with
  | some i =>
      obtain ⟨e, hi, he⟩ := (hd.locates h i).mp hfind
      have hany : (d.pairs.any fun p => p.1.sameKey key) = true := by
        refine List.any_eq_true.mpr ⟨e.pair, List.mem_map_of_mem (List.mem_of_getElem? hi), ?_⟩
        exact (hd.sameKey_eq hkey (List.mem_of_getElem? hi)).trans he
      rw [if_pos hany]
      refine List.ext_getElem? fun j => ?_
      simp only [pairs, List.getElem?_map, List.getElem?_modify]
      cases hj : d.entries[j]? with
      | none => rfl
      | some e' =>
          have hmatch := hd.beq_iff_position_eq hfind hj
          rw [← hd.sameKey_eq hkey (List.mem_of_getElem? hj)] at hmatch
          by_cases hij : i = j
          · simp [hij, Entry.pair, hmatch.mpr hij]
          · simp [hij, Entry.pair, mt hmatch.mp hij]
  | none =>
      have hnone : ¬ (d.pairs.any fun p => p.1.sameKey key) = true := by
        simp only [pairs, List.any_map, List.any_eq_true, not_exists, not_and]
        intro e he
        simp [Entry.pair, hd.sameKey_eq hkey he, hd.beq_eq_false_of_find? hfind e he]
      rw [if_neg hnone]
      simp [pairs, Entry.pair]

/-- The entry that is removed is the only one whose key matches. -/
theorem Sound.eraseIdx_eq_filter (hd : d.Sound) {i : Nat} (hfind : d.index.find? h = some i) :
    d.entries.eraseIdx i = d.entries.filter fun e => !(e.hash == h) := by
  obtain ⟨e, hi, he⟩ := (hd.locates h i).mp hfind
  obtain ⟨hlt, hget⟩ := List.getElem?_eq_some_iff.mp hi
  have hsplit : d.entries = d.entries.take i ++ e :: d.entries.drop (i + 1) := by
    rw [← hget, ← List.drop_eq_getElem_cons hlt, List.take_append_drop]
  -- no other entry has the key
  have hother (j : Nat) (e' : Entry) (hj : d.entries[j]? = some e') (hne : i ≠ j) :
      (!(e'.hash == h)) = true := by
    simpa using mt (hd.beq_iff_position_eq hfind hj).mp hne
  have hbefore : (d.entries.take i).filter (fun e => !(e.hash == h)) = d.entries.take i := by
    refine List.filter_eq_self.mpr fun e' he' => ?_
    obtain ⟨j, hj⟩ := List.mem_iff_getElem?.mp he'
    rw [List.getElem?_take] at hj
    split at hj
    next hji => exact hother j e' hj (by omega)
    next => cases hj
  have hafter : (d.entries.drop (i + 1)).filter (fun e => !(e.hash == h)) =
      d.entries.drop (i + 1) := by
    refine List.filter_eq_self.mpr fun e' he' => ?_
    obtain ⟨j, hj⟩ := List.mem_iff_getElem?.mp he'
    rw [List.getElem?_drop] at hj
    exact hother _ e' hj (by omega)
  rw [List.eraseIdx_eq_take_drop_succ]
  conv_rhs => rw [hsplit]
  rw [List.filter_append, hbefore, List.filter_cons, he, hafter]
  rfl

/-- Removing a key. -/
theorem Sound.remove?_eq (hd : d.Sound) (hkey : key.hash = .ok h) :
    (d.remove? h).map (fun r => (r.1, r.2.pairs)) =
      (d.pairs.find? key).map fun v => (v, d.pairs.remove key) := by
  rw [← hd.find?_eq hkey]
  cases hfind : d.index.find? h with
  | none => simp [Dict.remove?, Dict.find?, hfind]
  | some i =>
      obtain ⟨e, hi, -⟩ := (hd.locates h i).mp hfind
      -- the entry at the indexed position is the only one with an equal key
      have hrest : (d.entries.eraseIdx i).map Entry.pair = d.pairs.remove key := by
        rw [hd.eraseIdx_eq_filter hfind, Pairs.remove, pairs, List.filter_map]
        congr 1
        refine List.filter_congr fun e he => ?_
        exact congrArg _ (hd.sameKey_eq hkey he).symm
      have hremoved : d.remove? h = some (e.value, Dict.mk (d.entries.eraseIdx i)
          ((d.index.erase h).setFrom i ((d.entries.eraseIdx i).drop i))) := by
        simp [Dict.remove?, hfind, hi]
      have hfound : d.find? h = some e.value := by simp [Dict.find?, hfind, hi]
      rw [hremoved, hfound, Option.map_some, Option.map_some, ← hrest]
      rfl

/-- Setting keys one after another. -/
theorem Sound.pairs_setAll (hd : d.Sound) {new : List Entry}
    (hnew : ∀ e ∈ new, e.key.hash = .ok e.hash) :
    (d.setAll new).pairs = d.pairs.setAll (new.map Entry.pair) := by
  unfold Dict.setAll Pairs.setAll
  induction new generalizing d with
  | nil => rfl
  | cons e new ih =>
      have hkey := hnew e List.mem_cons_self
      rw [List.foldl_cons, List.map_cons, List.foldl_cons]
      rw [ih (hd.set hkey) fun e' he' => hnew e' (List.mem_cons_of_mem e he'), hd.pairs_set hkey]
      rfl

end Dict

end Wordcode
