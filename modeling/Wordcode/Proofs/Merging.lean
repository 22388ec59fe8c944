import Wordcode.Proofs.Growth
import Wordcode.Store.Arithmetic
import Mathlib

namespace Wordcode

/-! # Merging dicts

A dict into which another one is merged keeps its keys in their order, with the values of the other
one where that has them, and is followed by the keys that only the other one has.

* `Entry.merged` says this of lists of entries. It is associative (`Entry.merged_assoc`), and a list
  without entries is its unit.
* `Dict.Sound.entries_setAll_eq` says that merging into a sound dict is this.
* `Op.union_orderedMonoid` is the result, about the operator on dicts.

Only where a dict is merged with itself the keys have to be equal to themselves.
-/

/-! ## Looking keys up -/

namespace Entry

variable {e : Entry} {es new as bs cs : List Entry} {h h' : HashKey}

theorem find?_cons (e : Entry) (es : List Entry) (h : HashKey) :
    find? (e :: es) h = if e.hash == h then some e.value else find? es h := by
  cases he : e.hash == h <;> simp [find?, he]

/-- Keys are looked up in the first part, and then in the second. -/
theorem find?_append (es es' : List Entry) (h : HashKey) :
    find? (es ++ es') h = (find? es h).or (find? es' h) := by
  rw [find?, List.find?_append, Option.map_or]
  rfl

theorem find?_congr (es : List Entry) (hh : (h == h') = true) : find? es h = find? es h' := by
  simp only [find?, BEq.congr_right hh]

theorem find?_eq_none_iff : find? es h = none ↔ ∀ e ∈ es, (e.hash == h) = false := by
  simp [find?]

/-! ## Merging lists of entries -/

/-- The entry with the value that its key has among others, if it is one of their keys. -/
def updated (new : List Entry) (e : Entry) : Entry :=
  { e with value := (find? new e.hash).getD e.value }

/-- Entries with the values of others where these have their keys, and then the others with new
keys. -/
def merged (es new : List Entry) : List Entry :=
  es.map (updated new) ++ new.filter fun e => (find? es e.hash).isNone

/-- Entries whose keys have no other values among the others stay as they are. -/
theorem map_updated (hsame : ∀ e ∈ es, (find? new e.hash).getD e.value = e.value) :
    es.map (updated new) = es := by
  refine (List.map_congr_left fun e he => ?_).trans (List.map_id es)
  rw [updated, hsame e he]
  rfl

/-- Updating replaces the values of keys that are there. -/
theorem find?_map_updated (es new : List Entry) (h : HashKey) :
    find? (es.map (updated new)) h = (find? es h).map fun v => (find? new h).getD v := by
  induction es with
  | nil => rfl
  | cons e es ih =>
      rw [List.map_cons, find?_cons, find?_cons, ih]
      by_cases he : (e.hash == h) = true
      · rw [if_pos he, if_pos (show ((updated new e).hash == h) = true from he), updated,
          find?_congr new he]
        rfl
      · rw [if_neg he, if_neg (show ¬ ((updated new e).hash == h) = true from he)]

/-- Dropping entries by a property of their keys. -/
theorem find?_filter (new : List Entry) {p : HashKey → Bool}
    (hp : ∀ k, (k == h) = true → p k = p h) :
    find? (new.filter fun e => p e.hash) h = if p h then find? new h else none := by
  induction new with
  | nil => simp [find?]
  | cons e new ih =>
      by_cases he : (e.hash == h) = true
      · cases hph : p h <;> simp [hp e.hash he, hph, ih, find?_cons, he]
      · rw [List.filter_cons, find?_cons, if_neg he]
        cases p e.hash <;> simp [ih, find?_cons, he]

/-- A key has the value that it has among the new entries, or else the one that it had. -/
theorem find?_merged (es new : List Entry) (h : HashKey) :
    find? (merged es new) h = (find? new h).or (find? es h) := by
  have hfilter := find?_filter (h := h) (p := fun k => (find? es k).isNone) new
    fun k hk => by rw [find?_congr es hk]
  rw [merged, find?_append, find?_map_updated, hfilter]
  cases find? es h <;> cases find? new h <;> rfl

/-- Updating twice is updating with both, merged. -/
theorem updated_updated (bs cs : List Entry) (e : Entry) :
    updated cs (updated bs e) = updated (merged bs cs) e := by
  have hvalue : (find? cs e.hash).getD ((find? bs e.hash).getD e.value) =
      (find? (merged bs cs) e.hash).getD e.value := by
    rw [find?_merged]
    cases find? cs e.hash <;> rfl
  exact congrArg (fun value => { e with value }) hvalue

/-- In whatever order lists are merged, the result is one. -/
theorem merged_assoc (as bs cs : List Entry) :
    merged (merged as bs) cs = merged as (merged bs cs) := by
  have hnew (e : Entry) : (find? (merged as bs) e.hash).isNone =
      ((find? as e.hash).isNone && (find? bs e.hash).isNone) := by
    rw [find?_merged]
    cases find? as e.hash <;> cases find? bs e.hash <;> rfl
  calc merged (merged as bs) cs
      = ((as.map (updated bs)).map (updated cs) ++
          (bs.filter fun e => (find? as e.hash).isNone).map (updated cs)) ++
          cs.filter fun e => (find? as e.hash).isNone && (find? bs e.hash).isNone := by
        simp only [merged.eq_def (merged as bs), hnew]
        rw [merged, List.map_append]
    _ = as.map (updated (merged bs cs)) ++
          ((bs.map (updated cs)).filter fun e => (find? as e.hash).isNone) ++
          (cs.filter fun e => (find? bs e.hash).isNone).filter
            fun e => (find? as e.hash).isNone := by
        rw [List.map_map, List.filter_map, List.filter_filter]
        congr 2
        -- entries of `as` take their values from `cs` rather than from `bs`
        exact List.map_congr_left fun e _ => updated_updated bs cs e
    _ = merged as (merged bs cs) := by
        rw [List.append_assoc, ← List.filter_append]
        rfl

theorem merged_nil (es : List Entry) : merged es [] = es := by
  rw [merged, map_updated fun e _ => rfl]
  exact List.append_nil es

theorem nil_merged (es : List Entry) : merged [] es = es :=
  List.filter_eq_self.mpr fun _ _ => rfl

/-- An entry with a key that others do not have comes before them. -/
theorem singleton_merged (hnew : ∀ e' ∈ es, (e.hash == e'.hash) = false) :
    merged [e] es = e :: es := by
  have hfirst : find? es e.hash = none :=
    find?_eq_none_iff.mpr fun e' he' => BEq.comm.trans (hnew e' he')
  have hrest : (es.filter fun e' => (find? [e] e'.hash).isNone) = es := by
    refine List.filter_eq_self.mpr fun e' he' => ?_
    rw [find?_cons, hnew e' he']
    rfl
  rw [merged, hrest, map_updated (by simp [hfirst])]
  rfl

/-- Merging entries with what they are themselves changes nothing. -/
theorem merged_self (hself : ∀ e ∈ es, find? es e.hash = some e.value) : merged es es = es := by
  have hfilter : (es.filter fun e => (find? es e.hash).isNone) = [] := by
    refine List.filter_eq_nil_iff.mpr fun e he => ?_
    rw [hself e he]
    exact Bool.false_ne_true
  rw [merged, map_updated fun e he => by rw [hself e he, Option.getD_some], hfilter,
    List.append_nil]

end Entry

/-! ## Merging into a dict -/

namespace Dict

variable {d : Dict} {h : HashKey} {key value : Value}

/-- Setting a key merges one entry. -/
theorem Sound.entries_set (hd : d.Sound) :
    (d.set h key value).entries = Entry.merged d.entries [{ hash := h, key, value }] := by
  rw [Dict.set]
  cases hfind : d.index.find? h with
  | some i =>
      obtain ⟨e, hi, he⟩ := (hd.locates h i).mp hfind
      have hthere : Entry.find? d.entries h = some e.value := by
        rw [← hd.find?_eq_find?_entries]
        simp [Dict.find?, hfind, hi]
      have hnone : ([{ hash := h, key, value }] : List Entry).filter
          (fun e => (Entry.find? d.entries e.hash).isNone) = [] := by
        simp [hthere]
      rw [Entry.merged, hnone, List.append_nil]
      -- only the entry at the position of the key has that key
      refine List.ext_getElem? fun j => ?_
      simp only [List.getElem?_map, List.getElem?_modify]
      cases hj : d.entries[j]? with
      | none => rfl
      | some e' =>
          have hposition := hd.beq_iff_position_eq hfind hj
          rw [BEq.comm] at hposition
          by_cases hij : i = j
          · simp [Entry.updated, Entry.find?_cons, hij, hposition.mpr hij]
          · have hother := mt hposition.mp hij
            simp [Entry.updated, Entry.find?, hij, hother]
  | none =>
      have hnew := hd.beq_eq_false_of_find? hfind
      have hsame (e : Entry) (he : e ∈ d.entries) :
          (Entry.find? [{ hash := h, key, value }] e.hash).getD e.value = e.value := by
        simp [Entry.find?, BEq.comm.trans (hnew e he)]
      have hfilter : ([{ hash := h, key, value }] : List Entry).filter
          (fun e => (Entry.find? d.entries e.hash).isNone) = [{ hash := h, key, value }] := by
        simp [Entry.find?_eq_none_iff.mpr hnew]
      rw [Entry.merged, Entry.map_updated hsame, hfilter]

/-- Setting distinct keys one after another merges their entries. -/
theorem Sound.entries_setAll_eq (hd : d.Sound) {new : List Entry}
    (hnew : ∀ e ∈ new, e.key.hash = .ok e.hash)
    (hdistinct : (new.map (·.hash)).Pairwise fun a b => (a == b) = false) :
    (d.setAll new).entries = Entry.merged d.entries new := by
  unfold Dict.setAll
  induction new generalizing d with
  | nil => exact (Entry.merged_nil d.entries).symm
  | cons e new ih =>
      -- one entry is set at a time, so merging is associated to the right
      rw [List.map_cons, List.pairwise_cons] at hdistinct
      obtain ⟨hfirst, hrest⟩ := hdistinct
      calc (new.foldl (fun d e => d.set e.hash e.key e.value)
            (d.set e.hash e.key e.value)).entries
          = Entry.merged (d.set e.hash e.key e.value).entries new :=
            ih (hd.set (hnew e List.mem_cons_self))
              (fun e' he' => hnew e' (List.mem_cons_of_mem e he')) hrest
        _ = Entry.merged (Entry.merged d.entries [e]) new := by rw [hd.entries_set]
        _ = Entry.merged d.entries (Entry.merged [e] new) := Entry.merged_assoc _ _ _
        _ = Entry.merged d.entries (e :: new) := by
            rw [Entry.singleton_merged fun e' he' => hfirst _ (List.mem_map_of_mem he')]

/-- The keys of a dict are equal to themselves if its floats are. -/
theorem Sound.selfEqualKeys (hd : d.Sound)
    (hfloats : ∀ e ∈ d.entries, ∀ x id, e.key = .float x id → (x == x) = true) :
    d.SelfEqualKeys := by
  intro e he
  have hkey := hd.hash_key e he
  by_cases hfloat : ∃ x id, e.key = .float x id
  · obtain ⟨x, id, hx⟩ := hfloat
    have hhash : Value.hashFloat x = e.hash := by simpa [hx, Value.hash] using hkey
    rw [← hhash, Value.hashFloat]
    split
    next => exact beq_self_eq_true (Int64.ofInt (Elementary.toInt x))
    next => exact hfloats e he x id hx
  · exact Value.hash_beq_self (fun x id hx => hfloat ⟨x, id, hx⟩) hkey

end Dict

/-! ## The operator -/

namespace Op

variable {s : Store} {a b c : Nat}

/-- The union of two dicts is a new dict of their merged entries, and nothing else changes. -/
theorem binary_bitOr_dict (hs : s.SoundDicts) (a b : Nat) : ∃ s',
    binary .bitOr (.dict a) (.dict b) s = .ok (.dict s.dicts.size) s' ∧ s.Keeps s' ∧
      s'.SoundDicts ∧ s.dicts.size < s'.dicts.size ∧
      s'.entries s.dicts.size = Entry.merged (s.entries a) (s.entries b) := by
  have hb := hs.dict b
  let d := (s.dict a).setAll (s.entries b)
  refine ⟨{ s with dicts := s.dicts.push d }, rfl, ⟨?lists, ?dicts⟩, ?sound, ?size, ?entries⟩
  case lists => exact fun _ _ => rfl
  case dicts =>
    exact fun ref href => (Array.getElem?_push_lt href).trans (Array.getElem?_eq_getElem href).symm
  case sound => exact hs.push ((hs.dict a).setAll hb.hash_key)
  case size => simp
  case entries =>
    have hnew : ({ s with dicts := s.dicts.push d } : Store).entries s.dicts.size = d.entries := by
      simp [Store.entries, Store.dict]
    rw [hnew]
    exact (hs.dict a).entries_setAll_eq hb.hash_key hb.distinct

/-- The union of two dicts has the given entries. -/
def UnionIs (s : Store) (a b : Nat) (entries : List Entry) : Prop :=
  ∃ ref s', binary .bitOr (.dict a) (.dict b) s = .ok (.dict ref) s' ∧ s'.entries ref = entries

/-- The union of two dicts is their entries, merged. -/
theorem unionIs_merged (hs : s.SoundDicts) (a b : Nat) :
    UnionIs s a b (Entry.merged (s.entries a) (s.entries b)) := by
  obtain ⟨s', hrun, -, -, -, hentries⟩ := binary_bitOr_dict hs a b
  exact ⟨s.dicts.size, s', hrun, hentries⟩

/-- Both ways to merge three dicts. -/
def unionBothWays (a b c : Value) : Op (Value × Value) := do
  let left ← binary .bitOr (← binary .bitOr a b) c
  let right ← binary .bitOr a (← binary .bitOr b c)
  return (left, right)

/-- Union has the values of the second dict, else those of the first one, and lists the keys of the
first dict and then the new ones of the second, in their orders; it leaves both as they are. A dict
without entries is its unit, every dict is its own union with itself if its keys are equal to
themselves, and it does not matter which two of three dicts are merged first. -/
theorem union_orderedMonoid (hs : s.SoundDicts) (ha : a < s.dicts.size) (hb : b < s.dicts.size)
    (hc : c < s.dicts.size)
    (hfloats : ∀ e ∈ s.entries a, ∀ x id, e.key = .float x id → (x == x) = true) :
    (∃ ab s', binary .bitOr (.dict a) (.dict b) s = .ok (.dict ab) s' ∧ s.Keeps s' ∧
      (∀ h, (s'.dict ab).find? h = ((s.dict b).find? h).or ((s.dict a).find? h)) ∧
      (s'.entries ab).map (·.key) = (s.entries a).map (·.key) ++
        ((s.entries b).filter fun e => ((s.dict a).find? e.hash).isNone).map (·.key)) ∧
    UnionIs s a a (s.entries a) ∧
    (∀ empty, s.entries empty = [] →
      UnionIs s a empty (s.entries a) ∧ UnionIs s empty a (s.entries a)) ∧
    ∃ left right s', unionBothWays (.dict a) (.dict b) (.dict c) s =
      .ok (.dict left, .dict right) s' ∧ s.Keeps s' ∧ s'.entries left = s'.entries right := by
  refine ⟨?merge, ?self, ?unit, ?assoc⟩
  case merge =>
    obtain ⟨s', hrun, hkeeps, hs', -, hentries⟩ := binary_bitOr_dict hs a b
    refine ⟨s.dicts.size, s', hrun, hkeeps, fun h => ?_, ?_⟩
    · rw [(hs'.dict _).find?_eq_find?_entries, (hs.dict a).find?_eq_find?_entries,
        (hs.dict b).find?_eq_find?_entries, ← Entry.find?_merged]
      exact congrArg (Entry.find? · h) hentries
    · simp only [(hs.dict a).find?_eq_find?_entries]
      rw [hentries, Entry.merged, List.map_append, List.map_map]
      rfl
  case self =>
    have hself := (hs.dict a).selfEqualKeys hfloats
    have hmerged : Entry.merged (s.entries a) (s.entries a) = s.entries a := by
      refine Entry.merged_self fun e he => ?_
      rw [← (hs.dict a).find?_hash hself he, (hs.dict a).find?_eq_find?_entries]
      rfl
    rw [← congrArg (UnionIs s a a) hmerged]
    exact unionIs_merged hs a a
  case unit =>
    intro empty hempty
    have hright := unionIs_merged hs a empty
    have hleft := unionIs_merged hs empty a
    rw [hempty, Entry.merged_nil] at hright
    rw [hempty, Entry.nil_merged] at hleft
    exact ⟨hright, hleft⟩
  case assoc =>
    obtain ⟨s₁, hab, hkeeps₁, hs₁, hsize₁, hentries₁⟩ := binary_bitOr_dict hs a b
    obtain ⟨s₂, habc, hkeeps₂, hs₂, hsize₂, hentries₂⟩ := binary_bitOr_dict hs₁ s.dicts.size c
    obtain ⟨s₃, hbc, hkeeps₃, hs₃, hsize₃, hentries₃⟩ := binary_bitOr_dict hs₂ b c
    obtain ⟨s₄, habc', hkeeps₄, -, -, hentries₄⟩ := binary_bitOr_dict hs₃ a s₂.dicts.size
    have hkeeps : s.Keeps s₂ := hkeeps₁.trans hkeeps₂
    refine ⟨s₁.dicts.size, s₃.dicts.size, s₄, ?_, hkeeps.trans (hkeeps₃.trans hkeeps₄), ?_⟩
    · unfold unionBothWays
      rw [bind_of_ok hab, bind_of_ok habc, bind_of_ok hbc, bind_of_ok habc']
      rfl
    · -- both dicts are unions of the entries at the start, which later unions leave alone
      calc s₄.entries s₁.dicts.size
          = s₂.entries s₁.dicts.size := (hkeeps₃.trans hkeeps₄).entries_eq hsize₂
        _ = Entry.merged (Entry.merged (s.entries a) (s.entries b)) (s.entries c) := by
            rw [hentries₂, hentries₁, hkeeps₁.entries_eq hc]
        _ = Entry.merged (s.entries a) (Entry.merged (s.entries b) (s.entries c)) :=
            Entry.merged_assoc _ _ _
        _ = s₄.entries s₃.dicts.size := by
            rw [hentries₄, hentries₃, hkeeps.entries_eq hb, hkeeps.entries_eq hc,
              (hkeeps.trans hkeeps₃).entries_eq ha]

/-- Three dicts, each of which has keys of the two others, and one without entries. The first two
have one key as an integer and as a truth value. -/
def overlapping : Store where
  dicts := #[(Dict.set {} (.int 1) (.int 1) (.int 10)).set (.str "x") (.str "x" 0) (.int 11),
    (Dict.set {} (.str "y") (.str "y" 1) (.int 20)).set (.int 1) (.bool true) (.int 21),
    (Dict.set {} (.str "y") (.str "y" 2) (.int 30)).set (.str "x") (.str "x" 3) (.int 31), {}]

/-- Two dicts with a key in common. -/
theorem union_orderedMonoid_overlapping :
    overlapping.SoundDicts ∧
    (∃ ab s', binary .bitOr (.dict 0) (.dict 1) overlapping = .ok (.dict ab) s' ∧
      overlapping.Keeps s' ∧ (s'.dict ab).find? (.int 1) = some (.int 21) ∧
      (s'.dict ab).find? (.str "x") = some (.int 11) ∧
      (s'.entries ab).map (·.key) = [.int 1, .str "x" 0, .str "y" 1]) ∧
    UnionIs overlapping 0 0 (overlapping.entries 0) ∧
    UnionIs overlapping 3 0 (overlapping.entries 0) ∧
    ∃ left right s', unionBothWays (.dict 0) (.dict 1) (.dict 2) overlapping =
      .ok (.dict left, .dict right) s' ∧ s'.entries left = s'.entries right := by
  have hsound : overlapping.SoundDicts := by
    intro d hd
    simp only [overlapping, List.mem_cons, List.not_mem_nil, or_false] at hd
    rcases hd with rfl | rfl | rfl | rfl
    · exact (Dict.Sound.empty.set rfl).set rfl
    · exact (Dict.Sound.empty.set rfl).set rfl
    · exact (Dict.Sound.empty.set rfl).set rfl
    · exact .empty
  have hfloats : ∀ e ∈ overlapping.entries 0, ∀ x id, e.key = .float x id → (x == x) = true := by
    intro e he x id hx
    rcases List.mem_pair.mp he with rfl | rfl <;> cases hx
  obtain ⟨⟨ab, s', hrun, hkeeps, hfind, hkeys⟩, hself, hunit, left, right, s₂, hboth, -, heq⟩ :=
    union_orderedMonoid (a := 0) (b := 1) (c := 2) hsound (by decide) (by decide) (by decide)
      hfloats
  exact ⟨hsound, ⟨ab, s', hrun, hkeeps, hfind (.int 1), hfind (.str "x"), hkeys⟩, hself,
    (hunit 3 rfl).2, left, right, s₂, hboth, heq⟩

end Op

end Wordcode
