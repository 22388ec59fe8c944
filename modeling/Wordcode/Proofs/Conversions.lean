import Wordcode.Proofs.Association
import Wordcode.Proofs.Distribution
import Wordcode.Proofs.Growth
import Wordcode.Proofs.Sequence
import Wordcode.Store.Convert
import Mathlib

namespace Wordcode

/-! # Values as host data and back

The embedding program gets a value as a datum, and can give the datum back. The keys of a dict are
the names of a record on the way out, whose order means nothing, and come back sorted.

* `Store.Built` are the values that consist of `None`, truth values, integers, strings, lists, and
  dicts whose keys are strings.
* `Store.Returns` says that a value equal to a given one is made of a datum, in every store that
  still has the given one. There is one lemma for each kind of datum.
* `Store.Built.exists_datum` makes such a datum of every value that is built in this way, and
  `Store.ofDatum_toDatum` is the result.
-/

/-- A dict whose keys are strings in the order of their characters. -/
def Dict.SortedKeys (d : Dict) : Prop :=
  ∃ names : List String, d.entries.map (·.key.str?) = names.map some ∧ names.Pairwise (· < ·)

/-- A name is the key of an entry, and what it names is related to the value of the entry. -/
def Entry.Named {α : Type} (R : α → Value → Prop) (p : String × α) (e : Entry) : Prop :=
  (∃ id, e.key = .str p.1 id) ∧ R p.2 e.value

/-- An item of a list that is related to another one item by item. -/
theorem exists_mem_of_forall₂ {α β : Type} {R : α → β → Prop} {xs : List α} {ys : List β}
    (h : List.Forall₂ R xs ys) {x : α} (hx : x ∈ xs) : ∃ y ∈ ys, R x y := by
  induction h with
  | nil => cases hx
  | cons hR _ ih =>
      rcases List.mem_cons.mp hx with rfl | hx
      · exact ⟨_, List.mem_cons_self, hR⟩
      · obtain ⟨y, hy, hR⟩ := ih hx
        exact ⟨y, List.mem_cons_of_mem _ hy, hR⟩

/-- A label is only put on errors. -/
theorem Op.labelled_of_ok {α : Type} {x : Op α} {s s' : Store} {a : α} (label : String)
    (h : x s = .ok a s') : Op.labelled label x s = .ok a s' :=
  tryCatch_of_ok h

namespace Store

variable {s s' : Store} {P : Dict → Prop} {v w : Value}

/-- Values that consist, to any depth, of `None`, truth values, integers, strings, lists, and dicts
that have strings as keys and satisfy a condition. None of them holds itself. -/
inductive Built (s : Store) (P : Dict → Prop) : Value → Prop
  | none : Built s P .none
  | bool (b : Bool) : Built s P (.bool b)
  | int (n : Int64) : Built s P (.int n)
  | str (t : String) (id : Nat) : Built s P (.str t id)
  | list {ref : Nat} : ref < s.lists.size → (∀ v ∈ s.items ref, Built s P v) →
    Built s P (.list ref)
  | dict {ref : Nat} : ref < s.dicts.size → P (s.dict ref) →
    (∀ e ∈ s.entries ref, ∃ t id, e.key = .str t id) →
    (∀ e ∈ s.entries ref, Built s P e.value) → Built s P (.dict ref)

/-- A built value has no cycles. -/
theorem Built.ordinary (hv : s.Built P v) : s.Ordinary v := by
  induction hv with
  | none | bool | int | str => exact .of_atom rfl trivial
  | list href _ ih => exact .list href ih
  | dict href _ hkeys _ ih =>
      refine .dict href fun e he => ⟨?_, ih e he⟩
      obtain ⟨t, id, hkey⟩ := hkeys e he
      rw [hkey]
      exact .of_atom rfl trivial

/-- A built value stays one while the store grows. -/
theorem Built.keeps (hv : s.Built P v) (hkeeps : s.Keeps s') : s'.Built P v := by
  induction hv with
  | none => exact .none
  | bool b => exact .bool b
  | int n => exact .int n
  | str t id => exact .str t id
  | list href _ ih => exact .list (hkeeps.lt_lists href) (by rwa [hkeeps.items_eq href])
  | dict href hdict hkeys _ ih =>
      refine .dict (hkeeps.lt_dicts href) ?_ ?_ ?_
      · rwa [hkeeps.dict_eq href]
      · rwa [hkeeps.entries_eq href]
      · rwa [hkeeps.entries_eq href]

/-! ## Copies -/

/-- A value is equal to another one, and the keys of its dicts are sorted. -/
structure Copies (s : Store) (w v : Value) : Prop where
  built : s.Built Dict.SortedKeys w
  ordinary : s.Ordinary v
  equal : s.equals w v = true

/-- A copy stays one while the store grows. -/
theorem Copies.keeps (h : s.Copies w v) (hkeeps : s.Keeps s') (hs' : s'.SoundDicts) :
    s'.Copies w v where
  built := h.built.keeps hkeeps
  ordinary := hkeeps.ordinary h.ordinary
  equal := (hkeeps.equals_eq hs' h.built.ordinary h.ordinary).trans h.equal

/-- Values without parts are copied as they are. -/
theorem Copies.of_atom (hw : s.Built Dict.SortedKeys w) (hv : s.Ordinary v)
    (hatom : w.atom?.isSome = true) (heq : w.atom? = v.atom?) : s.Copies w v where
  built := hw
  ordinary := hv
  equal := (hw.ordinary.equals_atom_iff hv hatom).mpr heq

/-- A list of copies is a copy of a list. -/
theorem copies_list {new ref : Nat} (hnew : new < s.lists.size) (hv : s.Ordinary (.list ref))
    (hitems : List.Forall₂ s.Copies (s.items new) (s.items ref)) :
    s.Copies (.list new) (.list ref) := by
  have hbuilt : s.Built Dict.SortedKeys (.list new) := by
    refine .list hnew fun w hw => ?_
    obtain ⟨v, -, hcopy⟩ := exists_mem_of_forall₂ hitems hw
    exact hcopy.built
  refine ⟨hbuilt, hv, hbuilt.ordinary.equals_list_iff.mpr ⟨ref, rfl, .inr ?_⟩⟩
  exact hitems.imp fun _ _ h => h.equal

/-- A dict of copies under the same names is a copy of a dict, if it has no more entries. -/
theorem copies_dict {new ref : Nat} (hs : s.SoundDicts) (hnew : new < s.dicts.size)
    (hv : s.Ordinary (.dict ref)) {ps : Bindings} (hnames : (ps.map Prod.fst).Pairwise (· < ·))
    (hfiled : Entry.FileAll (s.entries new) ps)
    (hlength : (s.entries new).length = (s.entries ref).length)
    (hcopies : ∀ p ∈ ps, ∃ e ∈ s.entries ref, Entry.Named s.Copies p e) :
    s.Copies (.dict new) (.dict ref) := by
  have hfile (e : Entry) (he : e ∈ s.entries new) :
      ∃ name id, e.hash = .str name ∧ e.key = .str name id ∧
        ∃ e' ∈ s.entries ref, (∃ id, e'.key = .str name id) ∧ s.Copies e.value e'.value := by
    obtain ⟨p, hp, hhash, ⟨id, hkey⟩, hvalue⟩ := exists_mem_of_forall₂ hfiled.flip he
    exact ⟨p.1, id, hhash, hkey, hvalue ▸ hcopies p hp⟩
  have hbuilt : s.Built Dict.SortedKeys (.dict new) := by
    refine .dict hnew ⟨ps.map Prod.fst, ?_, hnames⟩ (fun e he => ?_) fun e he => ?_
    · rw [← List.forall₂_eq_eq_eq, List.forall₂_map_left_iff, List.forall₂_map_right_iff,
        List.forall₂_map_right_iff]
      refine hfiled.flip.imp fun e p ⟨_, ⟨id, hkey⟩, _⟩ => ?_
      rw [hkey]
      rfl
    · obtain ⟨name, id, -, hkey, -⟩ := hfile e he
      exact ⟨name, id, hkey⟩
    · obtain ⟨-, -, -, -, e', -, -, hcopy⟩ := hfile e he
      exact hcopy.built
  refine ⟨hbuilt, hv, hbuilt.ordinary.equals_dict_iff_matches.mpr ⟨ref, rfl, hlength, ?_⟩⟩
  intro e he
  -- The entry of the same name is the one that is found, as both are filed under the name.
  obtain ⟨name, -, hhash, -, e', he', ⟨id', hkey'⟩, hcopy⟩ := hfile e he
  have hhash' : e'.hash = .str name := by
    have hkey := (hs.dict ref).hash_key e' he'
    rw [hkey'] at hkey
    exact (Except.ok.inj hkey).symm
  refine ⟨e'.value, ?_, hcopy.equal⟩
  rw [hhash, ← hhash']
  exact (hs.dict ref).find?_hash (hv.selfEqualKeys hs) he'

/-! ## What is made of data -/

/-- An operation makes a copy of a value in every store that still has the value. -/
def Restores (s : Store) (x : Op Value) (v : Value) : Prop :=
  ∀ s₁, s.Keeps s₁ → s₁.SoundDicts → ∃ w s₂, x s₁ = .ok w s₂ ∧ s₁.Keeps s₂ ∧ s₂.SoundDicts ∧
    s₂.Copies w v

/-- A copy of a value is made of a datum. -/
def Returns (s : Store) (d : Datum) (v : Value) : Prop := s.Restores (Op.ofDatum d) v

theorem returns_null : s.Returns .null .none :=
  fun s₁ _ hs₁ => ⟨.none, s₁, rfl, .refl s₁, hs₁, .of_atom .none (.of_atom rfl trivial) rfl rfl⟩

theorem returns_bool (t : String) (b : Bool) : s.Returns (.bool t b) (.bool b) :=
  fun s₁ _ hs₁ => ⟨.bool b, s₁, rfl, .refl s₁, hs₁,
    .of_atom (.bool b) (.of_atom rfl trivial) rfl rfl⟩

theorem returns_int (t : String) (n : Int64) : s.Returns (.int t n.toInt) (.int n) := by
  intro s₁ _ hs₁
  refine ⟨.int n, s₁, ?_, .refl s₁, hs₁, .of_atom (.int n) (.of_atom rfl trivial) rfl rfl⟩
  have hlimit : n.toInt < Word.limit := n.toInt_lt
  simp only [Op.ofDatum, if_pos hlimit, Int64.ofInt_toInt]
  rfl

theorem returns_str (t text : String) (id : Nat) : s.Returns (.str t text) (.str text id) :=
  fun s₁ _ hs₁ => ⟨.str text s₁.nextId, { s₁ with nextId := s₁.nextId + 1 }, rfl,
    ⟨fun _ _ => rfl, fun _ _ => rfl⟩, hs₁, .of_atom (.str ..) (.of_atom rfl trivial) rfl rfl⟩

/-- The items of a list are made one after another. -/
theorem exists_ofItems {ds : List Datum} {vs : List Value} (h : List.Forall₂ s.Returns ds vs)
    (i : Nat) {s₁ : Store} (hkeeps : s.Keeps s₁) (hs₁ : s₁.SoundDicts) :
    ∃ ws s₂, Op.ofItems i ds s₁ = .ok ws s₂ ∧ s₁.Keeps s₂ ∧ s₂.SoundDicts ∧
      List.Forall₂ s₂.Copies ws vs := by
  induction h generalizing i s₁ with
  | nil => exact ⟨[], s₁, rfl, .refl s₁, hs₁, .nil⟩
  | cons hfirst _ ih =>
      obtain ⟨w, s₂, hrun, hkeeps₂, hs₂, hcopy⟩ := hfirst s₁ hkeeps hs₁
      obtain ⟨ws, s₃, hrest, hkeeps₃, hs₃, hcopies⟩ := ih (i + 1) (hkeeps.trans hkeeps₂) hs₂
      refine ⟨w :: ws, s₃, ?_, hkeeps₂.trans hkeeps₃, hs₃, .cons (hcopy.keeps hkeeps₃ hs₃) hcopies⟩
      rw [Op.ofItems, bind_of_ok (Op.labelled_of_ok _ hrun), bind_of_ok hrest]
      rfl

theorem names_ofEntries (ds : List (String × Datum)) :
    (Op.ofEntries ds).map Prod.fst = ds.map Prod.fst := by
  induction ds with
  | nil => rfl
  | cons p ds ih => exact congrArg (p.1 :: ·) ih

/-- What makes the values of a record restores what the data do. -/
theorem named_ofEntries {ds : List (String × Datum)} {es : List Entry}
    (h : List.Forall₂ (Entry.Named s.Returns) ds es) :
    List.Forall₂ (Entry.Named s.Restores) (Op.ofEntries ds) es := by
  induction h with
  | nil => exact .nil
  | @cons p e ds es hfirst _ ih =>
      obtain ⟨name, d⟩ := p
      exact .cons hfirst ih

/-- The values of a dict are made one after another, each before its key is set. -/
theorem exists_setConverted {es : List Entry} (cs : List (String × Op Value))
    (h : ∀ c ∈ cs, ∃ e ∈ es, Entry.Named s.Restores c e) (d : Dict) {s₁ : Store}
    (hkeeps : s.Keeps s₁) (hs₁ : s₁.SoundDicts) :
    ∃ new ps s₂, cs.foldlM Op.setConverted d s₁ = .ok (d.setAll new) s₂ ∧ s₁.Keeps s₂ ∧
      s₂.SoundDicts ∧ Entry.FileAll new ps ∧ ps.map Prod.fst = cs.map Prod.fst ∧
      ∀ p ∈ ps, ∃ e ∈ es, Entry.Named s₂.Copies p e := by
  -- a stored key gets a fresh identity, so the rest starts from a store one string larger
  induction cs generalizing d s₁ with
  | nil => exact ⟨[], [], s₁, rfl, .refl s₁, hs₁, .nil, rfl, fun p hp => nomatch hp⟩
  | cons c cs ih =>
      obtain ⟨name, x⟩ := c
      obtain ⟨e, he, hkey, hrestores⟩ := h _ List.mem_cons_self
      obtain ⟨w, s₂, hrun, hkeeps₂, hs₂, hcopy⟩ := hrestores s₁ hkeeps hs₁
      let s₃ : Store := { s₂ with nextId := s₂.nextId + 1 }
      have hnamed : s₂.Keeps s₃ := ⟨fun _ _ => rfl, fun _ _ => rfl⟩
      have hset : Op.setConverted d (name, x) s₁ =
          .ok (d.set (.str name) (.str name s₂.nextId) w) s₃ :=
        bind_of_ok (Op.labelled_of_ok _ hrun)
      obtain ⟨new, ps, s₄, hrest, hkeeps₄, hs₄, hfiled, hnames, hcopies⟩ :=
        ih (fun c hc => h c (List.mem_cons_of_mem _ hc))
          (d.set (.str name) (.str name s₂.nextId) w) (hkeeps.trans (hkeeps₂.trans hnamed)) hs₂
      refine ⟨⟨.str name, .str name s₂.nextId, w⟩ :: new, (name, w) :: ps, s₄, ?_,
        hkeeps₂.trans (hnamed.trans hkeeps₄), hs₄, .cons ⟨rfl, ⟨_, rfl⟩, rfl⟩ hfiled,
        congrArg (name :: ·) hnames, ?_⟩
      · rw [List.foldlM_cons]
        exact (bind_of_ok hset).trans hrest
      · rintro p (_ | ⟨_, hp⟩)
        · exact ⟨e, he, hkey, hcopy.keeps (hnamed.trans hkeeps₄) hs₄⟩
        · exact hcopies p hp

/-- Data of the items make a list of equal items. -/
theorem returns_list {ref : Nat} (hv : s.Ordinary (.list ref)) (t : String) {ds : List Datum}
    (hitems : List.Forall₂ s.Returns ds (s.items ref)) :
    s.Returns (.list t ds) (.list ref) := by
  intro s₁ hkeeps hs₁
  obtain ⟨ws, s₂, hrun, hkeeps₂, hs₂, hcopies⟩ := exists_ofItems hitems 0 hkeeps hs₁
  let s₃ : Store := { s₂ with lists := s₂.lists.push ws }
  have hkeeps₃ : s₂.Keeps s₃ := by
    refine ⟨fun ref href => ?_, fun _ _ => rfl⟩
    exact (Array.getElem?_push_lt href).trans (Array.getElem?_eq_getElem href).symm
  have hgrown : s.Keeps s₃ := hkeeps.trans (hkeeps₂.trans hkeeps₃)
  have hnew : s₃.items s₂.lists.size = ws := by simp [s₃, items]
  refine ⟨.list s₂.lists.size, s₃, bind_of_ok hrun, hkeeps₂.trans hkeeps₃, hs₂, ?_⟩
  refine copies_list (by simp [s₃]) (hgrown.ordinary hv) ?_
  rw [hnew, hgrown.items_eq hv.admits_self]
  exact hcopies.imp fun _ _ h => h.keeps hkeeps₃ hs₂

/-- Data of the entries make a dict of equal values, with its keys in order. -/
theorem returns_dict {ref : Nat} (hv : s.Ordinary (.dict ref)) (t : String)
    {ds : List (String × Datum)} (hnames : (ds.map Prod.fst).Nodup)
    (hentries : List.Forall₂ (Entry.Named s.Returns) ds (s.entries ref)) :
    s.Returns (.record t ds) (.dict ref) := by
  intro s₁ hkeeps hs₁
  -- The record is sorted before anything is made of it.
  have hnamed := named_ofEntries hentries
  have hnodup : ((Op.ofEntries ds).map Prod.fst).Nodup := by rwa [names_ofEntries]
  have hperm := Assoc.perm_sort (Op.ofEntries ds)
  obtain ⟨new, ps, s₂, hset, hkeeps₂, hs₂, hfiled, hsame, hcopies⟩ :=
    exists_setConverted (Assoc.sort (Op.ofEntries ds))
      (fun c hc => exists_mem_of_forall₂ hnamed (hperm.mem_iff.mp hc)) {} hkeeps hs₁
  have hsorted : (ps.map Prod.fst).Pairwise (· < ·) := hsame ▸ Assoc.pairwise_sort hnodup
  have hlength : ps.length = (s.entries ref).length := by
    rw [← hnamed.length_eq, ← hperm.length_eq]
    simpa using congrArg List.length hsame
  have hdistinct := hfiled.distinct (hsorted.imp ne_of_lt)
  let d : Dict := Dict.setAll {} new
  have hd : d.Sound := Dict.Sound.empty.setAll hfiled.hash_key
  have hnewEntries : d.entries = new := by
    have hall := Dict.Sound.empty.entries_setAll hfiled.hash_key
      (by simpa [Dict.hashes] using hdistinct)
    simpa using hall
  let s₃ : Store := { s₂ with dicts := s₂.dicts.push d }
  have hs₃ : s₃.SoundDicts := hs₂.push hd
  have hkeeps₃ : s₂.Keeps s₃ := by
    refine ⟨fun _ _ => rfl, fun ref href => ?_⟩
    exact (Array.getElem?_push_lt href).trans (Array.getElem?_eq_getElem href).symm
  have hgrown : s.Keeps s₃ := hkeeps.trans (hkeeps₂.trans hkeeps₃)
  have hnew : s₃.entries s₂.dicts.size = new := by
    rw [← hnewEntries]
    simp [s₃, Store.entries, Store.dict]
  refine ⟨.dict s₂.dicts.size, s₃, ?_, hkeeps₂.trans hkeeps₃, hs₃, ?_⟩
  · rw [Op.ofDatum, bind_of_ok hset]
    rfl
  refine copies_dict hs₃ (by simp [s₃]) (hgrown.ordinary hv) hsorted (hnew ▸ hfiled) ?_ ?_
  · rw [hnew, hgrown.entries_eq hv.admits_self, ← hfiled.length_eq, hlength]
  · intro p hp
    obtain ⟨e, he, hkey, hcopy⟩ := hcopies p hp
    rw [hgrown.entries_eq hv.admits_self]
    exact ⟨e, he, hkey, hcopy.keeps hkeeps₃ hs₃⟩

/-! ## Data of values -/

/-- The keys of a dict are distinct names. -/
theorem nodup_of_named {α : Type} {R : α → Value → Prop} {d : Dict} (hd : d.Sound)
    {ps : List (String × α)} (h : List.Forall₂ (Entry.Named R) ps d.entries) :
    (ps.map Prod.fst).Nodup := by
  have hhashes : d.hashes = (ps.map Prod.fst).map HashKey.str := by
    rw [Dict.hashes, List.map_map, ← List.forall₂_eq_eq_eq, List.forall₂_map_left_iff,
      List.forall₂_map_right_iff]
    refine ((List.forall₂_and_left _ _).mpr ⟨hd.hash_key, h.flip⟩).imp ?_
    rintro e p ⟨hhash, ⟨id, hkey⟩, -⟩
    rw [hkey] at hhash
    exact (Except.ok.inj hhash).symm
  have hdistinct := hd.distinct
  rw [hhashes, List.pairwise_map] at hdistinct
  exact hdistinct.imp fun {a b} (hne : (a == b) = false) => beq_eq_false_iff_ne.mp hne

/-- A datum can be made of a value, given enough references, and gives a copy of the value. -/
theorem Built.exists_datum (hs : s.SoundDicts) (hv : s.Built P v) :
    ∀ n, s.rank v ≤ n → ∃ d, s.toDatumUpTo n v = .ok d ∧ s.Returns d v := by
  -- What a value holds has a smaller rank, so one level less is enough for it.
  induction hv with
  | none => exact fun n _ => ⟨.null, by cases n <;> rfl, returns_null⟩
  | bool b => exact fun n _ => ⟨.bool Datum.boolType b, by cases n <;> rfl, returns_bool _ b⟩
  | int k => exact fun n _ => ⟨.int Datum.intType k.toInt, by cases n <;> rfl, returns_int _ k⟩
  | str t id => exact fun n _ => ⟨.str Datum.strType t, by cases n <;> rfl, returns_str _ t id⟩
  | @list ref href hitems ih =>
      intro n hn
      have hv : s.Ordinary (.list ref) := (Built.list href hitems).ordinary
      have hpos := hv.rank_pos trivial
      obtain ⟨m, rfl⟩ : ∃ m, n = m + 1 := ⟨n - 1, by omega⟩
      have hparts : ∀ w ∈ s.items ref, ∃ d, s.toDatumUpTo m w = .ok d ∧ s.Returns d w := by
        intro w hw
        have hlt := hv.rank_lt_of_holds trivial (.element hw)
        exact ih w hw m (by omega)
      obtain ⟨ds, hds, hreturns⟩ := exists_mapM_eq_ok (R := fun w d => s.Returns d w) hparts
      refine ⟨.list Datum.listType ds, ?_, returns_list hv _ hreturns.flip⟩
      show (do return .list Datum.listType (← (s.items ref).mapM (s.toDatumUpTo m)) :
        Except Failure Datum) = _
      rw [hds]
      rfl
  | @dict ref href hdict hkeys hvalues ih =>
      intro n hn
      have hv : s.Ordinary (.dict ref) := (Built.dict href hdict hkeys hvalues).ordinary
      have hpos := hv.rank_pos trivial
      obtain ⟨m, rfl⟩ : ∃ m, n = m + 1 := ⟨n - 1, by omega⟩
      let part (e : Entry) : Except Failure (String × Datum) := do
        return (s.str e.key, ← s.toDatumUpTo m e.value)
      have hparts : ∀ e ∈ s.entries ref, ∃ p, part e = .ok p ∧ Entry.Named s.Returns p e := by
        intro e he
        have hlt := hv.rank_lt_of_holds trivial (.value he)
        obtain ⟨t, id, hkey⟩ := hkeys e he
        obtain ⟨d, hd, hreturns⟩ := ih e he m (by omega)
        refine ⟨(t, d), ?_, ⟨id, hkey⟩, hreturns⟩
        simp only [part, hkey, hd]
        rfl
      obtain ⟨ds, hds, hnamed⟩ :=
        exists_mapM_eq_ok (R := fun e p => Entry.Named s.Returns p e) hparts
      have hnames := nodup_of_named (hs.dict ref) hnamed.flip
      refine ⟨.record Datum.recordType ds, ?_, returns_dict hv _ hnames hnamed.flip⟩
      show (do return .record Datum.recordType (Assoc.setAll [] (← (s.entries ref).mapM part)) :
        Except Failure Datum) = _
      rw [hds]
      exact congrArg (fun es => Except.ok (Datum.record Datum.recordType es))
        (Assoc.setAll_of_nodup hnames)

/-- A value that consists, to any depth, of `None`, truth values, integers, strings, lists, and
dicts with strings as keys has a datum. A new value can be made of that, which is equal to it, while
everything that was there stays as it is; and all dicts in the new value have sorted keys. -/
theorem ofDatum_toDatum (hs : s.SoundDicts) (hv : s.Built (fun _ => True) v) :
    ∃ d, s.toDatum v = .ok d ∧ ∃ w s', Op.ofDatum d s = .ok w s' ∧ s.Keeps s' ∧
      s'.equals w v = true ∧ s'.Built Dict.SortedKeys w := by
  obtain ⟨d, hd, hreturns⟩ := hv.exists_datum hs s.size hv.ordinary.rank_le_size
  obtain ⟨w, s', hrun, hkeeps, -, hcopy⟩ := hreturns s (.refl s) hs
  exact ⟨d, hd, w, s', hrun, hkeeps, hcopy.equal, hcopy.built⟩

/-- A dict of two lists, one of which holds another dict. The keys of both dicts are not sorted. -/
def nested : Store where
  lists := #[[.none, .bool true, .dict 1], []]
  dicts := #[(Dict.set {} (.str "b") (.str "b" 0) (.list 0)).set (.str "a") (.str "a" 1) (.list 1),
    (Dict.set {} (.str "z") (.str "z" 2) (.int 7)).set (.str "y") (.str "y" 3) (.str "text" 4)]

/-- A dict with a list in a tuple. -/
theorem ofDatum_toDatum_nested :
    let inner : Datum := .record Datum.recordType
      [("z", .int Datum.intType 7), ("y", .str Datum.strType "text")]
    let d : Datum := .record Datum.recordType
      [("b", .list Datum.listType [.null, .bool Datum.boolType true, inner]),
        ("a", .list Datum.listType [])]
    nested.SoundDicts ∧ nested.Built (fun _ => True) (.dict 0) ∧ nested.toDatum (.dict 0) = .ok d ∧
      ∃ w s', Op.ofDatum d nested = .ok w s' ∧ nested.Keeps s' ∧ s'.equals w (.dict 0) = true ∧
        s'.Built Dict.SortedKeys w := by
  intro inner d
  have hsound : nested.SoundDicts := by
    intro d hd
    rcases List.mem_pair.mp hd with rfl | rfl <;> exact (Dict.Sound.empty.set rfl).set rfl
  -- from the innermost container outwards, each with its own entries
  have hinner : nested.Built (fun _ => True) (.dict 1) := by
    refine .dict (by decide) trivial (fun e he => ?_) fun e he => ?_ <;>
      rcases List.mem_pair.mp he with rfl | rfl
    · exact ⟨"z", 2, rfl⟩
    · exact ⟨"y", 3, rfl⟩
    · exact .int 7
    · exact .str "text" 4
  have hlist : nested.Built (fun _ => True) (.list 0) := by
    refine .list (by decide) fun v hv => ?_
    have hmem : v ∈ [.none, .bool true, .dict 1] := hv
    simp only [List.mem_cons, List.not_mem_nil, or_false] at hmem
    rcases hmem with rfl | rfl | rfl
    · exact .none
    · exact .bool true
    · exact hinner
  have hbuilt : nested.Built (fun _ => True) (.dict 0) := by
    refine .dict (by decide) trivial (fun e he => ?_) fun e he => ?_ <;>
      rcases List.mem_pair.mp he with rfl | rfl
    · exact ⟨"b", 0, rfl⟩
    · exact ⟨"a", 1, rfl⟩
    · exact hlist
    · exact .list (by decide) fun v hv => absurd hv List.not_mem_nil
  have hd : nested.toDatum (.dict 0) = .ok d := rfl
  obtain ⟨d', hd', hresult⟩ := ofDatum_toDatum hsound hbuilt
  obtain rfl : d = d' := Except.ok.inj (hd.symm.trans hd')
  exact ⟨hsound, hbuilt, hd, hresult⟩

end Store

end Wordcode
