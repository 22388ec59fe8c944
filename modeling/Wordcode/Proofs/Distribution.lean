import Wordcode.Proofs.Binding
import Wordcode.Proofs.Dicts
import Wordcode.Proofs.Sequence
import Mathlib

namespace Wordcode

/-! # Distributing arguments

A call that binds gives every parameter its value, and every argument has one place to go.

* `Store.Extends`: making the variables of a frame leaves alone what the store held before.
* `Call.bind_eq`: a plan becomes variables over those that the function has captured.
* `Call.Distributes` says what the variables are, and where each argument is.
* `Call.distributes_of_bind`: that is what binding does.
-/

/-! ## Values of slots -/

/-- A store with new contents, but the old ones unchanged. -/
structure Store.Extends (s s' : Store) : Prop where
  lists : s'.lists = s.lists
  dicts : s.dicts.toList <+: s'.dicts.toList
  iterators : s'.iterators = s.iterators

theorem Store.Extends.refl (s : Store) : s.Extends s :=
  ⟨rfl, List.prefix_refl _, rfl⟩

theorem Store.Extends.trans {s₁ s₂ s₃ : Store} (h : s₁.Extends s₂) (h' : s₂.Extends s₃) :
    s₁.Extends s₃ :=
  ⟨h'.lists.trans h.lists, h.dicts.trans h'.dicts, h'.iterators.trans h.iterators⟩

/-- A dict keeps its entries. -/
theorem Store.Extends.entries_eq {s s' : Store} (h : s.Extends s') {ref : Nat}
    (href : ref < s.dicts.size) : ref < s'.dicts.size ∧ s'.entries ref = s.entries ref := by
  obtain ⟨more, hmore⟩ := h.dicts
  have hdicts : s'.dicts = s.dicts ++ more.toArray := by
    apply Array.toList_inj.mp
    simp [← hmore]
  refine ⟨by simp [hdicts]; omega, ?_⟩
  unfold Store.entries Store.dict
  rw [hdicts, Array.getD_eq_getD_getElem?, Array.getD_eq_getD_getElem?,
    Array.getElem?_append_left href]

/-- An entry of a dict that files a value under a string. -/
def Entry.Files (entry : Entry) (name : String) (v : Value) : Prop :=
  entry.hash = .str name ∧ (∃ id, entry.key = .str name id) ∧ entry.value = v

/-- The entries of a dict of keyword arguments, in their order. -/
def Entry.FileAll (entries : List Entry) (es : Bindings) : Prop :=
  List.Forall₂ (fun (e : String × Value) entry => Entry.Files entry e.1 e.2) es entries

/-- An entry belongs to one keyword argument. -/
theorem Entry.Files.eq {entry : Entry} {name key : String} {v w : Value}
    (h : Entry.Files entry name v) (h' : Entry.Files entry key w) : (name, v) = (key, w) := by
  obtain ⟨hhash, -, rfl⟩ := h
  obtain ⟨hhash', -, rfl⟩ := h'
  rw [hhash] at hhash'
  cases hhash'
  rfl

/-- The keyword arguments that a dict files. -/
theorem Entry.FileAll.exists_iff {entries : List Entry} {es : Bindings}
    (h : Entry.FileAll entries es) {key : String} {v : Value} :
    (∃ entry ∈ entries, Entry.Files entry key v) ↔ (key, v) ∈ es := by
  induction h with
  | nil => simp
  | @cons e entry es entries hfirst _ ih =>
      have hhead : Entry.Files entry key v ↔ (key, v) = e :=
        ⟨fun h => (hfirst.eq h).symm, by rintro rfl; exact hfirst⟩
      simp only [List.mem_cons, or_and_right, exists_or, exists_eq_left, hhead, ih]

/-- Entries that file keyword arguments are filed under their keys. -/
theorem Entry.FileAll.hash_key {entries : List Entry} {es : Bindings}
    (h : Entry.FileAll entries es) : ∀ e ∈ entries, e.key.hash = .ok e.hash := by
  induction h with
  | nil => simp
  | @cons _ entry _ _ hfirst _ ih =>
      obtain ⟨hhash, ⟨id, hkey⟩, -⟩ := hfirst
      rintro e (_ | ⟨_, he⟩)
      · rw [hkey, hhash]
        rfl
      · exact ih e he

/-- Keyword arguments with different names are filed under different keys. -/
theorem Entry.FileAll.distinct {entries : List Entry} {es : Bindings}
    (h : Entry.FileAll entries es) (hnodup : (es.map Prod.fst).Nodup) :
    (entries.map (·.hash)).Pairwise fun a b => (a == b) = false := by
  have hhashes : entries.map (·.hash) = (es.map Prod.fst).map HashKey.str := by
    induction h with
    | nil => rfl
    | cons hfirst _ ih =>
        rw [List.map_cons, List.nodup_cons] at hnodup
        simp [ih hnodup.2, hfirst.1]
  rw [hhashes, List.pairwise_map]
  exact hnodup.imp fun hne => beq_eq_false_iff_ne.mpr hne

/-- What the value made for a slot holds. Keyword arguments have different names. -/
def Slot.Holds (s : Store) : Slot → Value → Prop
  | .value v, w => w = v
  | .rest vs, w => ∃ id, w = .tuple vs id
  | .keywords es, w =>
    ∃ ref, w = .dict ref ∧ ref < s.dicts.size ∧
      ((es.map Prod.fst).Nodup → Entry.FileAll (s.entries ref) es)

theorem Slot.Holds.extend {s s' : Store} {slot : Slot} {v : Value} (h : slot.Holds s v)
    (hextends : s.Extends s') : slot.Holds s' v := by
  cases slot with
  | value w => exact h
  | rest vs => exact h
  | keywords es =>
      obtain ⟨ref, hv, href, hentries⟩ := h
      obtain ⟨href', heq⟩ := hextends.entries_eq href
      exact ⟨ref, hv, href', fun hnodup => heq ▸ hentries hnodup⟩

/-- A pass over a list that only adds to the store, when what it says about the results stays
true. -/
theorem mapM_extends {α β : Type} {f : α → Op β} {R : Store → α → β → Prop}
    (hstep : ∀ a s, ∃ b s', f a s = .ok b s' ∧ s.Extends s' ∧ R s' a b)
    (hextend : ∀ {a b s s'}, R s a b → s.Extends s' → R s' a b) (as : List α) (s : Store) :
    ∃ bs s', as.mapM f s = .ok bs s' ∧ s.Extends s' ∧ List.Forall₂ (R s') as bs := by
  induction as generalizing s with
  | nil => exact ⟨[], s, rfl, .refl s, .nil⟩
  | cons a as ih =>
      obtain ⟨b, s₁, hfirst, hextends, hb⟩ := hstep a s
      obtain ⟨bs, s₂, hrest, hextends', hbs⟩ := ih s₁
      refine ⟨b :: bs, s₂, ?_, hextends.trans hextends', .cons (hextend hb hextends') hbs⟩
      rw [List.mapM_cons, bind_of_ok hfirst, bind_of_ok hrest]
      rfl

/-- Filing keyword arguments in a dict sets their keys one after another, each a new string. -/
theorem foldlM_set_str (es : Bindings) (d : Dict) (s : Store) :
    ∃ entries, (es.foldlM (fun d (name, v) => return d.set (.str name) (← Op.newStr name) v) d :
        Op Dict) s = .ok (d.setAll entries) { s with nextId := s.nextId + es.length } ∧
      Entry.FileAll entries es := by
  induction es generalizing d s with
  | nil => exact ⟨[], rfl, .nil⟩
  | cons e es ih =>
      obtain ⟨name, v⟩ := e
      obtain ⟨entries, hrun, hentries⟩ :=
        ih (d.set (.str name) (.str name s.nextId) v) { s with nextId := s.nextId + 1 }
      refine ⟨⟨.str name, .str name s.nextId, v⟩ :: entries, ?_,
        .cons ⟨rfl, ⟨_, rfl⟩, rfl⟩ hentries⟩
      rw [List.foldlM_cons, List.length_cons, Nat.add_comm es.length, ← Nat.add_assoc]
      exact (bind_of_ok rfl).trans hrun

/-- Every slot gets a value. -/
theorem Slot.exists_toValue (slot : Slot) (s : Store) :
    ∃ v s', slot.toValue s = .ok v s' ∧ s.Extends s' ∧ slot.Holds s' v := by
  -- only the collected arguments need anything new in the store
  cases slot with
  | value v => exact ⟨v, s, rfl, .refl s, rfl⟩
  | rest vs =>
      exact ⟨.tuple vs s.nextId, { s with nextId := s.nextId + 1 }, rfl,
        ⟨rfl, List.prefix_refl _, rfl⟩, s.nextId, rfl⟩
  | keywords es =>
      obtain ⟨entries, hrun, hentries⟩ := foldlM_set_str es {} s
      refine ⟨.dict s.dicts.size,
        { s with dicts := s.dicts.push (Dict.setAll {} entries), nextId := s.nextId + es.length },
        ?_, ⟨rfl, by simp, rfl⟩, s.dicts.size, rfl, by simp, fun hnodup => ?_⟩
      · exact (bind_of_ok hrun).trans rfl
      · have hdistinct := hentries.distinct hnodup
        have hnew := Dict.Sound.empty.entries_setAll hentries.hash_key
          (by simpa [Dict.hashes] using hdistinct)
        simpa [Store.entries, Store.dict, hnew] using hentries

/-- The variables that a plan makes. -/
theorem exists_values (bound : List (String × Slot)) (s : Store) :
    ∃ values s', (bound.mapM fun (name, slot) => return (name, ← slot.toValue) : Op Bindings) s =
        .ok values s' ∧ s.Extends s' ∧
      List.Forall₂ (fun b (value : String × Value) => value.1 = b.1 ∧ b.2.Holds s' value.2)
        bound values := by
  refine mapM_extends (R := fun s b (value : String × Value) =>
    value.1 = b.1 ∧ b.2.Holds s value.2) ?_ ?_ bound s
  · intro b s
    obtain ⟨v, s', hrun, hextends, hholds⟩ := b.2.exists_toValue s
    exact ⟨(b.1, v), s', bind_of_ok hrun, hextends, rfl, hholds⟩
  · rintro b value s s' ⟨hname, hholds⟩ hextends
    exact ⟨hname, hholds.extend hextends⟩

/-- Reading lists that agree on names. -/
theorem lookup_forall₂ {α β : Type} {R : α → β → Prop} {as : List (String × α)}
    {bs : List (String × β)} (h : List.Forall₂ (fun a b => b.1 = a.1 ∧ R a.2 b.2) as bs)
    (name : String) : match as.lookup name with
      | some a => ∃ b, bs.lookup name = some b ∧ R a b
      | none => bs.lookup name = none := by
  induction h with
  | nil => rfl
  | @cons a b as bs hhead _ ih =>
      obtain ⟨n, a⟩ := a
      obtain ⟨m, b⟩ := b
      obtain ⟨hm, hR⟩ := hhead
      obtain rfl : m = n := hm
      rw [Assoc.lookup_cons, Assoc.lookup_cons]
      by_cases hname : name = m
      · simpa only [if_pos hname] using ⟨b, rfl, hR⟩
      · simpa only [if_neg hname] using ih

namespace Call

/-- A plan becomes variables over those that the function has captured. -/
theorem bind_eq {c : Call} {bound : List (String × Slot)} (hplan : c.plan = .ok bound)
    (hnodup : (bound.map Prod.fst).Nodup) (s : Store) :
    ∃ locals s', c.bind s = .ok locals s' ∧ s.Extends s' ∧
      ∀ name, match bound.lookup name with
        | some slot => ∃ v, locals.lookup name = some v ∧ slot.Holds s' v
        | none => locals.lookup name = c.function.snapshot.lookup name := by
  obtain ⟨values, s', hrun, hextends, hvalues⟩ := exists_values bound s
  refine ⟨Assoc.setAll c.function.snapshot values, s', ?_, hextends, ?_⟩
  · have hplanned : (Op.ofExcept c.plan : Op _) s = .ok bound s := by rw [hplan]; rfl
    unfold Call.bind
    rw [bind_of_ok hplanned, bind_of_ok hrun]
    rfl
  · intro name
    have hnames : bound.map Prod.fst = values.map Prod.fst := by
      rw [← List.forall₂_eq_eq_eq, List.forall₂_map_left_iff, List.forall₂_map_right_iff]
      exact hvalues.imp fun b value h => h.1.symm
    -- the values have the names of their slots, in the same order
    have hread := lookup_forall₂ hvalues name
    rw [Assoc.lookup_setAll (hnames ▸ hnodup)]
    cases hlookup : bound.lookup name with
    | some slot =>
        simp only [hlookup] at hread
        obtain ⟨v, hv, hholds⟩ := hread
        exact ⟨v, by rw [hv]; rfl, hholds⟩
    | none =>
        simp only [hlookup] at hread
        simp only [hread]
        rfl

/-! ## Places of arguments -/

/-- Whether a keyword argument of this name fills a parameter. -/
def takes (c : Call) (names : Code.ParameterNames) (name : String) : Bool :=
  (names.anyPositional.drop (max c.arguments.length names.positionalOnly.length)).contains name ||
    names.keywordOnly.contains name

/-- The keyword arguments that fill no parameter, in the order of the call. -/
def extras (c : Call) (names : Code.ParameterNames) (passed : Bindings) : Bindings :=
  passed.filter fun e => !c.takes names e.1

/-- Whether a name has a positional argument: as its parameter, or as the tuple of those in
excess. -/
def HasArgument (names : Code.ParameterNames) (rest? : Option String) (locals : Bindings) (i : Nat)
    (v : Value) (name : String) : Prop :=
  (names.anyPositional[i]? = some name ∧ locals.lookup name = some v) ∨
    (name ∈ rest? ∧ ∃ vs id j, locals.lookup name = some (.tuple vs id) ∧
      i = names.anyPositional.length + j ∧ vs[j]? = some v)

/-- Whether a name has a keyword argument: as its parameter, or as the dict of those in excess. -/
def HasKeyword (c : Call) (names : Code.ParameterNames) (keywords? : Option String)
    (locals : Bindings) (s : Store) (key : String) (v : Value) (name : String) : Prop :=
  (name = key ∧ c.takes names name ∧ locals.lookup name = some v) ∨
    (name ∈ keywords? ∧ ∃ ref, locals.lookup name = some (.dict ref) ∧
      ∃ entry ∈ s.entries ref, Entry.Files entry key v)

/-- Every variable has the right value. -/
structure Assigns (c : Call) (names : Code.ParameterNames) (rest? keywords? : Option String)
    (passed locals : Bindings) (s : Store) : Prop where
  /-- A positional argument fills the parameter in its place. -/
  direct : ∀ {i : Nat} {name : String} {v : Value},
    names.anyPositional[i]? = some name → c.arguments[i]? = some v → locals.lookup name = some v
  /-- Another positional parameter has its keyword argument, unless it is positional-only, or else
  its default. -/
  later : ∀ {i : Nat} {name : String},
    names.anyPositional[i]? = some name → c.arguments.length ≤ i →
      ∃ v, locals.lookup name = some v ∧
        ((names.positionalOnly.length ≤ i ∧ passed.lookup name = some v) ∨
          ((i < names.positionalOnly.length ∨ passed.lookup name = none) ∧
            ∃ j, j + names.anyPositional.length = i + c.function.defaults.length ∧
              c.function.defaults[j]? = some v))
  /-- A keyword-only parameter has its keyword argument or else its default. -/
  keywordOnly : ∀ name ∈ names.keywordOnly, ∃ v, locals.lookup name = some v ∧
    (passed.lookup name = some v ∨
      (passed.lookup name = none ∧
        Entry.find? c.function.keywordDefaults (.str name) = some v))
  /-- The positional arguments in excess are collected. -/
  rest : ∀ name ∈ rest?, ∃ id,
    locals.lookup name = some (.tuple (c.arguments.drop names.anyPositional.length) id)
  /-- The keyword arguments in excess are collected. -/
  keywords : ∀ name ∈ keywords?, ∃ ref, locals.lookup name = some (.dict ref) ∧
    Entry.FileAll (s.entries ref) (c.extras names passed)
  /-- All other variables are those that the function has captured. -/
  others : ∀ name ∉ names.all rest? keywords?,
    locals.lookup name = c.function.snapshot.lookup name

/-- Every variable has the right value, and every argument is in one place. -/
structure Distributes (c : Call) (names : Code.ParameterNames) (rest? keywords? : Option String)
    (passed locals : Bindings) (s : Store) : Prop
    extends Assigns c names rest? keywords? passed locals s where
  argument : ∀ {i : Nat} {v : Value}, c.arguments[i]? = some v →
    ∃! name, HasArgument names rest? locals i v name
  keyword : ∀ {key : String} {v : Value}, (key, v) ∈ passed →
    ∃! name, c.HasKeyword names keywords? locals s key v name

/-- The openings take those keyword arguments. -/
theorem any_openings (c : Call) (names : Code.ParameterNames) (name : String) :
    ((c.openings names).any fun o => o.byKeyword && o.name = name) = c.takes names name := by
  rw [Bool.eq_iff_iff, List.any_eq_true]
  simp only [takes, Bool.or_eq_true, List.contains_iff_mem, Bool.and_eq_true, decide_eq_true_eq]
  constructor
  · rintro ⟨o, ho, hby, hname⟩
    -- a positional parameter can be named from the first one that is not positional-only
    rcases mem_openings.mp ho with ⟨i, other, hi, hother, rfl⟩ | ⟨other, hother, rfl⟩
    · refine Or.inl (List.mem_iff_getElem?.mpr
        ⟨i - max c.arguments.length names.positionalOnly.length, ?_⟩)
      have hby : names.positionalOnly.length ≤ i := by simpa [positionalOpening] using hby
      obtain rfl : other = name := hname
      rw [List.getElem?_drop, Nat.add_sub_cancel' (max_le hi hby), hother]
    · obtain rfl : other = name := hname
      exact Or.inr hother
  · rintro (hmem | hmem)
    · obtain ⟨j, hj⟩ := List.mem_iff_getElem?.mp hmem
      rw [List.getElem?_drop] at hj
      refine ⟨_, mem_openings.mpr (Or.inl ⟨_, name, ?_, hj, rfl⟩), ?_, rfl⟩
      · omega
      · simp only [positionalOpening, decide_eq_true_eq]
        omega
    · exact ⟨_, mem_openings.mpr (Or.inr ⟨name, hmem, rfl⟩), rfl, rfl⟩

theorem leftover_openings (c : Call) (names : Code.ParameterNames) (passed : Bindings) :
    leftover (c.openings names) passed = c.extras names passed := by
  refine List.filter_congr fun e _ => ?_
  rw [any_openings]

section

variable {c : Call} {names : Code.ParameterNames} {rest? keywords? : Option String}
  {passed locals : Bindings} {s : Store}

/-- A plan that has become variables. -/
theorem Plans.assigns {bound : List (String × Slot)}
    (hplans : Plans c names rest? keywords? passed bound)
    (hdefaults : c.function.defaults.length ≤ names.anyPositional.length)
    (hdistinct : (passed.map Prod.fst).Nodup)
    (hread : ∀ name, match bound.lookup name with
      | some slot => ∃ v, locals.lookup name = some v ∧ slot.Holds s v
      | none => locals.lookup name = c.function.snapshot.lookup name) :
    Assigns c names rest? keywords? passed locals s := by
  have hvalue : ∀ {name : String} {v : Value}, bound.lookup name = some (.value v) →
      locals.lookup name = some v := by
    intro name v hlookup
    have hname := hread name
    simp only [hlookup] at hname
    obtain ⟨w, hw, rfl⟩ := hname
    exact hw
  constructor
  case direct =>
    intro i name v hname hv
    exact hvalue (hplans.direct hname hv)
  case later =>
    intro i name hname hi
    obtain ⟨v, hv, hbound⟩ := hplans.opened _ (mem_openings.mpr (Or.inl ⟨i, name, hi, hname, rfl⟩))
    refine ⟨v, hvalue hbound, ?_⟩
    rw [Opening.value?, Option.or_eq_some_iff] at hv
    simp only [positionalOpening, decide_eq_true_eq] at hv
    -- a keyword argument goes before a default, and defaults belong to the last parameters
    rcases hv with hkeyword | ⟨hnone, hdefault⟩
    · rw [Option.ite_none_right_eq_some] at hkeyword
      exact Or.inl hkeyword
    · rw [ite_eq_right_iff] at hnone
      rw [Option.ite_none_right_eq_some] at hdefault
      obtain ⟨hlast, hdefault⟩ := hdefault
      refine Or.inr ⟨?_, _, ?_, hdefault⟩
      · exact (Nat.lt_or_ge i names.positionalOnly.length).imp_right hnone
      · omega
  case keywordOnly =>
    intro name hname
    obtain ⟨v, hv, hbound⟩ := hplans.opened _ (mem_openings.mpr (Or.inr ⟨name, hname, rfl⟩))
    refine ⟨v, hvalue hbound, ?_⟩
    rwa [Opening.value?, Option.or_eq_some_iff] at hv
  case rest =>
    intro name hname
    have hrest := hread name
    simp only [hplans.rest name hname] at hrest
    obtain ⟨v, hv, id, rfl⟩ := hrest
    exact ⟨id, hv⟩
  case keywords =>
    intro name hname
    have hkeywords := hread name
    simp only [hplans.keywords name hname] at hkeywords
    obtain ⟨v, hv, ref, rfl, -, hentries⟩ := hkeywords
    have hleft := leftover_openings c names passed
    refine ⟨ref, hv, hleft ▸ hentries ?_⟩
    rw [hleft]
    exact hdistinct.sublist (List.filter_sublist.map _)
  case others =>
    intro name hname
    have hother := hread name
    simpa only [hplans.others name hname] using hother

/-- A positional argument has one place. -/
theorem Assigns.existsUnique_argument (hassigns : Assigns c names rest? keywords? passed locals s)
    (hrest : rest? = none → c.arguments.length ≤ names.anyPositional.length) {i : Nat} {v : Value}
    (hv : c.arguments[i]? = some v) : ∃! name, HasArgument names rest? locals i v name := by
  -- an argument has a parameter of its own, or it is one of the rest
  by_cases hi : i < names.anyPositional.length
  · have hname := List.getElem?_eq_getElem hi
    refine ⟨names.anyPositional[i], Or.inl ⟨hname, hassigns.direct hname hv⟩, ?_⟩
    rintro other (⟨hother, -⟩ | ⟨-, vs, id, j, -, hj, -⟩)
    · exact Option.some.inj (hother.symm.trans hname)
    · omega
  · cases rest? with
    | none =>
        have hlt := (List.getElem?_eq_some_iff.mp hv).1
        have hle := hrest rfl
        omega
    | some name =>
        obtain ⟨id, hlookup⟩ := hassigns.rest name rfl
        refine ⟨name, Or.inr ⟨rfl, _, id, i - names.anyPositional.length, hlookup, ?_, ?_⟩, ?_⟩
        · omega
        · rw [List.getElem?_drop, Nat.add_sub_cancel' (Nat.le_of_not_lt hi), hv]
        · rintro other (⟨hother, -⟩ | ⟨hother, -⟩)
          · exact absurd (List.getElem?_eq_some_iff.mp hother).1 hi
          · exact (Option.some.inj hother).symm

/-- A keyword argument that fills a parameter is its value. -/
theorem Assigns.lookup_of_takes (hassigns : Assigns c names rest? keywords? passed locals s)
    {key : String} {v : Value} (htakes : c.takes names key) (hv : passed.lookup key = some v) :
    locals.lookup key = some v := by
  simp only [takes, Bool.or_eq_true, List.contains_iff_mem] at htakes
  rcases htakes with hmem | hmem
  · obtain ⟨j, hj⟩ := List.mem_iff_getElem?.mp hmem
    rw [List.getElem?_drop] at hj
    obtain ⟨w, hw, ⟨-, hkeyword⟩ | ⟨hpositional | hnone, -⟩⟩ := hassigns.later hj (by omega)
    · rw [hw, ← hkeyword, hv]
    · omega
    · rw [hv] at hnone
      cases hnone
  · obtain ⟨w, hw, hkeyword | ⟨hnone, -⟩⟩ := hassigns.keywordOnly key hmem
    · rw [hw, ← hkeyword, hv]
    · rw [hv] at hnone
      cases hnone

/-- A keyword argument has one place. -/
theorem Assigns.existsUnique_keyword (hassigns : Assigns c names rest? keywords? passed locals s)
    (hdistinct : (passed.map Prod.fst).Nodup)
    (hnone : keywords? = none → c.extras names passed = []) {key : String} {v : Value}
    (hmem : (key, v) ∈ passed) :
    ∃! name, c.HasKeyword names keywords? locals s key v name := by
  -- a keyword argument has a parameter of its own, or it is collected
  by_cases htakes : c.takes names key
  · have hlookup := hassigns.lookup_of_takes htakes ((Assoc.lookup_eq_some_iff hdistinct).mpr hmem)
    refine ⟨key, Or.inl ⟨rfl, htakes, hlookup⟩, ?_⟩
    rintro other (⟨rfl, -, -⟩ | ⟨hother, ref, href, hfiled⟩)
    · rfl
    · -- what is collected fills no parameter
      obtain ⟨ref', href', hentries⟩ := hassigns.keywords other hother
      rw [href] at href'
      cases href'
      have hextra := hentries.exists_iff.mp hfiled
      simp [extras, htakes] at hextra
  · have hextra : (key, v) ∈ c.extras names passed := by
      simp [extras, htakes, hmem]
    cases keywords? with
    | none =>
        rw [hnone rfl] at hextra
        cases hextra
    | some name =>
        obtain ⟨ref, href, hentries⟩ := hassigns.keywords name rfl
        refine ⟨name, Or.inr ⟨rfl, ref, href, hentries.exists_iff.mpr hextra⟩, ?_⟩
        rintro other (⟨rfl, hother, -⟩ | ⟨hother, -⟩)
        · exact absurd hother htakes
        · exact (Option.some.inj hother).symm

end

/-! ## Calls that bind -/

/-- The keyword arguments of a call by name. -/
theorem namedArguments_eq {c : Call} {passed : Bindings}
    (hpassed : Entry.FileAll c.keywords passed) : c.namedArguments = .ok passed := by
  refine mapM_eq_ok_iff.mpr (List.Forall₂.flip ?_)
  refine hpassed.imp ?_
  rintro ⟨name, v⟩ ⟨hash, key, value⟩ ⟨-, ⟨id, hkey⟩, hvalue⟩
  obtain rfl : key = .str name id := hkey
  obtain rfl : value = v := hvalue
  rfl

/-- What a call without a fault ensures. -/
theorem of_fault?_eq_none {c : Call} {names : Code.ParameterNames}
    {rest? keywords? : Option String} {passed : Bindings}
    (hfault : c.fault? names rest? keywords? passed = none) :
    c.function.defaults.length ≤ names.anyPositional.length ∧
      (rest? = none → c.arguments.length ≤ names.anyPositional.length) ∧
      (keywords? = none → c.extras names passed = []) := by
  unfold fault? at hfault
  -- the checks are made in order, and none has failed
  split at hfault
  · cases hfault
  rename_i hdefaults
  split at hfault
  · cases hfault
  rename_i hexcess
  refine ⟨by omega, fun hrest => ?_, fun hkeywords => ?_⟩
  · exact Nat.le_of_not_lt fun hlt => hexcess ⟨hlt, hrest⟩
  · subst hkeywords
    split at hfault
    · cases hfault
    · rw [leftover_openings] at hfault
      simpa using hfault

/-- A call that binds gives every parameter its value, and each of its arguments to one of them or
to one of the collecting slots. Keyword arguments come from a dict with string keys, which has each
key once. -/
theorem distributes_of_bind {c : Call} {names : Code.ParameterNames}
    {rest? keywords? : Option String} {passed locals : Bindings} {s s' : Store}
    (h : c.function.code.Declares names rest? keywords?)
    (hpassed : Entry.FileAll c.keywords passed) (hdistinct : (passed.map Prod.fst).Nodup)
    (hbind : c.bind s = .ok locals s') :
    s.Extends s' ∧ c.Distributes names rest? keywords? passed locals s' := by
  have hcases := plan_cases h (namedArguments_eq hpassed)
  -- binding has succeeded, so there was no problem
  cases hfault : c.fault? names rest? keywords? passed with
  | some e =>
      simp only [hfault] at hcases
      have hplanned : (Op.ofExcept c.plan : Op _) s = .error e s := by rw [hcases]; rfl
      rw [Call.bind, bind_of_error hplanned] at hbind
      cases hbind
  | none =>
      simp only [hfault] at hcases
      obtain ⟨bound, hplan, hplans⟩ := hcases
      obtain ⟨hdefaults, hrest, hnone⟩ := of_fault?_eq_none hfault
      obtain ⟨locals', s₁, hrun, hextends, hread⟩ := bind_eq hplan hplans.nodup s
      rw [hrun] at hbind
      cases hbind
      have hassigns := hplans.assigns hdefaults hdistinct hread
      exact ⟨hextends, hassigns, hassigns.existsUnique_argument hrest,
        hassigns.existsUnique_keyword hdistinct hnone⟩

/-- A call `f(1, b=2, a=9, k=4)` of a function `f(a, /, b, c=3, *rest, k, m=5, **extra)`. -/
theorem distributes_of_bind_mixed :
    let code : Code :=
      { name := "f"
        variableNames := ["a", "b", "c", "k", "m", "rest", "extra"]
        positionalOnly := 1
        positional := 2
        keywordOnly := 2
        flags := 0x0C }
    let f : Closure :=
      { code
        defaults := [.int 3]
        keywordDefaults := [⟨.str "m", .str "m" 0, .int 5⟩]
        snapshot := [("a", .none), ("free", .none)] }
    let names : Code.ParameterNames := ⟨["a"], ["b", "c"], ["k", "m"]⟩
    let passed : Bindings := [("b", .int 2), ("a", .int 9), ("k", .int 4)]
    let c : Call := ⟨f, [.int 1], passed.map fun (name, v) => ⟨.str name, .str name 1, v⟩⟩
    let s : Store := { nextId := 2 }
    let extra : Dict :=
      { entries := [⟨.str "a", .str "a" 3, .int 9⟩], index := [(.str "a", 0)] }
    let s' : Store := { nextId := 4, dicts := #[extra] }
    let locals : Bindings :=
      [("a", .int 1), ("free", .none), ("rest", .tuple [] 2), ("b", .int 2), ("c", .int 3),
        ("k", .int 4), ("m", .int 5), ("extra", .dict 0)]
    code.Declares names (some "rest") (some "extra") ∧ Entry.FileAll c.keywords passed ∧
      (passed.map Prod.fst).Nodup ∧ c.bind s = .ok locals s' ∧ s.Extends s' ∧
      c.Distributes names (some "rest") (some "extra") passed locals s' := by
  intro code f names passed c s extra s' locals
  have hdeclares : code.Declares names (some "rest") (some "extra") := by
    constructor
    case leading => exact List.prefix_refl _
    all_goals decide
  have hpassed : Entry.FileAll c.keywords passed :=
    List.forall₂_map_right_iff.mpr <| List.forall₂_same.mpr fun _ _ => ⟨rfl, ⟨1, rfl⟩, rfl⟩
  have hdistinct : (passed.map Prod.fst).Nodup := by decide
  have hbind : c.bind s = .ok locals s' := by cbv
  exact ⟨hdeclares, hpassed, hdistinct, hbind,
    distributes_of_bind hdeclares hpassed hdistinct hbind⟩

end Call

end Wordcode
