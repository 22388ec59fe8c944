import Wordcode.Proofs.Ledger
import Wordcode.Proofs.Sequence
import Mathlib

namespace Wordcode

/-! # Known data

Taking data apart and putting it together leaves it known: lists, dicts, slices and the
arguments of calls.

* `Known.setKey` and its like are about one operation each.
* `Call.known_plan`: a call binds what it is given, and what the function has.
-/

/-! ## Lists -/

section

variable {α β : Type} [HasReferences α] [HasReferences β] {S : Ledger}

@[grind ←]
theorem Known.take {l : List α} (h : Known S l) (n : Nat) : Known S (l.take n) :=
  h.subset (List.take_subset n l)

@[grind ←]
theorem Known.drop {l : List α} (h : Known S l) (n : Nat) : Known S (l.drop n) :=
  h.subset (List.drop_subset n l)

@[grind ←]
theorem Known.eraseIdx {l : List α} (h : Known S l) (i : Nat) : Known S (l.eraseIdx i) :=
  h.subset fun _ ha => List.mem_of_mem_eraseIdx ha

@[simp, grind =]
theorem known_reverse (l : List α) : Known S l.reverse ↔ Known S l := by
  simp [known_list]

/-- What a known list has at a place is known. -/
@[grind →]
theorem Known.of_getElem? {l : List α} (h : Known S l) {i : Nat} {a : α} (ha : l[i]? = some a) :
    Known S a :=
  known_list.mp h a (List.mem_of_getElem? ha)

/-- What a known association gives for a key is known. -/
theorem Known.of_lookup {κ : Type} [BEq κ] [LawfulBEq κ] [HasReferences κ] {l : List (κ × α)}
    (h : Known S l) {key : κ} {a : α} (ha : l.lookup key = some a) : Known S a := by
  obtain ⟨l₁, l₂, hl, -⟩ := List.lookup_eq_some_iff.mp ha
  rw [hl] at h
  simp only [known_append, known_cons, known_pair] at h
  exact h.2.1.2

@[grind →]
theorem Known.of_name {l : List (String × α)} (h : Known S l) {name : String} {a : α}
    (ha : l.lookup name = some a) : Known S a :=
  h.of_lookup ha

@[grind ←]
theorem Known.headD {l : List α} (h : Known S l) {a : α} (ha : Known S a) :
    Known S (l.headD a) := by
  cases l with
  | nil => exact ha
  | cons b l => exact ((known_cons b l).mp h).1

@[grind ←]
theorem Known.getD {l : List α} (h : Known S l) (i : Nat) {a : α} (ha : Known S a) :
    Known S (l.getD i a) := by
  rw [List.getD_eq_getElem?_getD]
  cases hget : l[i]? with
  | none => exact ha
  | some b => exact h.of_getElem? hget

@[grind ←]
theorem Known.set {l : List α} (h : Known S l) (i : Nat) {a : α} (ha : Known S a) :
    Known S (l.set i a) := by
  rw [known_list] at h ⊢
  intro b hb
  rcases List.mem_or_eq_of_mem_set hb with hb | rfl
  · exact h b hb
  · exact ha

@[grind ←]
theorem Known.insertIdx {l : List α} (h : Known S l) (i : Nat) {a : α} (ha : Known S a) :
    Known S (l.insertIdx i a) := by
  rw [known_list] at h ⊢
  intro b hb
  rcases List.eq_or_mem_of_mem_insertIdx hb with rfl | hb
  · exact ha
  · exact h b hb

/-- A function that keeps data known. -/
@[grind ←]
theorem Known.map {l : List α} (h : Known S l) {f : α → β}
    (hf : ∀ a, Known S a → Known S (f a)) : Known S (l.map f) := by
  rw [known_list] at h ⊢
  intro b hb
  obtain ⟨a, ha, rfl⟩ := List.mem_map.mp hb
  exact hf a (h a ha)

@[grind ←]
theorem Known.zip {l : List α} {l' : List β} (h : Known S l) (h' : Known S l') :
    Known S (l.zip l') := by
  rw [known_list]
  rintro ⟨a, b⟩ hab
  obtain ⟨ha, hb⟩ := List.of_mem_zip hab
  exact (known_pair a b).mpr ⟨known_list.mp h a ha, known_list.mp h' b hb⟩

/-- Putting data together piece by piece. -/
theorem Known.foldl {f : β → α → β} (hf : ∀ b a, Known S b → Known S a → Known S (f b a))
    {as : List α} (has : Known S as) {b : β} (hb : Known S b) : Known S (as.foldl f b) := by
  induction as generalizing b with
  | nil => exact hb
  | cons a as ih =>
      rw [known_cons] at has
      exact ih has.2 (hf b a hb has.1)

theorem known_flatten {runs : List (List α)} (h : Known S runs) : Known S runs.flatten := by
  rw [known_list] at h ⊢
  intro a ha
  obtain ⟨run, hrun, ha⟩ := List.mem_flatten.mp ha
  exact known_list.mp (h run hrun) a ha

theorem known_toArray {xs : List α} (h : Known S xs) : Known S xs.toArray := by
  rw [known_list] at h
  exact known_array.mpr fun a ha => h a (by simpa using ha)

theorem Known.of_toArray {xs : List α} (h : Known S xs) {i : Nat} {a : α}
    (ha : xs.toArray[i]? = some a) : Known S a :=
  h.of_getElem? (by simpa using ha)

@[grind ←]
theorem Known.entry? {xs : Array α} (h : Known S xs) (i : Nat) : Known S xs[i]? :=
  known_option.mpr fun a ha => known_array.mp h a (Array.mem_of_getElem? ha)

theorem known_push {xs : Array α} {a : α} (hxs : Known S xs)
    (ha : Known S a) : Known S (xs.push a) := by
  rw [known_array] at hxs ⊢
  intro b hb
  rcases Array.mem_push.mp hb with hb | rfl
  · exact hxs b hb
  · exact ha

theorem known_mapArray {xs : Array α} {f : α → β} (hxs : Known S xs)
    (hf : ∀ a, Known S a → Known S (f a)) : Known S (xs.map f) := by
  rw [known_array] at hxs ⊢
  intro b hb
  obtain ⟨a, ha, rfl⟩ := Array.mem_map.mp hb
  exact hf a (hxs a ha)

theorem known_setIfInBounds {xs : Array α} {a : α} (hxs : Known S xs)
    (ha : Known S a) (i : Nat) : Known S (xs.setIfInBounds i a) := by
  rw [known_array] at hxs ⊢
  intro b hb
  rcases Array.mem_or_eq_of_mem_setIfInBounds hb with hb | rfl
  · exact hxs b hb
  · exact ha

theorem known_modify {xs : Array α} {f : α → α} (hxs : Known S xs)
    (hf : ∀ a, Known S a → Known S (f a)) (i : Nat) : Known S (xs.modify i f) := by
  rw [known_array] at hxs ⊢
  intro b hb
  obtain ⟨j, hj, rfl⟩ := Array.mem_iff_getElem.mp hb
  rw [Array.getElem_modify]
  split
  · exact hf _ (hxs _ (Array.getElem_mem _))
  · exact hxs _ (Array.getElem_mem _)

end

/-! ## Dicts -/

section

variable {S : Ledger}

/-- What a known dict has for a key is known. -/
@[grind →]
theorem Known.of_find? {d : Dict} (h : Known S d) {hash : HashKey} {v : Value}
    (hv : d.find? hash = some v) : Known S v := by
  unfold Dict.find? at hv
  split at hv
  · obtain ⟨e, he, rfl⟩ := Option.map_eq_some_iff.mp hv
    exact (known_entry.mp (Known.of_getElem? h he)).2
  · cases hv

/-- A known dict with a known key and value. -/
@[grind ←]
theorem Known.setKey {d : Dict} (h : Known S d) (hash : HashKey) {key value : Value}
    (hkey : Known S key) (hvalue : Known S value) : Known S (d.set hash key value) := by
  unfold Dict.set
  split
  · rw [known_dict, known_list]
    intro e he
    obtain ⟨j, hj, rfl⟩ := List.mem_iff_getElem.mp he
    rw [List.getElem_modify]
    have hold := known_entry.mp (known_list.mp h _ (List.getElem_mem (by simpa using hj)))
    split
    · exact known_entry.mpr ⟨hold.1, hvalue⟩
    · exact known_entry.mpr hold
  · simp_all

/-- A known dict with known entries. -/
@[grind ←]
theorem Known.setAll {d : Dict} (h : Known S d) {entries : List Entry} (hnew : Known S entries) :
    Known S (d.setAll entries) :=
  Known.foldl (fun _ e hd he => hd.setKey e.hash (known_entry.mp he).1 (known_entry.mp he).2) hnew h

/-- What is taken out of a known dict, and what is left of it. -/
@[grind →]
theorem Known.of_remove? {d : Dict} (h : Known S d) {hash : HashKey} {p : Value × Dict}
    (hp : d.remove? hash = some p) : Known S p := by
  unfold Dict.remove? at hp
  obtain ⟨i, -, hp⟩ := Option.bind_eq_some_iff.mp hp
  obtain ⟨e, he, hp⟩ := Option.bind_eq_some_iff.mp hp
  obtain rfl := Option.some.inj hp
  rw [known_dict] at h
  exact (known_pair _ _).mpr ⟨(known_entry.mp (h.of_getElem? he)).2, h.eraseIdx i⟩

end

/-! ## Slices -/

section

variable {α : Type} [HasReferences α] {S : Ledger}

/-- Selected items come from the list. -/
@[grind →]
theorem Known.of_select {items selected : List α} {start stop step : Value} (h : Known S items)
    (hselect : Slice.select items start stop step = .ok selected) : Known S selected := by
  unfold Slice.select at hselect
  obtain ⟨positions, -, hselect⟩ := except_bind_eq_ok hselect
  cases hselect
  refine h.subset fun a ha => ?_
  obtain ⟨i, -, hi⟩ := List.mem_filterMap.mp ha
  exact List.mem_of_getElem? (by simpa using hi)

/-- So do the items that are left. -/
@[grind →]
theorem Known.of_delete {items rest : List Value} {start stop step : Value} (h : Known S items)
    (hdelete : Slice.delete items start stop step = .ok rest) : Known S rest := by
  unfold Slice.delete at hdelete
  obtain ⟨positions, -, hdelete⟩ := except_bind_eq_ok hdelete
  cases hdelete
  refine h.subset fun a ha => ?_
  obtain ⟨⟨b, i⟩, hmem, rfl⟩ := List.mem_map.mp ha
  exact (List.mem_zipIdx' (List.mem_of_mem_filter hmem)).2 ▸ List.getElem_mem _

/-- After an assignment, items come from the list or from the values. -/
@[grind →]
theorem Known.of_assign {items values new : List Value} {start stop step : Value}
    (h : Known S items) (hvalues : Known S values)
    (hassign : Slice.assign items start stop step values = .ok new) : Known S new := by
  unfold Slice.assign at hassign
  extract_lets replaced at hassign
  have hreplaced {n : Int64} (hn : replaced n = .ok new) : Known S new := by
    change (if n = 1 then _ else _) = _ at hn
    -- a plain slice is replaced as a whole, an extended one position by position
    split at hn
    · obtain ⟨first, -, hn⟩ := except_bind_eq_ok hn
      obtain ⟨last, -, hn⟩ := except_bind_eq_ok hn
      cases hn
      simp [h.take, h.drop, hvalues]
    · obtain ⟨positions, -, hn⟩ := except_bind_eq_ok hn
      dsimp only at hn
      split at hn
      · cases hn
      · cases hn
        refine known_toList.mpr (Known.foldl ?_ (.zip (known_list_inert positions) hvalues)
          (known_toArray h))
        rintro xs ⟨i, v⟩ hxs hpair
        exact known_setIfInBounds hxs ((known_pair i v).mp hpair).2 _
  split at hassign
  all_goals
    obtain ⟨n, -, hassign⟩ := except_bind_eq_ok hassign
    exact hreplaced hassign

end

/-! ## Names -/

section

variable {α : Type} [HasReferences α] {S : Ledger}

/-- Variables with another known one. -/
@[grind ←]
theorem Known.setName {l : List (String × α)} (h : Known S l) (name : String) {a : α}
    (ha : Known S a) : Known S (Assoc.set l name a) := by
  induction l with
  | nil => simpa [Assoc.set] using ha
  | cons p l ih =>
      rw [known_cons] at h
      unfold Assoc.set
      grind

@[grind ←]
theorem Known.eraseName {l : List (String × α)} (h : Known S l) (name : String) :
    Known S (Assoc.erase l name) :=
  h.subset fun _ hp => List.mem_of_mem_filter hp

theorem Known.setNames {l new : List (String × α)} (h : Known S l) (hnew : Known S new) :
    Known S (Assoc.setAll l new) :=
  Known.foldl (fun _ p hl hp => hl.setName p.1 ((known_pair p.1 p.2).mp hp).2) hnew h

end

/-! ## Arguments -/

namespace Call

variable {S : Ledger}

/-- What has been bound and what is left are known. -/
structure Progress.AllKnown (S : Ledger) (p : Progress) : Prop where
  bound : Known S p.bound
  unused : Known S p.unused

/-- A parameter is filled with an argument, which is known, or with its default. -/
theorem Progress.AllKnown.fill {p q : Progress} (h : p.AllKnown S) {o : Opening}
    (ho : Known S o.default?) (hfill : p.fill o = .ok q) : q.AllKnown S := by
  have hbind {v : Value} (hv : Known S v) : Known S (p.bind o.name (.value v)).bound :=
    h.bound.setName o.name (a := Slot.value v) hv
  unfold Progress.fill at hfill
  -- an opening is filled by a keyword or by its default
  split at hfill
  next q' htake =>
    cases hfill
    rw [Option.ite_none_right_eq_some] at htake
    obtain ⟨v, hv, rfl⟩ := Option.map_eq_some_iff.mp htake.2
    exact ⟨hbind (h.unused.of_lookup hv), h.unused.eraseName o.name⟩
  next =>
    split at hfill
    next v hv =>
      cases hfill
      exact ⟨hbind (known_option.mp ho v hv), h.unused⟩
    next => cases hfill

/-- A parameter that is still open is filled with its default. -/
theorem Progress.AllKnown.fillOpen {p q : Progress} (h : p.AllKnown S) {o : Opening}
    (ho : Known S o.default?) (hfill : p.fillOpen o = .ok q) : q.AllKnown S := by
  unfold Progress.fillOpen at hfill
  split at hfill
  · cases hfill
    exact h
  · exact h.fill ho hfill

/-- Filling one parameter after another. -/
theorem Progress.AllKnown.foldlM {step : Progress → Opening → Except Failure Progress}
    (hstep : ∀ {p q : Progress} {o : Opening}, p.AllKnown S → Known S o.default? →
      step p o = .ok q → q.AllKnown S) {os : List Opening} (hos : ∀ o ∈ os, Known S o.default?)
    {p q : Progress} (h : p.AllKnown S) (hfold : os.foldlM step p = .ok q) : q.AllKnown S := by
  induction os generalizing p with
  | nil =>
      cases hfold
      exact h
  | cons o os ih =>
      rw [List.foldlM_cons] at hfold
      obtain ⟨p', hfirst, hrest⟩ := except_bind_eq_ok hfold
      exact ih (fun o' ho' => hos o' (List.mem_cons_of_mem o ho'))
        (hstep h (hos o List.mem_cons_self) hfirst) hrest

/-- A pass over known data that only gives known data. -/
theorem known_of_forall₂ {α β : Type} [HasReferences α] [HasReferences β] {R : α → β → Prop}
    {as : List α} {bs : List β} (h : List.Forall₂ R as bs)
    (hR : ∀ a b, R a b → Known S a → Known S b) (has : Known S as) : Known S bs := by
  induction h with
  | nil => exact known_nil
  | cons hfirst _ ih =>
      rw [known_cons] at has ⊢
      exact ⟨hR _ _ hfirst has.1, ih has.2⟩

theorem known_namedArguments {c : Call} (h : Known S c.keywords) {passed : Bindings}
    (hpassed : c.namedArguments = .ok passed) : Known S passed := by
  refine known_of_forall₂ (mapM_eq_ok_iff.mp hpassed) (fun e p hp he => ?_) h
  split at hp
  · cases hp
    exact (known_pair _ _).mpr ⟨known_inert _, (known_entry.mp he).2⟩
  · cases hp

/-- The defaults of a known function are known. -/
theorem known_positionalOpenings {c : Call} (h : Known S c.function.defaults)
    (names : Code.ParameterNames) : ∀ o ∈ c.positionalOpenings names, Known S o.default? := by
  intro o ho
  obtain ⟨⟨name, i⟩, -, rfl⟩ := List.mem_map.mp ho
  rw [known_option]
  intro v hv
  exact h.of_getElem? ((Option.ite_none_right_eq_some.mp hv).2)

theorem known_keywordOpenings {c : Call} (h : Known S c.function.keywordDefaults)
    (names : Code.ParameterNames) : ∀ o ∈ c.keywordOpenings names, Known S o.default? := by
  intro o ho
  obtain ⟨name, -, rfl⟩ := List.mem_map.mp ho
  rw [known_option]
  intro v hv
  obtain ⟨e, he, rfl⟩ := Option.map_eq_some_iff.mp hv
  exact (known_entry.mp (known_list.mp h e (List.mem_of_find?_eq_some he))).2

/-- Arguments that are collected come from the call. -/
theorem known_collected {c : Call} (h : Known S c.arguments) (names : Code.ParameterNames)
    (rest? : Option String) : Known S (c.collected names rest?) := by
  have hdirect : Known S (c.direct names) := by
    refine Known.setNames known_nil (Known.map (Known.zip (known_list_inert _) h) ?_)
    rintro ⟨name, v⟩ hpair
    exact hpair
  unfold collected
  split
  · exact hdirect.setName _ (a := Slot.rest _) (h.drop _)
  · exact hdirect

/-- When binding succeeds, all slots hold known values. -/
theorem Progress.AllKnown.settle {c : Call} {p : Progress} (h : p.AllKnown S)
    {names : Code.ParameterNames} {keywords? : Option String} {bound : List (String × Slot)}
    (hsettle : c.settle names keywords? p = .ok bound) : Known S bound := by
  unfold Call.settle at hsettle
  split at hsettle
  · cases hsettle
    exact h.bound.setName _ (a := Slot.keywords _) h.unused
  · split at hsettle
    · cases hsettle
      exact h.bound
    · cases hsettle

/-- A plan binds variables to what the call is given, and to defaults. -/
theorem known_plan {c : Call} (h : Known S c) {bound : List (String × Slot)}
    (hplan : c.plan = .ok bound) : Known S bound := by
  obtain ⟨hfunction, harguments, hkeywords⟩ := known_call.mp h
  obtain ⟨hdefaults, hkeywordDefaults, -⟩ := known_closure.mp hfunction
  unfold plan at hplan
  obtain ⟨names, -, hplan⟩ := except_bind_eq_ok hplan
  obtain ⟨unused, hunused, hplan⟩ := except_bind_eq_ok hplan
  dsimp only at hplan
  by_cases htoo : c.function.defaults.length > names.anyPositional.length
  · rw [if_pos htoo] at hplan
    cases hplan
  rw [if_neg htoo] at hplan
  split at hplan
  · cases hplan
  -- first what is passed by position, then the parameters that are still open, in two passes
  obtain ⟨rest?, -, hplan⟩ := except_bind_eq_ok hplan
  obtain ⟨filled, hfilled, hplan⟩ := except_bind_eq_ok hplan
  obtain ⟨all, hall, hplan⟩ := except_bind_eq_ok hplan
  obtain ⟨keywords?, -, hsettle⟩ := except_bind_eq_ok hplan
  have hstart : Progress.AllKnown S ⟨c.collected names rest?, unused⟩ :=
    ⟨known_collected harguments names rest?, known_namedArguments hkeywords hunused⟩
  have hfirst := hstart.foldlM (fun hp ho => hp.fillOpen ho)
    (known_positionalOpenings hdefaults names) hfilled
  exact (hfirst.foldlM (fun hp ho => hp.fill ho)
    (known_keywordOpenings hkeywordDefaults names) hall).settle hsettle

end Call

end Wordcode
