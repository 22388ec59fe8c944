import Wordcode.Machine.Binding
import Wordcode.Proofs.Association
import Wordcode.Proofs.Parameters
import Mathlib

namespace Wordcode

/-! # Binding arguments

What a call binds its parameters to. Parameters that no positional argument reaches are openings;
each takes the keyword argument of its name or its default, and since names are distinct, none takes
anything away from another one.

* `Call.openings` are the parameters that no positional argument reaches.
* `Call.foldlM_fill`: filling openings one after another gives each its own value.
* `Call.fault?` is the error of a call that does not bind.
* `Call.plan_cases`: a call is planned unless it is at fault, and what the plan binds.
-/

namespace Call

/-! ## Filling parameters -/

/-- The value of an opening under the given keyword arguments. -/
def Opening.value? (o : Opening) (passed : Bindings) : Option Value :=
  (if o.byKeyword then passed.lookup o.name else none).or o.default?

/-- The keyword arguments that no opening takes. -/
def leftover (os : List Opening) (passed : Bindings) : Bindings :=
  passed.filter fun e => !os.any fun o => o.byKeyword && o.name = e.1

/-- What the first parameter leaves of the keyword arguments is there for the others. -/
theorem leftover_cons (o : Opening) (os : List Opening) (passed : Bindings) :
    leftover (o :: os) passed = leftover os (leftover [o] passed) := by
  unfold leftover
  rw [List.filter_filter]
  refine List.filter_congr fun e _ => ?_
  simp [Bool.and_comm]

/-- Taking a keyword argument leaves the others. -/
theorem lookup_leftover_singleton {o : Opening} {name : String} (hname : name ≠ o.name)
    (passed : Bindings) : (leftover [o] passed).lookup name = passed.lookup name := by
  induction passed with
  | nil => rfl
  | cons e rest ih =>
      obtain ⟨n, v⟩ := e
      unfold leftover at ih ⊢
      rw [List.filter_cons]
      split
      · rw [Assoc.lookup_cons, Assoc.lookup_cons, ih]
      · rename_i htaken
        have hn : o.name = n := by
          simp only [List.any_cons, List.any_nil, Bool.or_false, Bool.not_eq_true,
            Bool.not_eq_false', Bool.and_eq_true, decide_eq_true_eq] at htaken
          exact htaken.2
        rw [ih, Assoc.lookup_cons, if_neg (hn ▸ hname)]

/-- An opening takes its value and its keyword argument, or is found missing. -/
theorem Progress.fill_eq (p : Progress) (o : Opening) :
    p.fill o = match o.value? p.unused with
      | some v => .ok ⟨Assoc.set p.bound o.name (.value v), leftover [o] p.unused⟩
      | none => .error o.missing := by
  unfold Progress.fill Opening.value?
  -- only an opening that takes keywords can use one up
  cases hby : o.byKeyword with
  | false =>
      have hleft : leftover [o] p.unused = p.unused := by simp [leftover, hby]
      cases o.default? <;> simp [Progress.bind, hleft]
  | true =>
      cases hlookup : p.unused.lookup o.name with
      | none =>
          have hleft : leftover [o] p.unused = p.unused := by
            refine List.filter_eq_self.mpr fun e he => ?_
            have hne : o.name ≠ e.1 := fun heq =>
              Assoc.lookup_eq_none_iff.mp hlookup (heq ▸ List.mem_map_of_mem he)
            simpa [hby] using hne
          cases o.default? <;> simp [Progress.take?, Progress.bind, hlookup, hleft]
      | some v =>
          have hleft : leftover [o] p.unused = Assoc.erase p.unused o.name := by
            refine List.filter_congr fun e _ => ?_
            simp [hby, eq_comm]
          simp [Progress.take?, Progress.bind, hlookup, hleft]

/-- Openings are filled: each has its value, and other variables stay as they are. -/
structure Fills (os : List Opening) (p : Progress) (bound : List (String × Slot)) : Prop where
  fills : ∀ o ∈ os, ∃ v, o.value? p.unused = some v ∧ bound.lookup o.name = some (.value v)
  keeps : ∀ name, name ∉ os.map Opening.name → bound.lookup name = p.bound.lookup name
  nodup : (p.bound.map Prod.fst).Nodup → (bound.map Prod.fst).Nodup

/-- Filling openings one after another gives each its own value, unless one is found missing. -/
theorem foldlM_fill {os : List Opening} (hnodup : (os.map Opening.name).Nodup) (p : Progress) :
    match os.find? fun o => (o.value? p.unused).isNone with
    | some o => os.foldlM Progress.fill p = .error o.missing
    | none => ∃ bound, os.foldlM Progress.fill p = .ok ⟨bound, leftover os p.unused⟩ ∧
        Fills os p bound := by
  induction os generalizing p with
  | nil => exact ⟨p.bound, by simp [leftover, pure, Except.pure], by simp, by simp, id⟩
  | cons o os ih =>
      rw [List.map_cons, List.nodup_cons] at hnodup
      have hstep := p.fill_eq o
      rw [List.find?_cons]
      cases hvalue : o.value? p.unused with
      | none =>
          rw [List.foldlM_cons, hstep, hvalue]
          rfl
      | some v =>
          -- what this opening takes is of no use to the others
          have hother : ∀ o' ∈ os, o'.value? (leftover [o] p.unused) = o'.value? p.unused := by
            intro o' ho'
            have hname : o'.name ≠ o.name := fun heq => hnodup.1 (heq ▸ List.mem_map_of_mem ho')
            rw [Opening.value?, Opening.value?, lookup_leftover_singleton hname]
          have hfind : (os.find? fun o' => (o'.value? (leftover [o] p.unused)).isNone) =
              os.find? fun o' => (o'.value? p.unused).isNone :=
            List.find?_congr fun o' ho' => by rw [hother o' ho']
          have hrest : (o :: os).foldlM Progress.fill p = os.foldlM Progress.fill
              ⟨Assoc.set p.bound o.name (.value v), leftover [o] p.unused⟩ := by
            rw [List.foldlM_cons, hstep, hvalue]
            rfl
          have hih := ih hnodup.2 ⟨Assoc.set p.bound o.name (.value v), leftover [o] p.unused⟩
          rw [hfind] at hih
          rw [hrest, leftover_cons o os]
          cases hmissing : os.find? fun o' => (o'.value? p.unused).isNone with
          | some o' => simpa [hmissing] using hih
          | none =>
              simp only [hmissing] at hih
              obtain ⟨bound, hrun, hfills⟩ := hih
              refine ⟨bound, ?_, ?_, ?_, ?_⟩
              · exact hrun
              · intro o' ho'
                rcases List.mem_cons.mp ho' with rfl | hmem
                · refine ⟨v, hvalue, ?_⟩
                  rw [hfills.keeps _ hnodup.1, Assoc.lookup_set, if_pos rfl]
                · obtain ⟨v', hv', hbound⟩ := hfills.fills o' hmem
                  exact ⟨v', (hother o' hmem).symm.trans hv', hbound⟩
              · intro name hname
                rw [List.map_cons, List.mem_cons, not_or] at hname
                rw [hfills.keeps name hname.2, Assoc.lookup_set, if_neg hname.1]
              · intro h
                exact hfills.nodup (Assoc.nodup_set h _ _)

/-- Parameters that are bound already stay as they are. -/
theorem foldlM_fillOpen_of_bound {os : List Opening} {p : Progress}
    (hbound : ∀ o ∈ os, (p.bound.lookup o.name).isSome) :
    os.foldlM Progress.fillOpen p = .ok p := by
  induction os with
  | nil => rfl
  | cons o os ih =>
      have hskip : p.fillOpen o = .ok p := if_pos (hbound o List.mem_cons_self)
      rw [List.foldlM_cons, hskip]
      exact ih fun o' ho' => hbound o' (List.mem_cons_of_mem o ho')

/-- Parameters that are not bound are filled. -/
theorem foldlM_fillOpen_of_open {os : List Opening} (hnodup : (os.map Opening.name).Nodup)
    {p : Progress} (hopen : ∀ o ∈ os, p.bound.lookup o.name = none) :
    os.foldlM Progress.fillOpen p = os.foldlM Progress.fill p := by
  induction os generalizing p with
  | nil => rfl
  | cons o os ih =>
      rw [List.map_cons, List.nodup_cons] at hnodup
      have hfill : p.fillOpen o = p.fill o := by
        rw [Progress.fillOpen, hopen o List.mem_cons_self]
        rfl
      rw [List.foldlM_cons, List.foldlM_cons, hfill, p.fill_eq o]
      -- filling one opening leaves the others open, the names being distinct
      cases o.value? p.unused with
      | none => rfl
      | some v =>
          refine ih hnodup.2 fun o' ho' => ?_
          have hname : o'.name ≠ o.name := fun heq => hnodup.1 (heq ▸ List.mem_map_of_mem ho')
          rw [Assoc.lookup_set, if_neg hname]
          exact hopen o' (List.mem_cons_of_mem o ho')

/-- The first parameters stay as they are, the others are filled. -/
theorem foldlM_fillOpen {os : List Opening} (hnodup : (os.map Opening.name).Nodup) {p : Progress}
    (n : Nat) (hbound : ∀ o ∈ os.take n, (p.bound.lookup o.name).isSome)
    (hopen : ∀ o ∈ os.drop n, p.bound.lookup o.name = none) :
    os.foldlM Progress.fillOpen p = (os.drop n).foldlM Progress.fill p := by
  have hdrop : ((os.drop n).map Opening.name).Nodup :=
    hnodup.sublist ((List.drop_sublist n os).map _)
  rw [← foldlM_fillOpen_of_open hdrop hopen]
  conv_lhs => rw [← List.take_append_drop n os, List.foldlM_append, foldlM_fillOpen_of_bound hbound]
  rfl

/-! ## Parameters of a call -/

/-- The parameters that no positional argument reaches. -/
def openings (c : Call) (names : Code.ParameterNames) : List Opening :=
  (c.positionalOpenings names).drop c.arguments.length ++ c.keywordOpenings names

/-- There is an opening for each positional parameter. -/
theorem getElem?_positionalOpenings (c : Call) (names : Code.ParameterNames) (i : Nat) :
    (c.positionalOpenings names)[i]? =
      (names.anyPositional[i]?).map fun name => c.positionalOpening names name i := by
  simp only [positionalOpenings, List.getElem?_map, List.getElem?_zipIdx, Option.map_map,
    Function.comp_def, Nat.zero_add]

theorem names_positionalOpenings (c : Call) (names : Code.ParameterNames) :
    (c.positionalOpenings names).map Opening.name = names.anyPositional := by
  refine List.ext_getElem? fun i => ?_
  simp [getElem?_positionalOpenings, positionalOpening, Function.comp_def]

theorem names_keywordOpenings (c : Call) (names : Code.ParameterNames) :
    (c.keywordOpenings names).map Opening.name = names.keywordOnly := by
  simp [keywordOpenings, keywordOpening, Function.comp_def]

/-- Parameters that are open are the positional ones without an argument and the keyword-only ones.
-/
theorem names_openings (c : Call) (names : Code.ParameterNames) :
    (c.openings names).map Opening.name =
      names.anyPositional.drop c.arguments.length ++ names.keywordOnly := by
  rw [openings, List.map_append, List.map_drop, names_positionalOpenings, names_keywordOpenings]

/-- Each opening is that of a positional parameter without an argument, or of a keyword-only one. -/
theorem mem_openings {c : Call} {names : Code.ParameterNames} {o : Opening} :
    o ∈ c.openings names ↔
      (∃ i name, c.arguments.length ≤ i ∧ names.anyPositional[i]? = some name ∧
        o = c.positionalOpening names name i) ∨
      ∃ name ∈ names.keywordOnly, o = c.keywordOpening name := by
  rw [openings, List.mem_append]
  refine or_congr ⟨fun hmem => ?_, ?_⟩ ?_
  · obtain ⟨i, hi⟩ := List.mem_iff_getElem?.mp hmem
    rw [List.getElem?_drop, getElem?_positionalOpenings, Option.map_eq_some_iff] at hi
    obtain ⟨name, hname, rfl⟩ := hi
    exact ⟨c.arguments.length + i, name, Nat.le_add_right _ _, hname, rfl⟩
  · rintro ⟨i, name, hi, hname, rfl⟩
    refine List.mem_iff_getElem?.mpr ⟨i - c.arguments.length, ?_⟩
    rw [List.getElem?_drop, Nat.add_sub_cancel' hi, getElem?_positionalOpenings, hname]
    rfl
  · simp [keywordOpenings, eq_comm]

/-- Openings have names of parameters. -/
theorem mem_names_openings {c : Call} {names : Code.ParameterNames} {name : String}
    (hmem : name ∈ (c.openings names).map Opening.name) :
    name ∈ names.anyPositional ++ names.keywordOnly := by
  rw [names_openings] at hmem
  exact ((List.drop_sublist _ _).append_right _).subset hmem

/-! ## Binding positional arguments -/

/-- A positional parameter has the argument at its place. -/
theorem lookup_direct {c : Call} {names : Code.ParameterNames}
    (hnodup : names.anyPositional.Nodup) (name : String) :
    (c.direct names).lookup name =
      ((names.anyPositional.zip c.arguments).lookup name).map Slot.value := by
  have hnew := hnodup.sublist (Assoc.names_zip_prefix names.anyPositional c.arguments).sublist
  rw [← Assoc.names_map Slot.value] at hnew
  rw [direct, Assoc.lookup_setAll hnew, Assoc.lookup_map]
  exact Option.or_none

/-- A positional parameter has the argument in its place, if there is one. -/
theorem lookup_collected {c : Call} {names : Code.ParameterNames} {rest? : Option String}
    (hnodup : (names.anyPositional ++ rest?.toList).Nodup) {i : Nat} {name : String}
    (hname : names.anyPositional[i]? = some name) :
    (c.collected names rest?).lookup name = (c.arguments[i]?).map Slot.value := by
  rw [List.nodup_append] at hnodup
  obtain ⟨hpositional, -, hdisjoint⟩ := hnodup
  have hdirect := lookup_direct (c := c) hpositional name
  rw [Assoc.lookup_zip hpositional c.arguments hname] at hdirect
  cases rest? with
  | none => exact hdirect
  | some rest =>
      have hne : name ≠ rest :=
        hdisjoint name (List.mem_of_getElem? hname) rest (by simp)
      rw [collected, Assoc.lookup_set, if_neg hne, hdirect]

/-- The rest has the arguments that are too many. -/
theorem lookup_collected_rest {c : Call} {names : Code.ParameterNames} {rest : String} :
    (c.collected names (some rest)).lookup rest =
      some (.rest (c.arguments.drop names.anyPositional.length)) := by
  rw [collected, Assoc.lookup_set, if_pos rfl]

/-- Nothing else is bound by positional arguments. -/
theorem lookup_collected_other {c : Call} {names : Code.ParameterNames} {rest? : Option String}
    (hpositional : names.anyPositional.Nodup) {name : String}
    (hname : name ∉ names.anyPositional ++ rest?.toList) :
    (c.collected names rest?).lookup name = none := by
  rw [List.mem_append, not_or] at hname
  have hnone : (c.direct names).lookup name = none := by
    have hzip : name ∉ (names.anyPositional.zip c.arguments).map Prod.fst := fun hmem =>
      hname.1 ((Assoc.names_zip_prefix _ _).subset hmem)
    rw [lookup_direct hpositional, Assoc.lookup_eq_none_iff.mpr hzip]
    rfl
  cases rest? with
  | none => exact hnone
  | some rest =>
      have hne : name ≠ rest := by simpa using hname.2
      rw [collected, Assoc.lookup_set, if_neg hne, hnone]

/-- What is collected has a slot of its own. -/
theorem nodup_collected (c : Call) (names : Code.ParameterNames) (rest? : Option String) :
    ((c.collected names rest?).map Prod.fst).Nodup := by
  have hnil : (([] : List (String × Slot)).map Prod.fst).Nodup := List.nodup_nil
  have hdirect : ((c.direct names).map Prod.fst).Nodup := Assoc.nodup_setAll hnil _
  cases rest? with
  | none => exact hdirect
  | some rest => exact Assoc.nodup_set hdirect _ _

/-! ## The plan -/

/-- The error of a call, or none if it binds. -/
def fault? (c : Call) (names : Code.ParameterNames) (rest? keywords? : Option String)
    (passed : Bindings) : Option Failure :=
  if c.function.defaults.length > names.anyPositional.length then some (c.excessDefaults names)
  else if c.arguments.length > names.anyPositional.length ∧ rest? = none then
    some (c.excess names)
  else
    match (c.openings names).find? fun o => (o.value? passed).isNone with
    | some o => some o.missing
    | none =>
      match keywords? with
      | some _ => none
      | none => (leftover (c.openings names) passed).head?.map fun e => c.unexpected names e.1

/-- What a successful plan binds: every declared name, and nothing else. -/
structure Plans (c : Call) (names : Code.ParameterNames) (rest? keywords? : Option String)
    (passed : Bindings) (bound : List (String × Slot)) : Prop where
  direct : ∀ {i : Nat} {name : String} {v : Value},
    names.anyPositional[i]? = some name → c.arguments[i]? = some v →
      bound.lookup name = some (.value v)
  opened : ∀ o ∈ c.openings names, ∃ v, o.value? passed = some v ∧
    bound.lookup o.name = some (.value v)
  rest : ∀ name ∈ rest?,
    bound.lookup name = some (.rest (c.arguments.drop names.anyPositional.length))
  keywords : ∀ name ∈ keywords?,
    bound.lookup name = some (.keywords (leftover (c.openings names) passed))
  others : ∀ name ∉ names.all rest? keywords?, bound.lookup name = none
  nodup : (bound.map Prod.fst).Nodup

/-- Filling the parameters that positional arguments leave open. -/
theorem foldlM_openings {c : Call} {names : Code.ParameterNames} {rest? : Option String}
    (hnodup : (names.anyPositional ++ rest?.toList).Nodup) (passed : Bindings) :
    ((c.positionalOpenings names).foldlM Progress.fillOpen ⟨c.collected names rest?, passed⟩ >>=
        fun p => (c.keywordOpenings names).foldlM Progress.fill p) =
      (c.openings names).foldlM Progress.fill ⟨c.collected names rest?, passed⟩ := by
  have hnames : ((c.positionalOpenings names).map Opening.name).Nodup := by
    rw [names_positionalOpenings]
    exact hnodup.sublist (List.sublist_append_left _ _)
  have hlookup : ∀ {i : Nat} {o : Opening}, (c.positionalOpenings names)[i]? = some o →
      (c.collected names rest?).lookup o.name = (c.arguments[i]?).map Slot.value := by
    intro i o ho
    refine lookup_collected hnodup ?_
    rw [← names_positionalOpenings c, List.getElem?_map, ho]
    rfl
  -- exactly the parameters that positional arguments reach are bound before
  have hbound : ∀ o ∈ (c.positionalOpenings names).take c.arguments.length,
      ((c.collected names rest?).lookup o.name).isSome := by
    intro o ho
    obtain ⟨i, hi⟩ := List.mem_iff_getElem?.mp ho
    rw [List.getElem?_take] at hi
    split at hi
    · rename_i hlt
      simp [hlookup hi, hlt]
    · simp at hi
  have hopen : ∀ o ∈ (c.positionalOpenings names).drop c.arguments.length,
      (c.collected names rest?).lookup o.name = none := by
    intro o ho
    obtain ⟨i, hi⟩ := List.mem_iff_getElem?.mp ho
    rw [List.getElem?_drop] at hi
    simp [hlookup hi]
  rw [foldlM_fillOpen hnames c.arguments.length hbound hopen, openings, List.foldlM_append]

section

variable {c : Call} {names : Code.ParameterNames} {rest? keywords? : Option String}
  {passed : Bindings} (h : c.function.code.Declares names rest? keywords?)
include h

/-- The positional parameters and the rest have different names. -/
theorem nodup_positional_rest : (names.anyPositional ++ rest?.toList).Nodup :=
  h.nodup.sublist (((List.sublist_append_left _ _).append (List.Sublist.refl _)).trans
    (List.sublist_append_left _ _))

/-- The plan of a call, once its keyword arguments have been read: the checks in their order, and
then the openings. -/
theorem plan_eq (hpassed : c.namedArguments = .ok passed) :
    c.plan =
      if c.function.defaults.length > names.anyPositional.length then
        .error (c.excessDefaults names)
      else if c.arguments.length > names.anyPositional.length ∧ rest? = none then
        .error (c.excess names)
      else
        (c.openings names).foldlM Progress.fill ⟨c.collected names rest?, passed⟩ >>=
          c.settle names keywords? := by
  have hbind : ∀ {α β : Type} (a : α) (f : α → Except Failure β), (Except.ok a >>= f) = f a :=
    fun _ _ => rfl
  have hexcess : (decide (c.arguments.length > names.anyPositional.length) &&
      !rest?.isSome) = true ↔ c.arguments.length > names.anyPositional.length ∧ rest? = none := by
    simp
  rw [← foldlM_openings (nodup_positional_rest h)]
  unfold plan
  simp only [h.parameterNames_eq, hpassed, h.restName_eq, h.keywordsName_eq, h.hasRest, hbind,
    hexcess, bind_assoc]
  -- both sides make the same checks, in this order
  split
  · rfl
  · split <;> rfl

/-- Openings have different names. -/
theorem nodup_openings : ((c.openings names).map Opening.name).Nodup := by
  rw [names_openings]
  refine h.nodup.sublist ?_
  exact (((List.drop_sublist _ _).append_right _).trans (List.sublist_append_left _ _)).trans
    (List.sublist_append_left _ _)

/-- A parameter that a positional argument reaches is not open. -/
theorem not_mem_names_openings {i : Nat} {name : String}
    (hname : names.anyPositional[i]? = some name) (hi : i < c.arguments.length) :
    name ∉ (c.openings names).map Opening.name := by
  rw [names_openings, List.mem_append, not_or]
  refine ⟨fun hmem => ?_, h.not_mem_keywordOnly (List.mem_of_getElem? hname)⟩
  obtain ⟨j, hj⟩ := List.mem_iff_getElem?.mp hmem
  rw [List.getElem?_drop] at hj
  have hlt : i < names.anyPositional.length := (List.getElem?_eq_some_iff.mp hname).1
  have heq := (List.getElem?_inj hlt h.nodup_anyPositional).mp (hname.trans hj.symm)
  omega

/-- Filled parameters together with the slot for keyword arguments make a plan. -/
theorem Fills.plans {bound final : List (String × Slot)}
    (hfills : Fills (c.openings names) ⟨c.collected names rest?, passed⟩ bound)
    (hkeeps : ∀ name ∉ keywords?, final.lookup name = bound.lookup name)
    (hkeywords : ∀ name ∈ keywords?,
      final.lookup name = some (.keywords (leftover (c.openings names) passed)))
    (hnodup : (final.map Prod.fst).Nodup) : Plans c names rest? keywords? passed final := by
  -- setting the slot for keyword arguments leaves all other parameters as they are
  have hslot : ∀ name ∈ names.anyPositional ++ names.keywordOnly, name ∉ keywords? :=
    fun name hname => h.not_mem_keywords (List.mem_append_left _ hname)
  constructor
  case direct =>
    intro i name v hname hv
    have hi : i < c.arguments.length := (List.getElem?_eq_some_iff.mp hv).1
    have hmem := List.mem_of_getElem? hname
    rw [hkeeps name (hslot name (List.mem_append_left _ hmem)),
      hfills.keeps name (not_mem_names_openings h hname hi),
      lookup_collected (nodup_positional_rest h) hname, hv]
    rfl
  case opened =>
    intro o ho
    obtain ⟨v, hv, hbound⟩ := hfills.fills o ho
    have hname := mem_names_openings (List.mem_map_of_mem ho)
    exact ⟨v, hv, (hkeeps o.name (hslot o.name hname)).trans hbound⟩
  case rest =>
    intro name hname
    have hopen : name ∉ (c.openings names).map Opening.name := fun hmem =>
      h.not_mem_rest (mem_names_openings hmem) hname
    have hkept := hkeeps name
      (h.not_mem_keywords (List.mem_append_right _ (Option.mem_toList.mpr hname)))
    rw [hkept, hfills.keeps name hopen]
    obtain rfl : rest? = some name := hname
    exact lookup_collected_rest
  case keywords => exact hkeywords
  case others =>
    intro name hname
    simp only [Code.ParameterNames.all, List.mem_append, Option.mem_toList, not_or] at hname
    obtain ⟨⟨⟨hpositional, honly⟩, hrest⟩, hlast⟩ := hname
    have hopen : name ∉ (c.openings names).map Opening.name := fun hmem =>
      (List.mem_append.mp (mem_names_openings hmem)).elim hpositional honly
    rw [hkeeps name hlast, hfills.keeps name hopen]
    exact lookup_collected_other h.nodup_anyPositional (by simp [hpositional, hrest])
  case nodup => exact hnodup

/-- A plan exists unless the call is at fault, and binds every parameter. -/
theorem plan_cases (hpassed : c.namedArguments = .ok passed) :
    match c.fault? names rest? keywords? passed with
    | some e => c.plan = .error e
    | none => ∃ bound, c.plan = .ok bound ∧ Plans c names rest? keywords? passed bound := by
  -- planning tests the defaults, the number of arguments and the openings, in this order
  rw [plan_eq h hpassed]
  unfold fault?
  by_cases hdefaults : c.function.defaults.length > names.anyPositional.length
  · simp only [if_pos hdefaults]
  by_cases hexcess : c.arguments.length > names.anyPositional.length ∧ rest? = none
  · simp only [if_neg hdefaults, if_pos hexcess]
  simp only [if_neg hdefaults, if_neg hexcess]
  have hfill := foldlM_fill (nodup_openings h) ⟨c.collected names rest?, passed⟩
  cases hmissing : (c.openings names).find? fun o => (o.value? passed).isNone with
  | some o =>
      simp only [hmissing] at hfill
      simp only [hfill]
      rfl
  | none =>
      simp only [hmissing] at hfill
      obtain ⟨bound, hrun, hfills⟩ := hfill
      have hnodup := hfills.nodup (nodup_collected c names rest?)
      rw [hrun]
      cases keywords? with
      | some name =>
          refine ⟨_, rfl, hfills.plans h ?_ ?_ (Assoc.nodup_set hnodup _ _)⟩
          · intro other hother
            have hne : other ≠ name := fun heq => hother (heq ▸ rfl)
            exact (Assoc.lookup_set _ _ _ _).trans (if_neg hne)
          · rintro _ ⟨⟩
            exact (Assoc.lookup_set _ _ _ _).trans (if_pos rfl)
      | none =>
          have hplans := hfills.plans h (fun _ _ => rfl) (by simp) hnodup
          cases hleft : leftover (c.openings names) passed with
          | nil => exact ⟨bound, rfl, hplans⟩
          | cons e es => rfl

end

end Call

end Wordcode
