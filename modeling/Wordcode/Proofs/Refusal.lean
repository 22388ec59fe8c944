import Wordcode.Proofs.Distribution
import Mathlib

namespace Wordcode

/-! # Calls that do not bind

A call fails to bind exactly when something is wrong with it, and of everything that is wrong the
error reports what comes first in a fixed order.

* `Call.Problem` lists what can be wrong, in this order, with the kind and the text of its error.
* `Call.Exhibits` says when a call has a problem; it knows nothing of how binding goes about it.
* `Call.bind_eq_error_iff`: binding fails with the error of the first problem, and only then.
-/

/-! ## First items -/

/-- The first item of a list that has a property at its position. -/
def FirstAt {α : Type} (xs : List α) (P : Nat → α → Prop) (a : α) : Prop :=
  ∃ i, xs[i]? = some a ∧ P i a ∧ ∀ j b, j < i → xs[j]? = some b → ¬P j b

theorem FirstAt.unique {α : Type} {xs : List α} {P : Nat → α → Prop} {a b : α}
    (ha : FirstAt xs P a) (hb : FirstAt xs P b) : a = b := by
  obtain ⟨i, hi, hPi, hbefore⟩ := ha
  obtain ⟨j, hj, hPj, hbefore'⟩ := hb
  rcases Nat.lt_trichotomy i j with hlt | rfl | hlt
  · exact absurd hPi (hbefore' i a hlt hi)
  · exact Option.some.inj (hi.symm.trans hj)
  · exact absurd hPj (hbefore j b hlt hj)

/-- Searching a list from a position on finds the first item of the whole list, when the items
before that position do not have the property. -/
theorem firstAt_of_find?_drop {α β : Type} {xs : List α} {f : Nat → α → β} {q : β → Bool}
    {P : Nat → α → Prop} {ys : List β} {n : Nat} {b : β}
    (hys : ∀ i : Nat, ys[i]? = (xs[i]?).map (f i))
    (hP : ∀ i a, xs[i]? = some a → (P i a ↔ n ≤ i ∧ q (f i a) = true))
    (hfind : (ys.drop n).find? q = some b) :
    ∃ i a, b = f i a ∧ FirstAt xs P a ∧ xs[i]? = some a := by
  rw [List.find?_eq_some_iff_getElem] at hfind
  obtain ⟨hq, k, hk, hget, hbefore⟩ := hfind
  have hitem : ∀ j : Nat, (ys.drop n)[j]? = (xs[n + j]?).map (f (n + j)) := by
    intro j
    rw [List.getElem?_drop, hys]
  have hfound := hitem k
  rw [List.getElem?_eq_getElem hk, hget] at hfound
  obtain ⟨a, ha, rfl⟩ := Option.map_eq_some_iff.mp hfound.symm
  refine ⟨n + k, a, rfl, ⟨n + k, ha, (hP _ a ha).mpr ⟨Nat.le_add_right n k, hq⟩, ?_⟩, ha⟩
  intro j c hj hc hPj
  obtain ⟨hle, hqj⟩ := (hP j c hc).mp hPj
  have hlt : j - n < k := by omega
  -- an earlier one would have been found
  have hearlier := hitem (j - n)
  rw [List.getElem?_eq_getElem (by omega), Nat.add_sub_cancel' hle, hc] at hearlier
  have hfalse := hbefore (j - n) hlt
  rw [Option.some.inj hearlier, hqj] at hfalse
  simp at hfalse

/-- A search that finds nothing. -/
theorem not_of_find?_drop_eq_none {α β : Type} {xs : List α} {f : Nat → α → β} {q : β → Bool}
    {P : Nat → α → Prop} {ys : List β} {n : Nat}
    (hys : ∀ i : Nat, ys[i]? = (xs[i]?).map (f i))
    (hP : ∀ i a, xs[i]? = some a → (P i a ↔ n ≤ i ∧ q (f i a) = true))
    (hfind : (ys.drop n).find? q = none) (a : α) : ¬FirstAt xs P a := by
  rintro ⟨i, hi, hPi, -⟩
  obtain ⟨hle, hq⟩ := (hP i a hi).mp hPi
  have hmem : f i a ∈ ys.drop n := by
    refine List.mem_iff_getElem?.mpr ⟨i - n, ?_⟩
    rw [List.getElem?_drop, Nat.add_sub_cancel' hle, hys, hi]
    rfl
  exact absurd hq (List.find?_eq_none.mp hfind _ hmem)

namespace Call

/-! ## Problems -/

/-- What can be wrong with a call, in the order in which it is reported. -/
inductive Problem
  /-- A keyword argument whose key is no string, but has the given type. -/
  | keywordType (typeName : String)
  /-- More defaults than positional parameters. -/
  | excessDefaults
  /-- More positional arguments than parameters, and no slot that collects them. -/
  | excessArguments
  /-- A positional parameter without a value. -/
  | missing (name : String)
  /-- A keyword-only parameter without a value. -/
  | missingKeywordOnly (name : String)
  /-- A keyword argument that fills no parameter, and no slot that collects it. -/
  | unexpected (key : String)

namespace Problem

/-- The place of a problem in the order. -/
def stage : Problem → Nat
  | keywordType _ => 0
  | excessDefaults => 1
  | excessArguments => 2
  | missing _ => 3
  | missingKeywordOnly _ => 4
  | unexpected _ => 5

/-- The kind of the error about a problem. -/
def kind : Problem → Fault.Kind
  | keywordType _ => .type
  | excessDefaults => .malformedCode
  | excessArguments => .arity
  | missing _ | missingKeywordOnly _ => .missingArgument
  | unexpected _ => .unexpectedKeyword

/-- The text of the error about a problem. -/
def message (c : Call) (names : Code.ParameterNames) : Problem → String
  | keywordType typeName => s!"keywords must be strings, not {typeName}"
  | excessDefaults =>
    s!"{c.function.code.name}() has {c.function.defaults.length} defaults for " ++
      s!"{names.anyPositional.length} positional parameters"
  | excessArguments =>
    excessText c.function.code.name names.anyPositional.length c.arguments.length
  | missing name => s!"{c.function.code.name}() missing required argument: '{name}'"
  | missingKeywordOnly name =>
    s!"{c.function.code.name}() missing required keyword-only argument: '{name}'"
  | unexpected key =>
    if names.positional.contains key then
      s!"{c.function.code.name}() got multiple values for argument '{key}'"
    else s!"{c.function.code.name}() got an unexpected keyword argument '{key}'"

end Problem

/-- The names of the keyword arguments, in the order of the call. -/
def keywordNames (c : Call) : List String := c.keywords.filterMap fun e => e.key.str?

/-- A positional parameter has no value: no argument reaches it, no keyword argument may fill it,
and the defaults, which belong to the last parameters, do not reach it either. -/
def Lacks (c : Call) (names : Code.ParameterNames) (i : Nat) (name : String) : Prop :=
  c.arguments.length ≤ i ∧ (names.positionalOnly.length ≤ i → name ∉ c.keywordNames) ∧
    i + c.function.defaults.length < names.anyPositional.length

/-- A keyword-only parameter has no value: neither a keyword argument nor a default. -/
def LacksKeyword (c : Call) (name : String) : Prop :=
  name ∉ c.keywordNames ∧ Entry.find? c.function.keywordDefaults (.str name) = none

/-- A call has a problem. -/
inductive Exhibits (c : Call) (names : Code.ParameterNames) (rest? keywords? : Option String) :
    Problem → Prop
  | keywordType {e : Entry} :
    FirstAt c.keywords (fun _ e => e.key.str? = none) e →
    Exhibits c names rest? keywords? (.keywordType e.key.typeName)
  | excessDefaults : names.anyPositional.length < c.function.defaults.length →
    Exhibits c names rest? keywords? .excessDefaults
  | excessArguments : names.anyPositional.length < c.arguments.length → rest? = none →
    Exhibits c names rest? keywords? .excessArguments
  | missing {name : String} : FirstAt names.anyPositional (c.Lacks names) name →
    Exhibits c names rest? keywords? (.missing name)
  | missingKeywordOnly {name : String} :
    FirstAt names.keywordOnly (fun _ name => c.LacksKeyword name) name →
    Exhibits c names rest? keywords? (.missingKeywordOnly name)
  | unexpected {key : String} :
    FirstAt c.keywordNames (fun _ key => c.takes names key = false) key → keywords? = none →
    Exhibits c names rest? keywords? (.unexpected key)

/-- A call has a problem, and none that is reported before it. -/
structure Reports (c : Call) (names : Code.ParameterNames) (rest? keywords? : Option String)
    (p : Problem) : Prop where
  exhibits : c.Exhibits names rest? keywords? p
  first : ∀ p', c.Exhibits names rest? keywords? p' → p.stage ≤ p'.stage

section

variable {c : Call} {names : Code.ParameterNames} {rest? keywords? : Option String}

/-- A call has at most one problem of each sort. -/
theorem Exhibits.unique {p p' : Problem} (h : c.Exhibits names rest? keywords? p)
    (h' : c.Exhibits names rest? keywords? p') (hstage : p.stage = p'.stage) : p = p' := by
  -- each stage has one kind of problem, which is the first of its kind
  cases h with
  | keywordType hfirst =>
      cases h' with
      | keywordType hfirst' => rw [hfirst.unique hfirst']
      | _ => simp [Problem.stage] at hstage
  | missing hfirst =>
      cases h' with
      | missing hfirst' => rw [hfirst.unique hfirst']
      | _ => simp [Problem.stage] at hstage
  | missingKeywordOnly hfirst =>
      cases h' with
      | missingKeywordOnly hfirst' => rw [hfirst.unique hfirst']
      | _ => simp [Problem.stage] at hstage
  | unexpected hfirst _ =>
      cases h' with
      | unexpected hfirst' _ => rw [hfirst.unique hfirst']
      | _ => simp [Problem.stage] at hstage
  | excessDefaults _ =>
      cases h' with
      | excessDefaults _ => rfl
      | _ => simp [Problem.stage] at hstage
  | excessArguments _ _ =>
      cases h' with
      | excessArguments _ _ => rfl
      | _ => simp [Problem.stage] at hstage

/-- A call reports one problem at most. -/
theorem Reports.unique {p p' : Problem} (h : c.Reports names rest? keywords? p)
    (h' : c.Reports names rest? keywords? p') : p = p' := by
  have hle := h.first p' h'.exhibits
  have hge := h'.first p h.exhibits
  exact h.exhibits.unique h'.exhibits (Nat.le_antisymm hle hge)

end

/-! ## Keyword arguments -/

/-- The first key that is no string stops reading the keyword arguments. -/
theorem namedArguments_cases (c : Call) :
    match c.keywords.find? fun e => e.key.str?.isNone with
    | some e => c.namedArguments =
        .error (.raise .type s!"keywords must be strings, not {e.key.typeName}")
    | none => ∃ passed, c.namedArguments = .ok passed ∧ passed.map Prod.fst = c.keywordNames := by
  unfold namedArguments keywordNames
  induction c.keywords with
  | nil => exact ⟨[], rfl, rfl⟩
  | cons e es ih =>
      obtain ⟨hash, key, value⟩ := e
      rw [List.find?_cons, List.mapM_cons]
      cases key with
      | str name id =>
          have hstring : (Value.str name id).str?.isNone = false := rfl
          simp only [hstring]
          -- the first key that is not a string stops the reading
          cases hfind : es.find? fun e => e.key.str?.isNone with
          | some e' =>
              simp only [hfind] at ih
              simp only [ih]
              rfl
          | none =>
              simp only [hfind] at ih
              obtain ⟨passed, hpassed, hnames⟩ := ih
              simp only [hpassed]
              exact ⟨(name, value) :: passed, rfl, congrArg (name :: ·) hnames⟩
      | _ => rfl

/-- A name without a keyword argument. -/
theorem lookup_eq_none_iff_keywordNames {c : Call} {passed : Bindings}
    (hnames : passed.map Prod.fst = c.keywordNames) {name : String} :
    passed.lookup name = none ↔ name ∉ c.keywordNames := by
  rw [Assoc.lookup_eq_none_iff, hnames]

section

variable {c : Call} {names : Code.ParameterNames} {rest? keywords? : Option String}
  {passed : Bindings} (hnames : passed.map Prod.fst = c.keywordNames)
include hnames

/-- A positional parameter is found missing exactly when it lacks a value. -/
theorem lacks_iff (hdefaults : c.function.defaults.length ≤ names.anyPositional.length) (i : Nat)
    (name : String) (hname : names.anyPositional[i]? = some name) :
    c.Lacks names i name ↔ c.arguments.length ≤ i ∧
      ((c.positionalOpening names name i).value? passed).isNone = true := by
  have hlt : i < names.anyPositional.length := (List.getElem?_eq_some_iff.mp hname).1
  -- defaults belong to the last positional parameters
  have hdefault : (c.positionalOpening names name i).default? = none ↔
      i + c.function.defaults.length < names.anyPositional.length := by
    simp only [positionalOpening]
    split
    · rw [List.getElem?_eq_none_iff]
      omega
    · simp only [true_iff]
      omega
  have hkeyword : (if (c.positionalOpening names name i).byKeyword then passed.lookup name
      else none) = none ↔ (names.positionalOnly.length ≤ i → name ∉ c.keywordNames) := by
    rw [← lookup_eq_none_iff_keywordNames hnames]
    simp [positionalOpening]
  unfold Lacks Opening.value?
  rw [Option.isNone_iff_eq_none, Option.or_eq_none_iff, hdefault]
  exact and_congr_right fun _ => and_congr_left fun _ => hkeyword.symm

/-- A keyword-only parameter is found missing exactly when it lacks a value. -/
theorem lacksKeyword_iff (name : String) :
    c.LacksKeyword name ↔ ((c.keywordOpening name).value? passed).isNone = true := by
  unfold LacksKeyword Opening.value?
  rw [Option.isNone_iff_eq_none, Option.or_eq_none_iff, ← lookup_eq_none_iff_keywordNames hnames]
  rfl

/-- The keyword argument that is left over first. -/
theorem firstAt_of_extras {e : String × Value}
    (hextra : (c.extras names passed).head? = some e) :
    FirstAt c.keywordNames (fun _ key => c.takes names key = false) e.1 := by
  have hfind : passed.find? (fun e => !c.takes names e.1) = some e := by
    rw [← hextra, extras, List.head?_filter]
  rw [List.find?_eq_some_iff_getElem] at hfind
  obtain ⟨hleft, i, hi, rfl, hbefore⟩ := hfind
  have hname : ∀ j : Nat, c.keywordNames[j]? = (passed[j]?).map Prod.fst := by
    intro j
    rw [← hnames, List.getElem?_map]
  refine ⟨i, ?_, by simpa using hleft, ?_⟩
  · rw [hname, List.getElem?_eq_getElem hi]
    rfl
  · intro j key hj hkey
    rw [hname, List.getElem?_eq_getElem (by omega)] at hkey
    obtain rfl := Option.some.inj hkey
    simpa using hbefore j hj

end

/-! ## Binding -/

section

variable {c : Call} {names : Code.ParameterNames} {rest? keywords? : Option String}

/-- A call has none of the problems that are reported before a place in the order. -/
def ClearBefore (c : Call) (names : Code.ParameterNames) (rest? keywords? : Option String)
    (n : Nat) : Prop :=
  ∀ p, c.Exhibits names rest? keywords? p → n ≤ p.stage

theorem clearBefore_zero : c.ClearBefore names rest? keywords? 0 :=
  fun _ _ => Nat.zero_le _

theorem ClearBefore.succ {n : Nat} (h : c.ClearBefore names rest? keywords? n)
    (hnone : ∀ p, c.Exhibits names rest? keywords? p → p.stage ≠ n) :
    c.ClearBefore names rest? keywords? (n + 1) := by
  intro p hp
  have hle := h p hp
  have hne := hnone p hp
  omega

theorem ClearBefore.missing (h : c.ClearBefore names rest? keywords? 3)
    (hnone : ∀ name, ¬FirstAt names.anyPositional (c.Lacks names) name) :
    c.ClearBefore names rest? keywords? 4 := by
  refine h.succ fun p hp hstage => ?_
  cases hp with
  | missing hfirst => exact hnone _ hfirst
  | _ => cases hstage

/-- When nothing else can be wrong and excess keyword arguments are collected, nothing is wrong. -/
theorem ClearBefore.not_exhibits {name : String}
    (h : c.ClearBefore names rest? (some name) 5) (p : Problem) :
    ¬c.Exhibits names rest? (some name) p := by
  intro hp
  have hstage := h p hp
  cases hp with
  | unexpected _ hcollect => cases hcollect
  | _ => simp [Problem.stage] at hstage

/-- When nothing else can be wrong, a call reports the keyword argument that is left over first. -/
theorem reports_of_extras {passed : Bindings} (hnames : passed.map Prod.fst = c.keywordNames)
    (h : c.ClearBefore names rest? none 5) :
    match (c.extras names passed).head? with
    | some e => c.Reports names rest? none (.unexpected e.1)
    | none => ∀ p, ¬c.Exhibits names rest? none p := by
  cases hextra : (c.extras names passed).head? with
  | some e => exact ⟨.unexpected (firstAt_of_extras hnames hextra) rfl, h⟩
  | none =>
      intro p hp
      have hstage := h p hp
      -- no other problem is left at this stage
      cases hp with
      | unexpected hfirst _ =>
          obtain ⟨i, hi, htakes, -⟩ := hfirst
          rw [← hnames, List.getElem?_map, Option.map_eq_some_iff] at hi
          obtain ⟨e, he, rfl⟩ := hi
          have hmem : e ∈ c.extras names passed := by
            simp [extras, htakes, List.mem_of_getElem? he]
          rw [List.head?_eq_none_iff.mp hextra] at hmem
          cases hmem
      | _ => simp [Problem.stage] at hstage

/-- The first key that is no string, if there is one. -/
theorem firstAt_keywords (c : Call) :
    match c.keywords.find? fun e => e.key.str?.isNone with
    | some e => FirstAt c.keywords (fun _ e => e.key.str? = none) e
    | none => ∀ e, ¬FirstAt c.keywords (fun _ e => e.key.str? = none) e := by
  have hitems : ∀ i : Nat, c.keywords[i]? = (c.keywords[i]?).map fun e => e := by simp
  have hproperty : ∀ (i : Nat) (e : Entry), c.keywords[i]? = some e →
      (e.key.str? = none ↔ 0 ≤ i ∧ e.key.str?.isNone = true) := by simp
  rw [← List.drop_zero (l := c.keywords)]
  cases hfind : (c.keywords.drop 0).find? fun e => e.key.str?.isNone with
  | some e =>
      obtain ⟨i, e, rfl, hfirst, -⟩ :=
        firstAt_of_find?_drop (f := fun _ e => e) hitems hproperty hfind
      exact hfirst
  | none => exact not_of_find?_drop_eq_none (f := fun _ e => e) hitems hproperty hfind

/-- The openings that are found missing are the parameters that lack a value. -/
theorem reports_of_missing (names : Code.ParameterNames) {passed : Bindings}
    (hnames : passed.map Prod.fst = c.keywordNames)
    (hdefaults : c.function.defaults.length ≤ names.anyPositional.length) :
    match (c.openings names).find? fun o => (o.value? passed).isNone with
    | some o =>
      (∃ name, o.missing = .raise .missingArgument ((Problem.missing name).message c names) ∧
        FirstAt names.anyPositional (c.Lacks names) name) ∨
      (∃ name, o.missing =
          .raise .missingArgument ((Problem.missingKeywordOnly name).message c names) ∧
        (∀ other, ¬FirstAt names.anyPositional (c.Lacks names) other) ∧
        FirstAt names.keywordOnly (fun _ name => c.LacksKeyword name) name)
    | none => (∀ name, ¬FirstAt names.anyPositional (c.Lacks names) name) ∧
        ∀ name, ¬FirstAt names.keywordOnly (fun _ name => c.LacksKeyword name) name := by
  have hpositional := lacks_iff hnames hdefaults
  have hkeywordOnly : ∀ (i : Nat) (name : String), names.keywordOnly[i]? = some name →
      (c.LacksKeyword name ↔
        0 ≤ i ∧ ((c.keywordOpening name).value? passed).isNone = true) := by
    intro i name _
    simpa using lacksKeyword_iff hnames name
  have hitems := getElem?_positionalOpenings c names
  have hitems' : ∀ i : Nat, (c.keywordOpenings names)[i]? =
      (names.keywordOnly[i]?).map c.keywordOpening := by
    intro i
    rw [keywordOpenings, List.getElem?_map]
  rw [openings, List.find?_append]
  -- positional parameters come first, so a keyword-only one is found only if they have values
  cases hfind : ((c.positionalOpenings names).drop c.arguments.length).find?
      fun o => (o.value? passed).isNone with
  | some o =>
      obtain ⟨i, name, rfl, hfirst, -⟩ := firstAt_of_find?_drop
        (f := fun i name => c.positionalOpening names name i) hitems hpositional hfind
      exact Or.inl ⟨name, rfl, hfirst⟩
  | none =>
      have hnone := not_of_find?_drop_eq_none
        (f := fun i name => c.positionalOpening names name i) hitems hpositional hfind
      rw [Option.none_or, ← List.drop_zero (l := c.keywordOpenings names)]
      cases hfind' : ((c.keywordOpenings names).drop 0).find?
          fun o => (o.value? passed).isNone with
      | some o =>
          obtain ⟨i, name, rfl, hfirst, -⟩ := firstAt_of_find?_drop
            (f := fun _ name => c.keywordOpening name) hitems' hkeywordOnly hfind'
          exact Or.inr ⟨name, rfl, hnone, hfirst⟩
      | none =>
          exact ⟨hnone, not_of_find?_drop_eq_none
            (f := fun _ name => c.keywordOpening name) hitems' hkeywordOnly hfind'⟩

/-- A call with string keys reports the problem that planning finds, and has none otherwise. -/
theorem reports_of_fault? (names : Code.ParameterNames) (rest? keywords? : Option String)
    {passed : Bindings} (hnames : passed.map Prod.fst = c.keywordNames)
    (hkeys : ∀ e, ¬FirstAt c.keywords (fun _ e => e.key.str? = none) e) :
    match c.fault? names rest? keywords? passed with
    | some e => ∃ p, c.Reports names rest? keywords? p ∧ e = .raise p.kind (p.message c names)
    | none => ∀ p, ¬c.Exhibits names rest? keywords? p := by
  -- the tests come in the order of the stages, and each one that is passed clears a stage
  have hclear₁ : c.ClearBefore names rest? keywords? 1 := by
    refine clearBefore_zero.succ fun p hp hstage => ?_
    cases hp with
    | keywordType hfirst => exact hkeys _ hfirst
    | _ => cases hstage
  unfold fault?
  by_cases hdefaults : c.function.defaults.length > names.anyPositional.length
  · rw [if_pos hdefaults]
    exact ⟨.excessDefaults, ⟨.excessDefaults hdefaults, hclear₁⟩, rfl⟩
  have hclear₂ : c.ClearBefore names rest? keywords? 2 := by
    refine hclear₁.succ fun p hp hstage => ?_
    cases hp with
    | excessDefaults hlt => exact hdefaults hlt
    | _ => cases hstage
  rw [if_neg hdefaults]
  by_cases hexcess : c.arguments.length > names.anyPositional.length ∧ rest? = none
  · rw [if_pos hexcess]
    exact ⟨.excessArguments, ⟨.excessArguments hexcess.1 hexcess.2, hclear₂⟩, rfl⟩
  have hclear₃ : c.ClearBefore names rest? keywords? 3 := by
    refine hclear₂.succ fun p hp hstage => ?_
    cases hp with
    | excessArguments hlt hrest => exact hexcess ⟨hlt, hrest⟩
    | _ => cases hstage
  rw [if_neg hexcess]
  have hmissing := reports_of_missing names hnames (Nat.le_of_not_lt hdefaults)
  cases hfind : (c.openings names).find? fun o => (o.value? passed).isNone with
  | some o =>
      simp only [hfind] at hmissing
      rcases hmissing with ⟨name, herror, hfirst⟩ | ⟨name, herror, hnone, hfirst⟩
      · exact ⟨.missing name, ⟨.missing hfirst, hclear₃⟩, herror⟩
      · exact ⟨.missingKeywordOnly name, ⟨.missingKeywordOnly hfirst, hclear₃.missing hnone⟩,
          herror⟩
  | none =>
      simp only [hfind] at hmissing
      obtain ⟨hpositional, hkeywordOnly⟩ := hmissing
      have hclear₅ : c.ClearBefore names rest? keywords? 5 := by
        refine (hclear₃.missing hpositional).succ fun p hp hstage => ?_
        cases hp with
        | missingKeywordOnly hfirst => exact hkeywordOnly _ hfirst
        | _ => cases hstage
      cases keywords? with
      | some name => exact hclear₅.not_exhibits
      | none =>
          have hextras := reports_of_extras hnames hclear₅
          rw [leftover_openings]
          cases hextra : (c.extras names passed).head? with
          | some e =>
              simp only [hextra] at hextras
              exact ⟨.unexpected e.1, hextras, rfl⟩
          | none =>
              simp only [hextra] at hextras
              exact hextras

/-- A call that is not planned reports a problem, and a call that is planned has none. -/
theorem reports_of_plan (h : c.function.code.Declares names rest? keywords?) :
    match c.plan with
    | .error e => ∃ p, c.Reports names rest? keywords? p ∧ e = .raise p.kind (p.message c names)
    | .ok bound => (∀ p, ¬c.Exhibits names rest? keywords? p) ∧ (bound.map Prod.fst).Nodup := by
  have hnamed := c.namedArguments_cases
  have hfirst := c.firstAt_keywords
  cases hkeys : c.keywords.find? fun e => e.key.str?.isNone with
  | some e =>
      simp only [hkeys] at hnamed hfirst
      have hplan : c.plan =
          .error (.raise .type s!"keywords must be strings, not {e.key.typeName}") := by
        unfold plan
        simp only [h.parameterNames_eq, hnamed]
        rfl
      rw [hplan]
      exact ⟨.keywordType e.key.typeName, ⟨.keywordType hfirst, fun _ _ => Nat.zero_le _⟩, rfl⟩
  | none =>
      simp only [hkeys] at hnamed hfirst
      obtain ⟨passed, hpassed, hnames⟩ := hnamed
      have hcases := plan_cases h hpassed
      have hreports := reports_of_fault? names rest? keywords? hnames hfirst
      -- once all keywords are strings the problems come in the order of the checks
      cases hfault : c.fault? names rest? keywords? passed with
      | some e =>
          simp only [hfault] at hcases hreports
          rw [hcases]
          exact hreports
      | none =>
          simp only [hfault] at hcases hreports
          obtain ⟨bound, hplan, hplans⟩ := hcases
          rw [hplan]
          exact ⟨hreports, hplans.nodup⟩

/-- A call fails to bind exactly when it has a problem, and then with the error of the problem that
comes first. It leaves the store alone. -/
theorem bind_eq_error_iff (h : c.function.code.Declares names rest? keywords?) {s s' : Store}
    {e : Failure} :
    c.bind s = .error e s' ↔
      s' = s ∧ ∃ p, c.Reports names rest? keywords? p ∧ e = .raise p.kind (p.message c names) := by
  have hreports := reports_of_plan h
  -- making the values never fails, so a refusal comes from the plan
  cases hplan : c.plan with
  | error e' =>
      simp only [hplan] at hreports
      obtain ⟨p, hp, rfl⟩ := hreports
      have hplanned : (Op.ofExcept c.plan : Op _) s =
          .error (.raise p.kind (p.message c names)) s := by rw [hplan]; rfl
      rw [Call.bind, bind_of_error hplanned]
      constructor
      · intro heq
        cases heq
        exact ⟨rfl, p, hp, rfl⟩
      · rintro ⟨rfl, p', hp', rfl⟩
        rw [hp.unique hp']
  | ok bound =>
      simp only [hplan] at hreports
      obtain ⟨hnone, hnodup⟩ := hreports
      obtain ⟨locals, s₁, hbind, -, -⟩ := bind_eq hplan hnodup s
      rw [hbind]
      constructor
      · intro heq
        cases heq
      · rintro ⟨-, p, hp, -⟩
        exact absurd hp.exhibits (hnone p)

end

/-- A call `f(1, b=2, z=3)` of a function `f(a, b, c, *, k)`: of the missing `c`, the missing `k`
and the unexpected `z`, the first is reported. -/
theorem bind_eq_error_iff_missing :
    let code : Code :=
      { name := "f", variableNames := ["a", "b", "c", "k"], positional := 3, keywordOnly := 1 }
    let names : Code.ParameterNames := ⟨[], ["a", "b", "c"], ["k"]⟩
    let c : Call :=
      ⟨{ code }, [.int 1], [⟨.str "b", .str "b" 0, .int 2⟩, ⟨.str "z", .str "z" 1, .int 3⟩]⟩
    let e : Failure := .raise .missingArgument "f() missing required argument: 'c'"
    code.Declares names none none ∧ c.bind {} = .error e {} ∧
      ∃ p, c.Reports names none none p ∧ e = .raise p.kind (p.message c names) := by
  intro code names c e
  have hdeclares : code.Declares names none none := by
    constructor
    case leading => exact List.prefix_refl _
    all_goals decide
  have hbind : c.bind {} = .error e {} := by cbv
  exact ⟨hdeclares, hbind, ((bind_eq_error_iff hdeclares).mp hbind).2⟩

end Call

end Wordcode
