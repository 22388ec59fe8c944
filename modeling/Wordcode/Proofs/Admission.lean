import Wordcode.Proofs.Sequence
import Wordcode.Proofs.Validation
import Wordcode.Store.Convert
import Mathlib

namespace Wordcode

/-! # Admission

What later uses of a code object may rely on once it was validated, and when validating itself can
be relied on. Counts are machine integers and are added up as such, so both are said of code objects
whose counts do not wrap around.

* `Code.Countable`: the counts add up in range.
* `Code.parameterProblems_cases`: then counting either finds a problem or the parameters are cut out
  of the variable names.
* `Code.exists_problems`: then validation comes to an end, whatever it finds.
* `Code.Usable` lists what an accepted code object gives, and `Code.usable_of_validate` finds it in
  the code object and in all nested ones.
-/

namespace Code

/-- The number of variable names that the counts and flags ask for. -/
def exactSlots (c : Code) : Int :=
  c.positionalOnly.toInt + c.positional.toInt + c.keywordOnly.toInt +
    (if c.hasRest then 1 else 0) + (if c.hasKeywords then 1 else 0)

/-- The counts add up without leaving the range of machine integers. -/
def Countable (c : Code) : Prop := c.exactSlots < 2 ^ 63

/-! ## Parameters -/

theorem toList_getElem? {α : Type} (xs : List α) (i : Nat) :
    xs[i]?.toList = (xs.drop i).take 1 := by
  rw [← List.head?_drop]
  cases xs.drop i <;> rfl

/-- Counts that the variable names have room for cut them into groups. -/
theorem exists_cuts {c : Code} {p q k : Nat} (hp : c.positionalOnly.toInt = p)
    (hq : c.positional.toInt = q) (hk : c.keywordOnly.toInt = k) (hcount : c.Countable)
    (hroom : c.exactSlots ≤ c.variableNames.length) :
    ∃ names rest? keywords?, c.Cuts names rest? keywords? := by
  let vars := c.variableNames
  let r := if c.hasRest then 1 else 0
  let w := if c.hasKeywords then 1 else 0
  have hexact : c.exactSlots = (p + q + k + r + w : Nat) := by
    simp only [exactSlots, hp, hq, hk, r, w]
    split_ifs <;> simp
  have hlength : p + q + k + r + w ≤ vars.length := by
    rw [hexact] at hroom
    exact Int.ofNat_le.mp hroom
  have hsmall : p + q + k + r + w < 2 ^ 63 := by
    unfold Countable at hcount
    omega
  -- a slot is the one name at its place, when there is one
  have hslot (flag : Bool) (i : Nat) : (if flag then vars[i]? else none).toList =
      (vars.drop i).take (if flag then 1 else 0) := by
    cases flag with
    | true => exact toList_getElem? vars i
    | false => simp
  have hsome (flag : Bool) {i : Nat} (hi : flag = true → i < vars.length) :
      flag = (if flag then vars[i]? else none).isSome := by
    cases flag with
    | true => simp [List.getElem?_eq_getElem (hi rfl)]
    | false => rfl
  let names : ParameterNames :=
    ⟨vars.take p, (vars.drop p).take q, (vars.drop (p + q)).take k⟩
  let rest? := if c.hasRest then vars[p + q + k]? else none
  let keywords? := if c.hasKeywords then vars[p + q + k + r]? else none
  have hall : names.all rest? keywords? = vars.take (p + q + k + r + w) := by
    rw [ParameterNames.all, ParameterNames.anyPositional, hslot, hslot, List.take_add,
      List.take_add, List.take_add, List.take_add]
  refine ⟨names, rest?, keywords?, ?_, ?_, ?_, ?_, ?_, ?_, ?_⟩
  · rw [hp, List.length_take_of_le (by omega)]
  · rw [hq, List.length_take_of_le (by simp; omega)]
  · rw [hk, List.length_take_of_le (by simp; omega)]
  · exact hsome c.hasRest fun hrest => by
      have hr : r = 1 := by simp [r, hrest]
      omega
  · exact hsome c.hasKeywords fun hkeywords => by
      have hw : w = 1 := by simp [w, hkeywords]
      omega
  · rw [hall]
    exact List.take_prefix _ _
  · rw [hall, List.length_take_of_le hlength]
    exact hsmall

/-- One more for a flag that is set. -/
theorem toInt_add_flag {a : Int64} {m : Nat} (flag : Bool) (ha : a.toInt = m)
    (hlt : m + (if flag then 1 else 0) < 2 ^ 63) :
    (if flag then a + 1 else a).toInt = (m + (if flag then 1 else 0) : Nat) := by
  cases flag with
  | true => exact toInt_add_of_lt (n := 1) ha rfl hlt
  | false => exact ha

/-- Machine integers count the slots exactly. -/
theorem parameterSlots_eq_exactSlots {c : Code} {p q k : Nat} (hp : c.positionalOnly.toInt = p)
    (hq : c.positional.toInt = q) (hk : c.keywordOnly.toInt = k) (hcount : c.Countable) :
    c.parameterSlots.toInt = c.exactSlots := by
  have hexact : c.exactSlots =
      (p + q + k + (if c.hasRest then 1 else 0) + (if c.hasKeywords then 1 else 0) : Nat) := by
    rw [exactSlots, hp, hq, hk]
    split_ifs <;> simp
  rw [Countable, hexact] at hcount
  have hpq := toInt_add_of_lt hp hq (by omega)
  have hpqk := toInt_add_of_lt hpq hk (by omega)
  have hrest := toInt_add_flag c.hasRest hpqk (by omega)
  have hkeywords := toInt_add_flag c.hasKeywords hrest (by omega)
  rw [hexact]
  exact hkeywords

/-- Counting finds a problem, or the variable names have room for all groups. -/
theorem parameterProblems_cases {c : Code} (hcount : c.Countable) :
    (∃ message, c.parameterProblems = .ok [message]) ∨
      ∃ names rest? keywords?, c.Cuts names rest? keywords? := by
  by_cases hnegative : c.positionalOnly < 0 ∨ c.positional < 0 ∨ c.keywordOnly < 0
  · left
    unfold parameterProblems
    rw [if_pos (by simpa [or_assoc] using hnegative)]
    exact ⟨_, rfl⟩
  · have hnonneg : 0 ≤ c.positionalOnly.toInt ∧ 0 ≤ c.positional.toInt ∧
        0 ≤ c.keywordOnly.toInt := by
      simpa only [Int64.lt_iff_toInt_lt, Int64.toInt_zero, not_or, not_lt] using hnegative
    obtain ⟨p, hp⟩ := Int.eq_ofNat_of_zero_le hnonneg.1
    obtain ⟨q, hq⟩ := Int.eq_ofNat_of_zero_le hnonneg.2.1
    obtain ⟨k, hk⟩ := Int.eq_ofNat_of_zero_le hnonneg.2.2
    -- small counts are added without wrapping around
    have hslots := parameterSlots_eq_exactSlots hp hq hk hcount
    by_cases hroom : c.exactSlots ≤ c.variableNames.length
    · exact Or.inr (exists_cuts hp hq hk hcount hroom)
    · left
      unfold parameterProblems
      rw [if_neg (by simpa [or_assoc] using hnegative), if_pos (by omega)]
      exact ⟨_, rfl⟩

/-- Checking the parameters comes to an end. -/
theorem exists_parameterProblems {c : Code} (hcount : c.Countable) :
    ∃ ps, c.parameterProblems = .ok ps := by
  rcases parameterProblems_cases hcount with ⟨message, h⟩ | ⟨names, rest?, keywords?, h⟩
  · exact ⟨_, h⟩
  · exact ⟨_, h.parameterProblems_eq⟩

/-- Parameters without problems are cut out of the variable names, each name once. -/
theorem exists_cuts_of_parameterProblems {c : Code} (hcount : c.Countable)
    (hnone : c.parameterProblems = .ok []) :
    ∃ names rest? keywords?, c.Cuts names rest? keywords? ∧ (names.all rest? keywords?).Nodup := by
  rcases parameterProblems_cases hcount with ⟨message, h⟩ | ⟨names, rest?, keywords?, h⟩
  · rw [h] at hnone
    exact absurd (Except.ok.inj hnone) (List.cons_ne_nil _ _)
  · have hrepeated := h.parameterProblems_eq.symm.trans hnone
    have hnil := List.map_eq_nil_iff.mp (Except.ok.inj hrepeated)
    exact ⟨names, rest?, keywords?, h, (repeated_eq_nil_iff.mp hnil).1⟩

/-! ## Nested code objects -/

theorem flattenIn_cons (k : Const) (ks : List Const) :
    flattenIn (k :: ks) = (flattenConst k).bind fun codes => (flattenIn ks).map (codes ++ ·) := by
  rw [flattenIn]
  cases flattenConst k <;> cases flattenIn ks <;> rfl

/-- Checking what is wrong with one code object comes to an end. -/
theorem exists_ownProblems {c : Code} (hcount : c.Countable) : ∃ ps, c.ownProblems = .ok ps := by
  obtain ⟨ps, hps⟩ := exists_parameterProblems hcount
  exact ⟨_, by rw [ownProblems, hps]; rfl⟩

mutual

/-- Validation comes to an end when no nested code object is missing and all counts are in range. -/
theorem exists_problems : (c : CodeOf Const) → {codes : List Code} → flatten c = some codes →
    (∀ d ∈ codes, d.Countable) → ∃ ps, problems c = .ok ps
  | c@{ constants := ks, .. }, codes, hflat, hcount => by
      rw [flatten, Option.map_eq_some_iff] at hflat
      obtain ⟨rest, hrest, rfl⟩ := hflat
      obtain ⟨own, hown⟩ := exists_ownProblems (hcount _ List.mem_cons_self)
      obtain ⟨ps, hps⟩ := exists_problemsIn ks hrest fun d hd =>
        hcount d (List.mem_cons_of_mem _ hd)
      exact ⟨own ++ ps, by rw [problems, hown, hps]; rfl⟩

/-- The check of a constant comes to an end, if no counts wrap around in its code objects. -/
theorem exists_problemsConst : (k : Const) → {codes : List Code} → flattenConst k = some codes →
    (∀ d ∈ codes, d.Countable) → ∃ ps, problemsConst k = .ok ps
  | .code c, codes, hflat, hcount => by
      rw [flattenConst] at hflat
      obtain ⟨ps, hps⟩ := exists_problems c hflat hcount
      rw [problemsConst, hps]
      -- the problems of a nested code object are told under its name
      cases ps with
      | nil => exact ⟨[], rfl⟩
      | cons p ps => exact ⟨_, rfl⟩
  | .noCode, codes, hflat, hcount => by
      rw [flattenConst] at hflat
      cases hflat
  | .tuple items, codes, hflat, hcount => by
      rw [flattenConst] at hflat
      rw [problemsConst]
      exact exists_problemsIn items hflat hcount
  | .none, codes, _, _ | .bool _, codes, _, _ | .int _, codes, _, _ | .float _, codes, _, _
  | .str _, codes, _, _ | .stray _, codes, _, _ | .array _, codes, _, _
  | .foreign _, codes, _, _ => by
      exact ⟨[], by rw [problemsConst] <;> simp⟩

/-- So does that of several constants. -/
theorem exists_problemsIn : (ks : List Const) → {codes : List Code} → flattenIn ks = some codes →
    (∀ d ∈ codes, d.Countable) → ∃ ps, problemsIn ks = .ok ps
  | [], codes, _, _ => ⟨[], by rw [problemsIn]⟩
  | k :: ks, codes, hflat, hcount => by
      rw [flattenIn_cons, Option.bind_eq_some_iff] at hflat
      obtain ⟨first, hfirst, hmap⟩ := hflat
      obtain ⟨rest, hrest, rfl⟩ := Option.map_eq_some_iff.mp hmap
      obtain ⟨ps, hps⟩ := exists_problemsConst k hfirst fun d hd =>
        hcount d (List.mem_append_left _ hd)
      obtain ⟨qs, hqs⟩ := exists_problemsIn ks hrest fun d hd =>
        hcount d (List.mem_append_right _ hd)
      exact ⟨ps ++ qs, by rw [problemsIn, hps, hqs]; rfl⟩

end

mutual

/-- Nothing is missing below an accepted code object, and all of it is accepted. -/
theorem exists_flatten : (c : CodeOf Const) → validate c = .ok () →
    ∃ codes, flatten c = some codes ∧ ∀ d ∈ codes, validate d = .ok ()
  | c@{ constants := ks, .. }, hvalid => by
      have hchildren := (validate_eq_ok_iff.mp hvalid).2
      obtain ⟨rest, hrest, hall⟩ := exists_flattenIn ks hchildren
      refine ⟨_ :: rest, by rw [flatten, hrest]; rfl, ?_⟩
      rintro d (_ | ⟨_, hd⟩)
      · exact hvalid
      · exact hall d hd

/-- The code objects of a constant whose children are accepted can be listed, and all are accepted.
-/
theorem exists_flattenConst : (k : Const) → (∀ child ∈ k.children, Accepted child) →
    ∃ codes, flattenConst k = some codes ∧ ∀ d ∈ codes, validate d = .ok ()
  | .code c, haccepted => by
      obtain ⟨c', hc', hvalid⟩ := haccepted (some c) (by simp [Const.children])
      cases hc'
      rw [flattenConst]
      exact exists_flatten c hvalid
  | .noCode, haccepted => by
      obtain ⟨c, hc, _⟩ := haccepted none (by simp [Const.children])
      cases hc
  | .tuple items, haccepted => by
      rw [Const.children, Const.childrenIn_eq] at haccepted
      rw [flattenConst]
      exact exists_flattenIn items haccepted
  | .none, _ | .bool _, _ | .int _, _ | .float _, _ | .str _, _ | .stray _, _
  | .array _, _ | .foreign _, _ =>
      ⟨[], by rw [flattenConst] <;> simp, by simp⟩

/-- So can those of several constants. -/
theorem exists_flattenIn : (ks : List Const) →
    (∀ child ∈ ks.flatMap Const.children, Accepted child) →
    ∃ codes, flattenIn ks = some codes ∧ ∀ d ∈ codes, validate d = .ok ()
  | [], _ => ⟨[], by rw [flattenIn], by simp⟩
  | k :: ks, haccepted => by
      rw [List.flatMap_cons, List.forall_mem_append] at haccepted
      obtain ⟨first, hfirst, hvalid⟩ := exists_flattenConst k haccepted.1
      obtain ⟨rest, hrest, hvalid'⟩ := exists_flattenIn ks haccepted.2
      refine ⟨first ++ rest, by rw [flattenIn_cons, hfirst, hrest]; rfl, ?_⟩
      exact List.forall_mem_append.mpr ⟨hvalid, hvalid'⟩

end

/-! ## Constants -/

mutual

/-- A supported constant in which no code object is missing has a value. -/
theorem exists_ofConst : (k : Const) → k.unsupported? = none → none ∉ k.children →
    ∀ s, ∃ v s', Op.ofConst k s = .ok v s'
  | .tuple items, hsupported, hpresent, s => by
      rw [Const.unsupported?, Const.unsupportedIn?_eq_none_iff] at hsupported
      rw [Const.children, Const.childrenIn_eq] at hpresent
      obtain ⟨vs, s', hvs⟩ := exists_ofConsts items hsupported hpresent s
      rw [Op.ofConst, bind_of_ok hvs]
      exact ⟨_, _, rfl⟩
  | .noCode, _, hpresent, _ => by simp [Const.children] at hpresent
  | .array _, hsupported, _, _ | .foreign _, hsupported, _, _ => by
      simp [Const.unsupported?] at hsupported
  | .none, _, _, _ | .bool _, _, _, _ | .int _, _, _, _ | .float _, _, _, _ | .str _, _, _, _
  | .stray _, _, _, _ | .code _, _, _, _ => by
      rw [Op.ofConst]
      exact ⟨_, _, rfl⟩

/-- Constants that are supported are converted. -/
theorem exists_ofConsts : (ks : List Const) → (∀ k ∈ ks, k.unsupported? = none) →
    none ∉ ks.flatMap Const.children → ∀ s, ∃ vs s', Op.ofConsts ks s = .ok vs s'
  | [], _, _, s => ⟨[], s, by rw [Op.ofConsts]; rfl⟩
  | k :: ks, hsupported, hpresent, s => by
      rw [List.forall_mem_cons] at hsupported
      rw [List.flatMap_cons, List.mem_append, not_or] at hpresent
      obtain ⟨v, s', hv⟩ := exists_ofConst k hsupported.1 hpresent.1 s
      obtain ⟨vs, s'', hvs⟩ := exists_ofConsts ks hsupported.2 hpresent.2 s'
      rw [Op.ofConsts, bind_of_ok hv, bind_of_ok hvs]
      exact ⟨_, _, rfl⟩

end

/-! ## What acceptance gives -/

/-- What the metadata gives to later uses: whole units, known flags, five groups of parameters that
are consecutive pieces of the variable names without a common name and are what the code object
reports, and constants that have values. -/
structure Usable (c : Code) : Prop where
  even : c.instructions.length % 2 = 0
  flags : c.flags &&& ~~~(restFlag ||| keywordsFlag) = 0
  parameters : ∃ names rest? keywords?, c.Cuts names rest? keywords? ∧
    (names.all rest? keywords?).Nodup ∧ c.parameterNames = .ok names ∧
    c.restName = .ok rest? ∧ c.keywordsName = .ok keywords?
  values : ∀ k ∈ c.constants, ∀ s, ∃ v s', Op.ofConst k s = .ok v s'

/-- Accepted code whose counts do not wrap around can be used. -/
theorem usable {c : Code} (hcount : c.Countable) (hvalid : c.validate = .ok ()) : c.Usable := by
  obtain ⟨hown, hchildren⟩ := validate_eq_ok_iff.mp hvalid
  obtain ⟨heven, hparameters, hflags, hsupported⟩ := ownProblems_eq_nil_iff.mp hown
  obtain ⟨names, rest?, keywords?, hcuts, hnodup⟩ :=
    exists_cuts_of_parameterProblems hcount hparameters
  refine ⟨heven, hflags, ⟨names, rest?, keywords?, hcuts, hnodup, hcuts.parameterNames_eq,
    hcuts.restName_eq, hcuts.keywordsName_eq⟩, fun k hk => ?_⟩
  refine exists_ofConst k (hsupported k hk) fun hmissing => ?_
  obtain ⟨child, hchild, _⟩ := hchildren none (List.mem_flatMap.mpr ⟨k, hk, hmissing⟩)
  cases hchild

/-- Validation that comes to an end accepts or reports. -/
theorem validate_of_problems {c : Code} {ps : List String} (h : problems c = .ok ps) :
    c.validate = .ok () ∨ ∃ message, c.validate = .error (.plain message) := by
  unfold validate
  rw [h]
  cases ps with
  | nil => exact Or.inl rfl
  | cons p ps => exact Or.inr ⟨_, rfl⟩

/-- Where no counts leave the range of machine integers, a code object without missing parts is
accepted or reported, and an accepted one is usable with everything nested in it. -/
theorem usable_of_validate (c : Code)
    (hcount : ∀ codes, flatten c = some codes → ∀ d ∈ codes, d.Countable) :
    ((flatten c).isSome →
      c.validate = .ok () ∨ ∃ message, c.validate = .error (.plain message)) ∧
    (c.validate = .ok () → ∃ codes, flatten c = some codes ∧ ∀ d ∈ codes, d.Usable) := by
  constructor
  · intro hpresent
    obtain ⟨codes, hcodes⟩ := Option.isSome_iff_exists.mp hpresent
    obtain ⟨ps, hps⟩ := exists_problems c hcodes (hcount codes hcodes)
    exact validate_of_problems hps
  · intro hvalid
    obtain ⟨codes, hcodes, hall⟩ := exists_flatten c hvalid
    exact ⟨codes, hcodes, fun d hd => usable (hcount codes hcodes d hd) (hall d hd)⟩

/-- A function with parameters of all kinds. -/
def manyParameters : Code where
  name := "f"
  instructions := [0x53, 0]
  variableNames := ["a", "b", "c", "d", "e", "f"]
  positionalOnly := 1
  positional := 1
  keywordOnly := 1
  flags := 0x0C

/-- A module with a function inside a tuple. -/
def nestedFunction : Code where
  name := "m"
  instructions := [0x53, 0]
  constants := [.tuple [.str "a", .code manyParameters], .none]

theorem usable_of_validate_nested :
    (∀ codes, flatten nestedFunction = some codes → ∀ d ∈ codes, d.Countable) ∧
      (flatten nestedFunction).isSome ∧ nestedFunction.validate = .ok () ∧
      (nestedFunction.validate = .ok () ∨
        ∃ message, nestedFunction.validate = .error (.plain message)) ∧
      ∃ codes, flatten nestedFunction = some codes ∧ ∀ d ∈ codes, d.Usable := by
  have hflat : flatten nestedFunction = some [nestedFunction, manyParameters] := by cbv
  have hcount : ∀ codes, flatten nestedFunction = some codes → ∀ d ∈ codes, d.Countable := by
    intro codes hcodes
    rw [hflat, Option.some.injEq] at hcodes
    subst hcodes
    simp only [List.forall_mem_cons, Countable, exactSlots]
    decide
  have hpresent : (flatten nestedFunction).isSome := by rw [hflat]; rfl
  have hvalid : nestedFunction.validate = .ok () := by cbv
  exact ⟨hcount, hpresent, hvalid, (usable_of_validate _ hcount).1 hpresent,
    (usable_of_validate _ hcount).2 hvalid⟩

/-- Counts of positional parameters that wrap around to no slots at all. -/
def wrappingCounts : Code where
  name := "m"
  positionalOnly := Int64.maxValue
  positional := Int64.maxValue
  keywordOnly := 2

/-- Counts that wrap around are accepted and then cut outside the variable names, and validation
itself cuts there when the wrapped number of slots is negative. -/
theorem not_usable_of_wrappingCounts :
    wrappingCounts.validate = .ok () ∧ wrappingCounts.parameterNames = .error .crash ∧
      validate { wrappingCounts with keywordOnly := 1 } = .error .crash := by
  refine ⟨by cbv, by cbv, by cbv⟩

end Code

end Wordcode
