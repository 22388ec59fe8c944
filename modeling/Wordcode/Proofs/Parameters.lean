import Wordcode.Code
import Mathlib

namespace Wordcode

/-! # Declared parameters

What it means for a code object to declare parameters: its counts and flags cut the leading
variable names into the five groups, and no name occurs twice.

* `Code.Cuts` says that counts and flags cut out the groups, and `Code.Declares` that no name is
  repeated either.
* `Cuts.parameterNames_eq`, `Cuts.restName_eq` and `Cuts.keywordsName_eq`: the groups are what the
  code object reports.
* `Declares.parameterProblems_eq`: such metadata is in order.
-/

namespace Code

/-- All names that parameters and collecting slots take, in the order of the variables. -/
def ParameterNames.all (names : ParameterNames) (rest? keywords? : Option String) : List String :=
  names.anyPositional ++ names.keywordOnly ++ rest?.toList ++ keywords?.toList

/-- The declared names are a prefix of the variable names without repetition. A list of names is
never as long as the largest count. -/
structure Declares (c : Code) (names : ParameterNames) (rest? keywords? : Option String) :
    Prop where
  positionalOnly : c.positionalOnly.toInt = names.positionalOnly.length
  positional : c.positional.toInt = names.positional.length
  keywordOnly : c.keywordOnly.toInt = names.keywordOnly.length
  hasRest : c.hasRest = rest?.isSome
  hasKeywords : c.hasKeywords = keywords?.isSome
  leading : names.all rest? keywords? <+: c.variableNames
  nodup : (names.all rest? keywords?).Nodup
  fits : c.variableNames.length < 2 ^ 63

/-- Counts and flags cut the leading variable names into the five groups, and together the counts
are in range. -/
structure Cuts (c : Code) (names : ParameterNames) (rest? keywords? : Option String) : Prop where
  positionalOnly : c.positionalOnly.toInt = names.positionalOnly.length
  positional : c.positional.toInt = names.positional.length
  keywordOnly : c.keywordOnly.toInt = names.keywordOnly.length
  hasRest : c.hasRest = rest?.isSome
  hasKeywords : c.hasKeywords = keywords?.isSome
  leading : names.all rest? keywords? <+: c.variableNames
  small : (names.all rest? keywords?).length < 2 ^ 63

theorem Declares.cuts {c : Code} {names : ParameterNames} {rest? keywords? : Option String}
    (h : c.Declares names rest? keywords?) : c.Cuts names rest? keywords? :=
  ⟨h.positionalOnly, h.positional, h.keywordOnly, h.hasRest, h.hasKeywords, h.leading,
    Nat.lt_of_le_of_lt h.leading.length_le h.fits⟩

/-- A sum of counts that stays in range is exact. -/
theorem toInt_add_of_lt {a b : Int64} {m n : Nat} (ha : a.toInt = m) (hb : b.toInt = n)
    (hlt : m + n < 2 ^ 63) : (a + b).toInt = (m + n : Nat) := by
  rw [Int64.toInt_add, ha, hb, Int.bmod_eq_of_le] <;> omega

/-- A cut in the middle of three lists. -/
theorem variablesBetween_eq {c : Code} {start stop : Int64} (before : List String)
    {names after : List String} (hnames : c.variableNames = before ++ names ++ after)
    (hstart : start.toInt = before.length)
    (hstop : stop.toInt = (before.length + names.length : Nat)) :
    c.variablesBetween start stop = .ok names := by
  have hlength : c.variableNames.length = before.length + names.length + after.length := by
    simp [hnames, Nat.add_assoc]
  have hrange : (0 ≤ start.toInt && start.toInt ≤ stop.toInt &&
      stop.toInt ≤ c.variableNames.length) = true := by
    simp only [Bool.and_eq_true, decide_eq_true_eq]
    omega
  unfold variablesBetween
  rw [if_pos hrange, hstart, hstop, hnames,
    show ((before.length + names.length : Nat) - (before.length : Int)).toNat = names.length by
      omega]
  simp

/-- The name after a list of others. -/
theorem variableAt_eq {c : Code} {i : Int64} (before : List String) {after : List String}
    {name : String} (hnames : c.variableNames = before ++ name :: after)
    (hi : i.toInt = before.length) :
    c.variableAt i = .ok name := by
  unfold variableAt
  rw [if_pos (by omega), hi, hnames]
  simp

namespace Cuts

variable {c : Code} {names : ParameterNames} {rest? keywords? : Option String}
  (h : c.Cuts names rest? keywords?)
include h

/-- The number of declared names is in range. -/
theorem length_all_lt :
    names.positionalOnly.length + names.positional.length + names.keywordOnly.length +
      rest?.toList.length + keywords?.toList.length < 2 ^ 63 := by
  have hsmall := h.small
  simp only [ParameterNames.all, ParameterNames.anyPositional, List.length_append] at hsmall
  omega

theorem variableNames_eq :
    ∃ locals, c.variableNames = names.positionalOnly ++ names.positional ++ names.keywordOnly ++
      rest?.toList ++ keywords?.toList ++ locals := by
  obtain ⟨locals, hlocals⟩ := h.leading
  exact ⟨locals, hlocals.symm⟩

theorem positional_end :
    (c.positionalOnly + c.positional).toInt =
      (names.positionalOnly.length + names.positional.length : Nat) := by
  have hlt := length_all_lt h
  exact toInt_add_of_lt h.positionalOnly h.positional (by omega)

theorem keywordOnly_end :
    (c.positionalOnly + c.positional + c.keywordOnly).toInt =
      (names.positionalOnly.length + names.positional.length + names.keywordOnly.length : Nat) := by
  have hlt := length_all_lt h
  exact toInt_add_of_lt (positional_end h) h.keywordOnly (by omega)

/-- The code object reports the groups of parameters. -/
theorem parameterNames_eq : c.parameterNames = .ok names := by
  obtain ⟨locals, hlocals⟩ := variableNames_eq h
  have hfirst : c.variablesBetween 0 c.positionalOnly = .ok names.positionalOnly :=
    variablesBetween_eq [] (by simpa using hlocals) rfl (by simpa using h.positionalOnly)
  have hsecond : c.variablesBetween c.positionalOnly (c.positionalOnly + c.positional) =
      .ok names.positional :=
    variablesBetween_eq names.positionalOnly (by simpa using hlocals) h.positionalOnly
      (positional_end h)
  have hthird : c.variablesBetween (c.positionalOnly + c.positional)
      (c.positionalOnly + c.positional + c.keywordOnly) = .ok names.keywordOnly :=
    variablesBetween_eq (names.positionalOnly ++ names.positional)
      (by simpa using hlocals) (by simpa using positional_end h) (by simpa using keywordOnly_end h)
  simp [parameterNames, hfirst, hsecond, hthird, bind, Except.bind, pure, Except.pure]

theorem restName_eq : c.restName = .ok rest? := by
  obtain ⟨locals, hlocals⟩ := variableNames_eq h
  unfold restName argCount
  rw [h.hasRest]
  cases rest? with
  | none => rfl
  | some name =>
      have hat : c.variableAt (c.positionalOnly + c.positional + c.keywordOnly) = .ok name :=
        variableAt_eq (names.positionalOnly ++ names.positional ++ names.keywordOnly)
          (by simpa using hlocals) (by simpa [Nat.add_assoc] using keywordOnly_end h)
      simp [hat, Functor.map, Except.map]

theorem rest_end :
    (if c.hasRest then c.positionalOnly + c.positional + c.keywordOnly + 1
      else c.positionalOnly + c.positional + c.keywordOnly).toInt =
      (names.positionalOnly.length + names.positional.length + names.keywordOnly.length +
        rest?.toList.length : Nat) := by
  have hlt := length_all_lt h
  rw [h.hasRest]
  cases rest? with
  | none => exact keywordOnly_end h
  | some name => exact toInt_add_of_lt (keywordOnly_end h) rfl (by simp at hlt ⊢; omega)

theorem keywordsName_eq : c.keywordsName = .ok keywords? := by
  obtain ⟨locals, hlocals⟩ := variableNames_eq h
  have hend := rest_end h
  unfold keywordsName argCount
  rw [h.hasKeywords]
  cases keywords? with
  | none => rfl
  | some name =>
      have hat := variableAt_eq
        (names.positionalOnly ++ names.positional ++ names.keywordOnly ++ rest?.toList)
        (by simpa using hlocals) (by simpa [Nat.add_assoc] using hend)
      simp [hat, Functor.map, Except.map]

theorem parameterSlots_eq : c.parameterSlots.toInt = (names.all rest? keywords?).length := by
  have hlt := length_all_lt h
  have hend := rest_end h
  unfold parameterSlots argCount
  rw [h.hasKeywords]
  cases keywords? with
  | none => simpa [ParameterNames.all, ParameterNames.anyPositional, Nat.add_assoc] using hend
  | some name =>
      have hlast := toInt_add_of_lt hend (b := 1) rfl (by simp at hlt ⊢; omega)
      simpa [ParameterNames.all, ParameterNames.anyPositional, Nat.add_assoc] using hlast

end Cuts

namespace Declares

variable {c : Code} {names : ParameterNames} {rest? keywords? : Option String}
  (h : c.Declares names rest? keywords?)
include h

theorem nodup_anyPositional : names.anyPositional.Nodup :=
  h.nodup.sublist (List.prefix_append_of_prefix (List.prefix_append_of_prefix
    (List.prefix_append _ _))).sublist

/-- Keyword-only parameters are not positional ones. -/
theorem not_mem_keywordOnly {name : String} (hname : name ∈ names.anyPositional) :
    name ∉ names.keywordOnly := by
  have hnodup := h.nodup
  rw [ParameterNames.all, List.nodup_append, List.nodup_append, List.nodup_append] at hnodup
  obtain ⟨⟨⟨-, -, hdisjoint⟩, -⟩, -⟩ := hnodup
  exact fun hmem => hdisjoint name hname name hmem rfl

/-- The slot for positional arguments is not a parameter. -/
theorem not_mem_rest {name : String} (hname : name ∈ names.anyPositional ++ names.keywordOnly) :
    name ∉ rest? := by
  have hnodup := h.nodup
  rw [ParameterNames.all, List.nodup_append, List.nodup_append] at hnodup
  obtain ⟨⟨-, -, hdisjoint⟩, -⟩ := hnodup
  exact fun hmem => hdisjoint name hname name (Option.mem_toList.mpr hmem) rfl

/-- The slot for keyword arguments is neither a parameter nor the other slot. -/
theorem not_mem_keywords {name : String}
    (hname : name ∈ names.anyPositional ++ names.keywordOnly ++ rest?.toList) :
    name ∉ keywords? := by
  have hnodup := h.nodup
  rw [ParameterNames.all, List.nodup_append] at hnodup
  obtain ⟨-, -, hdisjoint⟩ := hnodup
  exact fun hmem => hdisjoint name hname name (Option.mem_toList.mpr hmem) rfl

/-- The code object reports the declared parameters. -/
theorem parameterNames_eq : c.parameterNames = .ok names := h.cuts.parameterNames_eq

theorem restName_eq : c.restName = .ok rest? := h.cuts.restName_eq

theorem keywordsName_eq : c.keywordsName = .ok keywords? := h.cuts.keywordsName_eq

end Declares

/-- The metadata is in order exactly when no name is repeated. -/
theorem Cuts.parameterProblems_eq {c : Code} {names : ParameterNames}
    {rest? keywords? : Option String} (h : c.Cuts names rest? keywords?) :
    c.parameterProblems = .ok ((repeated [] (names.all rest? keywords?)).map fun name =>
      "duplicate parameter " ++ Text.quoted name) := by
  have hslots := h.parameterSlots_eq
  have hle := h.leading.length_le
  obtain ⟨locals, hlocals⟩ := h.leading
  have hcut : c.variablesBetween 0 c.parameterSlots = .ok (names.all rest? keywords?) :=
    variablesBetween_eq [] (by simpa using hlocals.symm) rfl (by simpa using hslots)
  -- the counts are lengths, so the first two checks pass
  have hcounts : ¬ (c.positionalOnly < 0 ∨ c.positional < 0 ∨ c.keywordOnly < 0) := by
    have h₁ := h.positionalOnly
    have h₂ := h.positional
    have h₃ := h.keywordOnly
    simp only [Int64.lt_iff_toInt_lt, Int64.toInt_zero]
    omega
  unfold parameterProblems
  rw [if_neg (by simpa [or_assoc] using hcounts), if_neg (by omega), hcut]
  simp [bind, Except.bind, pure, Except.pure]

/-- There are no repeated names exactly when all names are different and new. -/
theorem repeated_eq_nil_iff {seen names : List String} :
    repeated seen names = [] ↔ names.Nodup ∧ ∀ name ∈ names, name ∉ seen := by
  induction names generalizing seen with
  | nil => simp [repeated]
  | cons name names ih =>
      rw [repeated, List.nodup_cons, List.forall_mem_cons]
      -- a name met for the first time joins those seen
      by_cases hseen : name ∈ seen
      · simp [hseen]
      · have hnew : seen.contains name = false := by simpa using hseen
        rw [hnew, if_neg (by decide), ih]
        simp only [List.mem_cons, not_or, hseen, not_false_eq_true, true_and]
        constructor
        · rintro ⟨hnodup, hnames⟩
          exact ⟨⟨fun hmem => (hnames name hmem).1 rfl, hnodup⟩, fun other hother =>
            (hnames other hother).2⟩
        · rintro ⟨⟨hname, hnodup⟩, hnames⟩
          refine ⟨hnodup, fun other hother => ⟨?_, hnames other hother⟩⟩
          rintro rfl
          exact hname hother

/-- Metadata that declares parameters is in order. -/
theorem Declares.parameterProblems_eq {c : Code} {names : ParameterNames}
    {rest? keywords? : Option String} (h : c.Declares names rest? keywords?) :
    c.parameterProblems = .ok [] := by
  have hnone : repeated [] (names.all rest? keywords?) = [] :=
    repeated_eq_nil_iff.mpr ⟨h.nodup, by simp⟩
  rw [h.cuts.parameterProblems_eq, hnone]
  rfl

end Code

end Wordcode
