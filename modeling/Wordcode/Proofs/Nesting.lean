import Wordcode.Store.Equality
import Mathlib

namespace Wordcode

/-! # Nesting of values

Tuples and slices hold their parts. Lists and dicts hold what the store says that they contain, so a
value of these types can come to hold itself. Where none does, the references that are reached
become fewer with each reference that is gone through, and a property of a value can be shown from
the property of what it holds.

* `Store.Holds` says what a value holds.
* `Store.Ordinary` is a value that has no float and no cycle in it.
* `Store.rank` is the number of references that are reached from a value.
* `Store.Ordinary.induction` is induction over what values hold.
-/

/-- What a value holds. -/
inductive Store.Holds (s : Store) : Value → Value → Prop
  | item {items : List Value} {id : Nat} {v : Value} (hv : v ∈ items) : Holds s (.tuple items id) v
  | start {a b c : Value} {id : Nat} : Holds s (.slice a b c id) a
  | stop {a b c : Value} {id : Nat} : Holds s (.slice a b c id) b
  | step {a b c : Value} {id : Nat} : Holds s (.slice a b c id) c
  | element {ref : Nat} {v : Value} (hv : v ∈ s.items ref) : Holds s (.list ref) v
  | key {ref : Nat} {e : Entry} (he : e ∈ s.entries ref) : Holds s (.dict ref) e.key
  | value {ref : Nat} {e : Entry} (he : e ∈ s.entries ref) : Holds s (.dict ref) e.value

/-- A value refers to a list or a dict. -/
def Value.IsReference : Value → Prop
  | .list _ | .dict _ => True
  | _ => False

/-- A value is not a float, and the store has what it refers to. Values of the embedding program
that pass for `None` are none of the types of values. -/
def Store.Admits (s : Store) : Value → Prop
  | .float .. => False
  | .list ref => ref < s.lists.size
  | .dict ref => ref < s.dicts.size
  | .host h => h.convention ≠ .bare
  | _ => True

namespace Store

open Relation

variable {s : Store} {v w : Value}

/-- A value that neither is nor holds, however deep, a float or a value that holds itself. -/
structure Ordinary (s : Store) (v : Value) : Prop where
  admits : ∀ w, ReflTransGen s.Holds v w → s.Admits w
  acyclic : ∀ w, ReflTransGen s.Holds v w → ¬ TransGen s.Holds w w

theorem Ordinary.held (hv : s.Ordinary v) (hw : s.Holds v w) : s.Ordinary w where
  admits := fun x hx => hv.admits x (.head hw hx)
  acyclic := fun x hx => hv.acyclic x (.head hw hx)

theorem Ordinary.admits_self (hv : s.Ordinary v) : s.Admits v := hv.admits v .refl

/-- A value is ordinary if what it holds is. -/
theorem Ordinary.of_held (hv : s.Admits v) (hheld : ∀ w, s.Holds v w → s.Ordinary w) :
    s.Ordinary v where
  admits := by
    intro x hx
    rcases hx.cases_head with rfl | ⟨w, hw, hx⟩
    · exact hv
    · exact (hheld w hw).admits x hx
  acyclic := by
    intro x hx hcycle
    rcases hx.cases_head with rfl | ⟨w, hw, hx⟩
    · -- a cycle through the value is one through something that it holds
      obtain ⟨w, hw, hback⟩ := TransGen.head'_iff.mp hcycle
      exact (hheld w hw).acyclic w .refl (TransGen.tail' hback hw)
    · exact (hheld w hw).acyclic x hx hcycle

theorem Ordinary.tuple {items : List Value} {id : Nat} (hitems : ∀ v ∈ items, s.Ordinary v) :
    s.Ordinary (.tuple items id) := by
  refine .of_held trivial fun w hw => ?_
  cases hw with
  | item hv => exact hitems _ hv

theorem Ordinary.list {ref : Nat} (href : ref < s.lists.size)
    (hitems : ∀ v ∈ s.items ref, s.Ordinary v) : s.Ordinary (.list ref) := by
  refine .of_held href fun w hw => ?_
  cases hw with
  | element hv => exact hitems _ hv

theorem Ordinary.dict {ref : Nat} (href : ref < s.dicts.size)
    (hentries : ∀ e ∈ s.entries ref, s.Ordinary e.key ∧ s.Ordinary e.value) :
    s.Ordinary (.dict ref) := by
  refine .of_held href fun w hw => ?_
  cases hw with
  | key he => exact (hentries _ he).1
  | value he => exact (hentries _ he).2

/-! ## Rank -/

/-- The references that are reached from a value, itself included. -/
def references (s : Store) (v : Value) : Set Value :=
  {w | w.IsReference ∧ ReflTransGen s.Holds v w}

/-- The number of references that are reached from a value. -/
noncomputable def rank (s : Store) (v : Value) : Nat := (s.references v).ncard

theorem references_subset_of_holds (hw : s.Holds v w) : s.references w ⊆ s.references v :=
  fun _ hx => ⟨hx.1, .head hw hx.2⟩

/-- Everything to which a store can refer. -/
def allReferences (s : Store) : Set Value :=
  Value.list '' Set.Iio s.lists.size ∪ Value.dict '' Set.Iio s.dicts.size

theorem finite_allReferences (s : Store) : s.allReferences.Finite :=
  ((Set.finite_Iio _).image _).union ((Set.finite_Iio _).image _)

theorem ncard_allReferences_le (s : Store) : s.allReferences.ncard ≤ s.size := by
  have hlists := Set.ncard_image_le (f := Value.list) (Set.finite_Iio s.lists.size)
  have hdicts := Set.ncard_image_le (f := Value.dict) (Set.finite_Iio s.dicts.size)
  rw [Set.ncard_Iio_nat] at hlists hdicts
  exact (Set.ncard_union_le _ _).trans (Nat.add_le_add hlists hdicts)

theorem Ordinary.references_subset (hv : s.Ordinary v) : s.references v ⊆ s.allReferences := by
  rintro x ⟨hx, hreach⟩
  have hadmits := hv.admits x hreach
  cases x with
  | list ref => exact .inl ⟨ref, hadmits, rfl⟩
  | dict ref => exact .inr ⟨ref, hadmits, rfl⟩
  | _ => exact hx.elim

theorem Ordinary.finite_references (hv : s.Ordinary v) : (s.references v).Finite :=
  s.finite_allReferences.subset hv.references_subset

/-- No value reaches more references than the store has. -/
theorem Ordinary.rank_le_size (hv : s.Ordinary v) : s.rank v ≤ s.size :=
  (Set.ncard_le_ncard hv.references_subset s.finite_allReferences).trans s.ncard_allReferences_le

theorem Ordinary.rank_le_of_holds (hv : s.Ordinary v) (hw : s.Holds v w) : s.rank w ≤ s.rank v :=
  Set.ncard_le_ncard (references_subset_of_holds hw) hv.finite_references

/-- What is held through a reference does not reach that reference. -/
theorem Ordinary.rank_lt_of_holds (hv : s.Ordinary v) (href : v.IsReference) (hw : s.Holds v w) :
    s.rank w < s.rank v := by
  refine Set.ncard_lt_ncard ?_ hv.finite_references
  refine (Set.ssubset_iff_of_subset (references_subset_of_holds hw)).mpr ⟨v, ⟨href, .refl⟩, ?_⟩
  intro hback
  exact hv.acyclic v .refl (TransGen.head' hw hback.2)

/-- A reference has been reached from itself. -/
theorem Ordinary.rank_pos (hv : s.Ordinary v) (href : v.IsReference) : 0 < s.rank v :=
  (Set.ncard_pos hv.finite_references).mpr ⟨v, href, .refl⟩

/-! ## Induction -/

/-- What is held without a reference is part of the value. -/
theorem Holds.sizeOf_lt (hw : s.Holds v w) (href : ¬ v.IsReference) : sizeOf w < sizeOf v := by
  cases hw with
  | @item items id v hv =>
      have := List.sizeOf_lt_of_mem hv
      simp only [Value.tuple.sizeOf_spec]
      omega
  | start | stop | step =>
      simp only [Value.slice.sizeOf_spec]
      omega
  | element | key | value => exact (href trivial).elim

/-- Induction over what ordinary values hold: through a reference the rank becomes smaller, and
otherwise the value. -/
theorem Ordinary.induction {motive : ∀ v, s.Ordinary v → Prop}
    (step : ∀ v (hv : s.Ordinary v), (∀ w (hw : s.Holds v w), motive w (hv.held hw)) → motive v hv)
    {v : Value} (hv : s.Ordinary v) : motive v hv :=
  step v hv fun _ hw => (hv.held hw).induction step
termination_by (s.rank v, sizeOf v)
decreasing_by
  rename_i w
  rw [Prod.lex_def]
  by_cases href : v.IsReference
  · exact .inl (hv.rank_lt_of_holds href hw)
  · rcases (hv.rank_le_of_holds hw).lt_or_eq with hlt | heq
    · exact .inl hlt
    · exact .inr ⟨heq, hw.sizeOf_lt href⟩

end Store

end Wordcode
