import Wordcode.Proofs.Iterators
import Wordcode.Proofs.Sources
import Mathlib

namespace Wordcode

/-! # The end of an iterator

An iterator that has come to its end is marked, and nothing that iterating does takes the mark away.

* `Exec.next_of_exhausted` says what an iterator does that has come to its end.
* `Lasts` says of a computation that it takes no mark away, with one rule for each way of putting
  computations together.
* `Exec.lasts_next`: asking iterators takes no mark away, if the calls that this makes do not.
-/

/-! ## Rules -/

/-- A computation that takes no mark away from an iterator, also when it fails. -/
def Lasts {σ α : Type} (store : σ → Store) (x : EStateM Failure σ α) : Prop :=
  ∀ w ref, ((store w).iterator ref).done = true →
    (∀ a w', x w = .ok a w' → ((store w').iterator ref).done = true) ∧
      ∀ e w', x w = .error e w' → ((store w').iterator ref).done = true

section

variable {σ α β : Type} {store : σ → Store}

theorem lasts_pure (a : α) : Lasts store (pure a) := by
  intro w ref h
  constructor
  · rintro _ _ ⟨⟩
    exact h
  · rintro _ _ ⟨⟩

theorem lasts_throw (e : Failure) : Lasts store (throw e : EStateM Failure σ α) := by
  intro w ref h
  constructor
  · rintro _ _ ⟨⟩
  · rintro _ _ ⟨⟩
    exact h

/-- One computation after another one. -/
theorem Lasts.bind {x : EStateM Failure σ α} {k : α → EStateM Failure σ β} (hx : Lasts store x)
    (hk : ∀ a, Lasts store (k a)) : Lasts store (x >>= k) := by
  intro w ref h
  cases hrun : x w with
  | ok a w₁ =>
      rw [bind_of_ok hrun]
      exact hk a w₁ ref ((hx w ref h).1 a w₁ hrun)
  | error e w₁ =>
      rw [bind_of_error hrun]
      constructor
      · rintro _ _ ⟨⟩
      · rintro _ _ ⟨⟩
        exact (hx w ref h).2 e w₁ hrun

/-- A change after which exhausted iterators still are. -/
theorem lasts_modifyGet {f : σ → α × σ}
    (h : ∀ w ref, ((store w).iterator ref).done = true →
      ((store (f w).2).iterator ref).done = true) :
    Lasts store (modifyGet f) := by
  intro w ref hdone
  constructor
  · rintro _ _ ⟨⟩
    exact h w ref hdone
  · rintro _ _ ⟨⟩

/-- A computation that only looks at the state. -/
theorem lasts_of_same {x : EStateM Failure σ α} (h : ∀ w, ∃ a, x w = .ok a w) :
    Lasts store x := by
  intro w ref hdone
  obtain ⟨a, ha⟩ := h w
  rw [ha]
  constructor
  · rintro _ _ ⟨⟩
    exact hdone
  · rintro _ _ ⟨⟩

end

/-- What happens in the store happens in the world. -/
theorem Exec.lasts_lift {α : Type} {x : Op α} (hx : Lasts id x) :
    Lasts World.store (liftM x : Exec α) := by
  intro w ref h
  change (∀ a w', Exec.lift x w = .ok a w' → _) ∧ ∀ e w', Exec.lift x w = .error e w' → _
  unfold Exec.lift
  cases hrun : x w.store with
  | ok a s =>
      simp only [hrun]
      constructor
      · rintro _ _ ⟨⟩
        exact (hx w.store ref h).1 a s hrun
      · rintro _ _ ⟨⟩
  | error e s =>
      simp only [hrun]
      constructor
      · rintro _ _ ⟨⟩
      · rintro _ _ ⟨⟩
        exact (hx w.store ref h).2 e s hrun

/-! ## Steps -/

/-- Changing an iterator in a way that keeps its mark. -/
theorem Store.done_modify {s : Store} {change : Iteration → Iteration}
    (hchange : ∀ it, it.done = true → (change it).done = true) (ref : Nat) {other : Nat}
    (h : (s.iterator other).done = true) :
    (Store.iterator { s with iterators := s.iterators.modify ref change } other).done = true := by
  unfold Store.iterator Array.getD at *
  by_cases hother : other < s.iterators.size
  · simp only [Array.size_modify, hother, dite_true] at h ⊢
    by_cases hsame : ref = other
    · subst hsame
      simpa [Array.getElem_modify] using hchange _ h
    · simpa [Array.getElem_modify, hsame] using h
  · simp [hother]

namespace Op

/-- Moving an iterator does not bring it back. -/
theorem lasts_setCursor (ref : Nat) (cursor : Cursor) : Lasts id (setCursor ref cursor) :=
  lasts_modifyGet fun _ _ =>
    @Store.done_modify _ (fun it => { it with cursor }) (fun _ hdone => hdone) ref _

theorem lasts_setDone (ref : Nat) : Lasts id (setDone ref) :=
  lasts_modifyGet fun _ _ => @Store.done_modify _ ({ · with done := true }) (fun _ _ => rfl) ref _

theorem lasts_fresh : Lasts id fresh := lasts_modifyGet fun _ _ h => h

theorem lasts_newTuple (items : List Value) : Lasts id (newTuple items) :=
  lasts_fresh.bind fun _ => lasts_pure _

theorem lasts_truthy (v : Value) : Lasts id (truthy v) :=
  lasts_of_same fun _ => by cases v <;> exact ⟨_, rfl⟩

theorem lasts_advance (ref : Nat) (cursor : Cursor) : Lasts id (advance ref cursor) := by
  -- an iterator at its end writes nothing, and the others only move their own cursor
  cases cursor with
  | items kind rest =>
      cases rest with
      | nil => exact lasts_pure none
      | cons v vs => exact (lasts_setCursor ref _).bind fun _ => lasts_pure _
  | chars rest =>
      cases rest with
      | nil => exact lasts_pure none
      | cons c cs =>
          exact (lasts_setCursor ref _).bind fun _ =>
            (lasts_fresh.bind fun _ => lasts_pure _).bind fun _ => lasts_pure _
  | list source position =>
      refine Lasts.bind (x := items source) (lasts_of_same fun _ => ⟨_, rfl⟩) fun vs => ?_
      cases vs[position]? with
      | none => exact lasts_pure none
      | some v => exact (lasts_setCursor ref _).bind fun _ => lasts_pure _
  | range r position length =>
      by_cases hend : length ≤ position <;> simp only [advance, hend, if_true, if_false]
      · exact lasts_pure none
      · exact (lasts_setCursor ref _).bind fun _ => lasts_pure _
  | keys source position size =>
      refine Lasts.bind (x := entries source) (lasts_of_same fun _ => ⟨_, rfl⟩) fun es => ?_
      dsimp only
      have hend : Lasts id (do return none : Op (Option Value)) := lasts_pure none
      cases es[position]? with
      | none => split <;> [exact (lasts_throw _).bind fun _ => hend; exact hend]
      | some e =>
          have hgive := (lasts_setCursor ref (.keys source (position + 1) size)).bind fun _ =>
            lasts_pure (some e.key)
          split <;> [exact (lasts_throw _).bind fun _ => hgive; exact hgive]
  | _ => exact lasts_pure none

end Op

namespace Exec

variable {call : Callback}

/-- None of the operations on iterators takes a mark away. -/
theorem iterates_lasts :
    Iterates fun {α : Type} (x : Unit → Exec α) => Lasts World.store (x ()) where
  pure a := lasts_pure a
  exhausted := lasts_throw .exhausted
  crash := lasts_throw .crash
  bind hx hk := hx.bind hk
  iterator ref := lasts_of_same fun w => ⟨w.store.iterator ref, rfl⟩
  newTuple vs := lasts_lift (Op.lasts_newTuple vs)
  setCursor ref cursor := lasts_lift (Op.lasts_setCursor ref cursor)
  setDone ref := lasts_lift (Op.lasts_setDone ref)
  truthy v := lasts_lift (Op.lasts_truthy v)
  advance ref cursor := lasts_lift (Op.lasts_advance ref cursor)

/-- Asking an iterator takes no mark away, from itself or from another one. -/
theorem lasts_next (hcall : ∀ f args, Lasts World.store (call f args)) (fuel ref : Nat) :
    Lasts World.store (next call fuel ref) :=
  iterates_lasts.next (fun _ => call) hcall fuel ref

end Exec

end Wordcode
