import Mathlib

namespace Wordcode

/-! # Computations in sequence

Facts about computations that may fail, one after another. The theory of streams and pools builds on
those about lists, the theory of frames and calls on those about states.

* `mapM_eq_ok_iff` and `array_mapM_eq_ok_iff` read a successful pass over a sequence item by item.
* `OnlyFails` bounds the ways in which a computation can fail, with a rule for each way of putting
  computations together.
* `bind_eq_ok`, `bind_eq_error` and `bind_of_ok` take a computation on a state apart and put it
  together.
-/

section

variable {α β ε : Type} {f : α → Except ε β}

/-- A computation over the items of a list succeeds exactly when it succeeds on each item. -/
theorem mapM_eq_ok_iff {xs : List α} {ys : List β} :
    xs.mapM f = .ok ys ↔ List.Forall₂ (fun x y => f x = .ok y) xs ys := by
  induction xs generalizing ys with
  | nil => cases ys <;> simp [pure, Except.pure]
  | cons x xs ih =>
      rw [List.mapM_cons]
      cases hx : f x with
      | error e => cases ys <;> simp [hx, bind, Except.bind]
      | ok y =>
          cases hxs : xs.mapM f with
          | error e => cases ys <;> simp [hx, ← ih, hxs, bind, Except.bind]
          | ok zs => cases ys <;> simp [hx, ← ih, hxs, bind, Except.bind, pure, Except.pure]

/-- The same for an array. -/
theorem array_mapM_eq_ok_iff {xs : Array α} {ys : Array β} :
    xs.mapM f = .ok ys ↔ List.Forall₂ (fun x y => f x = .ok y) xs.toList ys.toList := by
  rw [Array.mapM_eq_mapM_toList, ← mapM_eq_ok_iff]
  cases hxs : xs.toList.mapM f with
  | error e => simp [Functor.map, Except.map]
  | ok zs =>
      simp only [Functor.map, Except.map, Except.ok.injEq]
      constructor
      · rintro rfl
        rfl
      · rintro rfl
        rfl

/-- A computation that gives `g x` for every item `x` gives the list of all `g x`. -/
theorem mapM_eq_ok {g : α → β} {xs : List α} (h : ∀ x ∈ xs, f x = .ok (g x)) :
    xs.mapM f = .ok (xs.map g) := by
  rw [mapM_eq_ok_iff, List.forall₂_map_right_iff, List.forall₂_same]
  exact h

/-- A computation that succeeds on each item, with a result that has a property, gives a list that
has this property item by item. -/
theorem exists_mapM_eq_ok {R : α → β → Prop} {xs : List α}
    (h : ∀ x ∈ xs, ∃ y, f x = .ok y ∧ R x y) :
    ∃ ys, xs.mapM f = .ok ys ∧ List.Forall₂ R xs ys := by
  induction xs with
  | nil => exact ⟨[], rfl, .nil⟩
  | cons x xs ih =>
      obtain ⟨y, hy, hR⟩ := h x List.mem_cons_self
      obtain ⟨ys, hys, hRs⟩ := ih fun x' hx' => h x' (List.mem_cons_of_mem x hx')
      refine ⟨y :: ys, ?_, .cons hR hRs⟩
      exact mapM_eq_ok_iff.mpr (.cons hy (mapM_eq_ok_iff.mp hys))

/-- A computation that succeeds on each item succeeds on the array. -/
theorem array_mapM_isOk {xs : Array α} (h : ∀ x ∈ xs, ∃ y, f x = .ok y) :
    ∃ ys, xs.mapM f = .ok ys := by
  have hlist : ∀ x ∈ xs.toList, ∃ y, f x = .ok y ∧ True := by simpa using h
  obtain ⟨ys, hys, -⟩ := exists_mapM_eq_ok (R := fun _ _ => True) hlist
  exact ⟨ys.toArray, array_mapM_eq_ok_iff.mpr (mapM_eq_ok_iff.mp hys)⟩

/-- What succeeds has a first part that succeeds. -/
theorem except_bind_eq_ok {x : Except ε α} {k : α → Except ε β} {b : β}
    (h : (x >>= k) = .ok b) : ∃ a, x = .ok a ∧ k a = .ok b := by
  cases x with
  | error e => cases h
  | ok a => exact ⟨a, rfl, h⟩

section

variable {σ : Type} {x : StateT σ (Except ε) α} {k : α → StateT σ (Except ε) β} {s s' : σ}

/-- The same with a state. -/
theorem stateT_bind_eq_ok {b : β} (h : (x >>= k) s = .ok (b, s')) :
    ∃ a s₁, x s = .ok (a, s₁) ∧ k a s₁ = .ok (b, s') := by
  obtain ⟨⟨a, s₁⟩, hx, hk⟩ := except_bind_eq_ok h
  exact ⟨a, s₁, hx, hk⟩

/-- After a success, the rest goes on from its state. -/
theorem stateT_bind_of_ok {a : α} {s₁ : σ} (h : x s = .ok (a, s₁)) : (x >>= k) s = k a s₁ := by
  simp [bind, StateT.bind, Except.bind, h]

end

end

/-! ## Ways to fail -/

/-- A computation that fails in the given ways only. -/
def OnlyFails {α ε : Type} (P : ε → Prop) (x : Except ε α) : Prop := ∀ e, x = .error e → P e

section

variable {α β ε : Type} {P : ε → Prop}

theorem onlyFails_ok (a : α) : OnlyFails P (.ok a) := by
  intro e h
  cases h

theorem onlyFails_error {e : ε} (h : P e) : OnlyFails P (.error e : Except ε α) := by
  intro e' h'
  cases h'
  exact h

/-- A computation that only fails in certain ways, and then another one. -/
theorem OnlyFails.bind {x : Except ε α} {k : α → Except ε β} (hx : OnlyFails P x)
    (hk : ∀ a, OnlyFails P (k a)) : OnlyFails P (x >>= k) := by
  intro e h
  cases x with
  | error e' =>
      cases h
      exact hx e rfl
  | ok a => exact hk a e h

theorem OnlyFails.map {x : Except ε α} (hx : OnlyFails P x) (f : α → β) :
    OnlyFails P (f <$> x) := by
  cases x with
  | error e => exact onlyFails_error (hx e rfl)
  | ok a => exact onlyFails_ok (f a)

/-- Going through a list. -/
theorem onlyFails_foldlM {f : β → α → Except ε β} {as : List α}
    (h : ∀ a ∈ as, ∀ b, OnlyFails P (f b a)) (b : β) : OnlyFails P (as.foldlM f b) := by
  induction as generalizing b with
  | nil => exact onlyFails_ok b
  | cons a as ih =>
      rw [List.foldlM_cons]
      exact (h a List.mem_cons_self b).bind (ih fun a' ha' => h a' (List.mem_cons_of_mem a ha'))

theorem onlyFails_mapM {f : α → Except ε β} (h : ∀ a, OnlyFails P (f a)) (as : List α) :
    OnlyFails P (as.mapM f) := by
  induction as with
  | nil => exact onlyFails_ok []
  | cons a as ih =>
      rw [List.mapM_cons]
      exact (h a).bind fun b => ih.bind fun bs => onlyFails_ok (b :: bs)

theorem onlyFails_array_mapM {f : α → Except ε β} (h : ∀ a, OnlyFails P (f a)) (as : Array α) :
    OnlyFails P (as.mapM f) := by
  rw [Array.mapM_eq_mapM_toList]
  exact (onlyFails_mapM h as.toList).map List.toArray

end

/-! ## Computations on a state -/

section

variable {α β ε σ : Type} {x : EStateM ε σ α} {k : α → EStateM ε σ β} {s s' : σ} {a : α} {b : β}
  {e : ε}

/-- After a success, the rest goes on from its state. -/
theorem bind_of_ok (h : x s = .ok a s') : (x >>= k) s = k a s' := by
  show EStateM.bind x k s = k a s'
  rw [EStateM.bind, h]

/-- After a failure, nothing goes on. -/
theorem bind_of_error (h : x s = .error e s') : (x >>= k) s = .error e s' := by
  show EStateM.bind x k s = .error e s'
  rw [EStateM.bind, h]

/-- A successful computation followed by another one. -/
theorem bind_eq_ok (h : (x >>= k) s = .ok b s') : ∃ a s₁, x s = .ok a s₁ ∧ k a s₁ = .ok b s' := by
  cases hx : x s with
  | error e s₁ =>
      rw [bind_of_error hx] at h
      cases h
  | ok a s₁ => exact ⟨a, s₁, rfl, (bind_of_ok hx).symm.trans h⟩

/-- A failure in either of two computations in a row. -/
theorem bind_eq_error (h : (x >>= k) s = .error e s') :
    x s = .error e s' ∨ ∃ a s₁, x s = .ok a s₁ ∧ k a s₁ = .error e s' := by
  cases hx : x s with
  | error e₁ s₁ =>
      rw [bind_of_error hx] at h
      cases h
      exact .inl rfl
  | ok a s₁ => exact .inr ⟨a, s₁, rfl, (bind_of_ok hx).symm.trans h⟩

/-- Applying a function to the result does not fail. -/
theorem map_eq_error {g : α → β} (h : (g <$> x) s = .error e s') : x s = .error e s' := by
  change (x >>= fun a => pure (g a)) s = .error e s' at h
  obtain hx | ⟨a, s₁, -, hlast⟩ := bind_eq_error h
  · exact hx
  · cases hlast

/-- A success is not handled. -/
theorem tryCatch_of_ok {h : ε → EStateM ε σ α} (hx : x s = .ok a s') :
    tryCatch x h s = .ok a s' := by
  show EStateM.tryCatch x h s = .ok a s'
  simp only [EStateM.tryCatch, hx]

/-- A handler goes on in the state that the failure has left. -/
theorem tryCatch_of_error {h : ε → EStateM ε σ α} (hx : x s = .error e s') :
    tryCatch x h s = h e s' := by
  show EStateM.tryCatch x h s = h e s'
  simp only [EStateM.tryCatch, hx]
  rfl

/-- A pass over a list gives as many results. -/
theorem length_of_mapM {g : α → EStateM ε σ β} {as : List α} {bs : List β}
    (h : as.mapM g s = .ok bs s') : bs.length = as.length := by
  induction as generalizing bs s with
  | nil =>
      cases h
      rfl
  | cons a as ih =>
      rw [List.mapM_cons] at h
      obtain ⟨b, s₁, -, hrest⟩ := bind_eq_ok h
      obtain ⟨bs', s₂, hbs, hpure⟩ := bind_eq_ok hrest
      cases hpure
      simp [ih hbs]

end

end Wordcode
