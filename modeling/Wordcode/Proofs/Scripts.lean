import Wordcode.Proofs.Routines
import Mathlib

namespace Wordcode

/-! # Scripts

Programs reach the store, the names and the printed text. Builtins, methods and instructions do so
too, between the calls that they make, and they reach nothing else of the world. When a call fails,
they pass the failure on, at most with another text.

* `Confined` is a computation that reaches nothing but what programs can reach.
* `Script` is what can be put together from computations of some kind, calls, and relays, which pass
  failures on.
* `Script.routine`: scripts of confined computations are routines.
* `Composite` is a script that says whether it needs relays. Without them, failures come out of it
  as they are.
-/

/-! ## What programs can reach -/

/-- The world that has of one world what programs can reach, and of another one all the rest. -/
def World.within (w r : World) : World :=
  { r with store := w.store, globals := w.globals, builtins := w.builtins, output := w.output }

/-- A computation that neither sees nor changes anything but what programs can reach, and that fails
untraced. -/
def Confined {α : Type} (x : Exec α) : Prop :=
  ∀ w r, (∀ a w', x w = .ok a w' → x (w.within r) = .ok a (w'.within r)) ∧
    ∀ e w', x w = .error e w' → x (w.within r) = .error e (w'.within r) ∧ e.Untraced

section

variable {α β : Type} {x : Exec α} {w w' : World} {a : α} {e : Failure}

/-- What a confined computation has changed is what its part of the world has now. -/
theorem Confined.of_ok (h : Confined x) (hrun : x w = .ok a w') : w' = w'.within w := by
  have hsame : x w = .ok a (w'.within w) := (h w w).1 a w' hrun
  rw [hrun] at hsame
  exact (EStateM.Result.ok.inj hsame).2

/-- The same when it fails. -/
theorem Confined.of_error (h : Confined x) (hrun : x w = .error e w') : w' = w'.within w := by
  have hsame : x w = .error e (w'.within w) := ((h w w).2 e w' hrun).1
  rw [hrun] at hsame
  exact (EStateM.Result.error.inj hsame).2

/-- What programs cannot reach is left alone. -/
theorem Confined.leaves {κ : Type} {part : World → κ} (h : Confined x)
    (hpart : ∀ u w : World, part (u.within w) = part w) : Local part x := by
  intro w
  constructor
  · intro a w' hrun
    rw [h.of_ok hrun, hpart]
  · intro e w' hrun
    refine ⟨?_, ((h w w).2 e w' hrun).2⟩
    rw [h.of_error hrun, hpart]

/-- The active frames are out of reach. -/
theorem Confined.local_sites (h : Confined x) : Local World.sites x := h.leaves fun _ _ => rfl

@[grind ←]
theorem confined_pure (a : α) : Confined (pure a) := by
  intro w r
  constructor
  · intro a' w' h
    cases h
    rfl
  · intro e w' h
    cases h

@[grind ←]
theorem confined_throw {e : Failure} (h : e.Untraced) : Confined (throw e : Exec α) := by
  intro w r
  constructor
  · intro a w' hrun
    cases hrun
  · intro e' w' hrun
    cases hrun
    exact ⟨rfl, h⟩

/-- One confined computation after another one. -/
@[grind ←]
theorem Confined.bind {k : α → Exec β} (hx : Confined x) (hk : ∀ a, Confined (k a)) :
    Confined (x >>= k) := by
  intro w r
  cases hrun : x w with
  | error e w₁ =>
      obtain ⟨hrun', he⟩ := (hx w r).2 e w₁ hrun
      rw [bind_of_error hrun, bind_of_error hrun']
      constructor
      · intro b w' h
        cases h
      · intro e' w' h
        cases h
        exact ⟨rfl, he⟩
  | ok a w₁ =>
      rw [bind_of_ok hrun, bind_of_ok ((hx w r).1 a w₁ hrun)]
      exact hk a w₁ r

/-- A handler sees only failures without a trace. -/
@[grind ←]
theorem Confined.handle {h : Failure → Exec α} (hx : Confined x)
    (hh : ∀ e, e.Untraced → Confined (h e)) : Confined (tryCatch x h) := by
  intro w r
  cases hrun : x w with
  | ok a w₁ =>
      rw [tryCatch_of_ok hrun, tryCatch_of_ok ((hx w r).1 a w₁ hrun)]
      constructor
      · intro a' w' h'
        cases h'
        rfl
      · intro e w' h'
        cases h'
  | error e w₁ =>
      obtain ⟨hrun', he⟩ := (hx w r).2 e w₁ hrun
      rw [tryCatch_of_error hrun, tryCatch_of_error hrun']
      exact hh e he w₁ r

@[grind ←]
theorem confined_foldlM {f : β → α → Exec β} (h : ∀ b a, Confined (f b a)) (as : List α) (b : β) :
    Confined (as.foldlM f b) := by
  induction as generalizing b with
  | nil => exact confined_pure b
  | cons a as ih =>
      rw [List.foldlM_cons]
      exact (h b a).bind ih

@[grind ←]
theorem confined_mapM {f : α → Exec β} (h : ∀ a, Confined (f a)) (as : List α) :
    Confined (as.mapM f) := by
  induction as with
  | nil => exact confined_pure []
  | cons a as ih =>
      rw [List.mapM_cons]
      exact (h a).bind fun b => ih.bind fun bs => confined_pure (b :: bs)

end

namespace Exec

variable {α : Type}

/-- Operations on values reach only the store. -/
@[grind ←]
theorem confined_lift {x : Op α} (hx : Local Store.fixed x) : Confined (liftM x : Exec α) := by
  intro w r
  show (∀ a w', Exec.lift x w = .ok a w' → Exec.lift x (w.within r) = .ok a (w'.within r)) ∧
    ∀ e w', Exec.lift x w = .error e w' →
      Exec.lift x (w.within r) = .error e (w'.within r) ∧ e.Untraced
  have hstore : (w.within r).store = w.store := rfl
  unfold Exec.lift
  simp only [hstore]
  -- an operation on the store sees nothing of the rest of the world
  cases hrun : x w.store with
  | ok a s =>
      constructor
      · intro a' w' h
        cases h
        rfl
      · intro e w' h
        cases h
  | error e s =>
      constructor
      · intro a w' h
        cases h
      · intro e' w' h
        cases h
        exact ⟨rfl, ((hx w.store).2 e s hrun).2⟩

@[grind ←]
theorem confined_raise (kind : Fault.Kind) (message : String) :
    Confined (raise kind message : Exec α) :=
  confined_throw (Failure.untraced_raise kind message)

@[grind ←]
theorem confined_typeError (message : String) : Confined (typeError message : Exec α) :=
  confined_raise .type message

@[grind ←]
theorem confined_valueError (message : String) : Confined (valueError message : Exec α) :=
  confined_raise .value message

/-- A result that fails without a trace. -/
@[grind ←]
theorem confined_ofExcept {x : Except Failure α} (h : FailsUntraced x) :
    Confined (ofExcept x) := by
  cases x with
  | ok a => exact confined_pure a
  | error e => exact confined_throw (h e rfl)

/-- Every computation that changes only what programs can reach, without looking at the rest. -/
theorem confined_modify {f : World → World} (h : ∀ w r, f (w.within r) = (f w).within r) :
    Confined (modify f : Exec PUnit) := by
  intro w r
  constructor
  · intro a w' hrun
    cases hrun
    exact congrArg (EStateM.Result.ok PUnit.unit) (h w r)
  · intro e w' hrun
    cases hrun

@[grind ←]
theorem confined_print (text : String) : Confined (print text) := confined_modify fun _ _ => rfl

/-- Looking at what programs can reach. -/
theorem confined_gets {f : World → α} (h : ∀ w r, f (w.within r) = f w) :
    Confined (do return f (← get) : Exec α) := by
  intro w r
  constructor
  · intro a w' hrun
    cases hrun
    exact congrArg (EStateM.Result.ok · (w.within r)) (h w r)
  · intro e w' hrun
    cases hrun

/-- A failure is replaced by one without a trace. -/
@[grind ←]
theorem confined_orError {x : Exec α} (hx : Confined x) {e : Failure} (he : e.Untraced) :
    Confined (orError x e) := by
  refine hx.handle fun inner hinner => confined_throw ?_
  split
  · exact he
  · exact hinner

/-- What keeps the store's part keeps the sites. -/
@[grind ←]
theorem local_lift {x : Op α} (hx : Local Store.fixed x) :
    Local World.sites (liftM x : Exec α) :=
  (confined_lift hx).local_sites

@[grind ←]
theorem local_raise {κ : Type} {part : World → κ} (kind : Fault.Kind) (message : String) :
    Local part (raise kind message : Exec α) :=
  local_throw (Failure.untraced_raise kind message)

@[grind ←]
theorem local_typeError {κ : Type} {part : World → κ} (message : String) :
    Local part (typeError message : Exec α) :=
  local_raise .type message

end Exec

/-! ## Scripts -/

/-- A way to pass failures on. It may give an error another text, but not another trace. What breaks
off the run passes through. -/
structure Relay (g : Failure → Failure) : Prop where
  breaks : ∀ e, e.isError = false → g e = e
  isError_eq : ∀ e, (g e).isError = e.isError
  fault : ∀ e f, (g e).fault? = some f → f.trace = [] ∨ e.fault? = some f

/-- A computation that uses the way to call values only by calling. What it does on its own has a
certain property, and whatever fails makes it fail. -/
inductive Script (P : ∀ {α : Type}, Exec α → Prop) : {α : Type} → (Invoke → Exec α) → Prop
  | own {α : Type} {x : Exec α} : P x → Script P fun _ => x
  | call (f : Value) (args : List Value) (keywords : List Entry) :
    Script P fun invoke => invoke f args keywords
  | bind {α β : Type} {x : Invoke → Exec α} {k : α → Invoke → Exec β} :
    Script P x → (∀ a, Script P (k a)) → Script P fun invoke => x invoke >>= fun a => k a invoke
  | relay {α : Type} {x : Invoke → Exec α} {g : Failure → Failure} :
    Script P x → Relay g → Script P fun invoke => tryCatch (x invoke) fun e => throw (g e)

namespace Script

variable {α : Type} {x : Invoke → Exec α}

/-- A script of computations that leave the frames alone is a routine. -/
theorem routine (h : Script Confined x) {passes : Fault → Prop} : Routine passes x := by
  induction h with
  | own hx => exact .own hx.local_sites
  | call f args keywords => exact .call f args keywords
  | bind _ _ ihx ihk => exact .bind ihx ihk
  | relay _ hg ih =>
      refine .handle ih (fun e => .pass fun f hf => ?_) fun e he => ?_
      · rcases hg.fault e f hf with hnone | hsame
        · exact Or.inl hnone
        · exact Or.inr (Or.inr hsame)
      · rw [hg.breaks e he]

end Script

/-! ## Composites -/

/-- A script whose relays have to be admitted. -/
inductive Composite (relays : Prop) (P : ∀ {α : Type}, Exec α → Prop) :
    {α : Type} → (Invoke → Exec α) → Prop
  | own {α : Type} {x : Exec α} : P x → Composite relays P fun _ => x
  | call (f : Value) (args : List Value) (keywords : List Entry) :
    Composite relays P fun invoke => invoke f args keywords
  | bind {α β : Type} {x : Invoke → Exec α} {k : α → Invoke → Exec β} :
    Composite relays P x → (∀ a, Composite relays P (k a)) →
    Composite relays P fun invoke => x invoke >>= fun a => k a invoke
  | relay {α : Type} {x : Invoke → Exec α} {g : Failure → Failure} :
    relays → Composite relays P x → Relay g →
    Composite relays P fun invoke => tryCatch (x invoke) fun e => throw (g e)

namespace Composite

variable {α : Type} {relays : Prop} {P Q : ∀ {α : Type}, Exec α → Prop} {x : Invoke → Exec α}

/-- A composite is a script, whatever its calls are. -/
theorem script (h : Composite relays P x) : Script P x := by
  induction h with
  | own hx => exact .own hx
  | call f args keywords => exact .call f args keywords
  | bind _ _ ihx ihk => exact .bind ihx ihk
  | relay _ _ hg ih => exact .relay ih hg

/-- A composite of computations of one kind is one of any wider kind. -/
theorem mono (h : Composite relays P x) (hPQ : ∀ {α : Type} (x : Exec α), P x → Q x) :
    Composite relays Q x := by
  induction h with
  | own hx => exact .own (hPQ _ hx)
  | call f args keywords => exact .call f args keywords
  | bind _ _ ihx ihk => exact .bind ihx ihk
  | relay hrelays _ hg ih => exact .relay hrelays ih hg

theorem pure (a : α) : Composite relays Confined fun _ => (pure a : Exec α) :=
  own (confined_pure a)

/-- What is done with the result does not matter. -/
theorem map {β : Type} (hx : Composite relays Confined x) (g : α → β) :
    Composite relays Confined fun invoke => g <$> x invoke := by
  have h : Composite relays Confined fun invoke => x invoke >>= fun a => Pure.pure (g a) :=
    .bind hx fun a => .pure (g a)
  exact h

/-- A check that comes first. -/
theorem guarded {c : Prop} [Decidable c] {check : Exec PUnit} (hcheck : Confined check)
    (hx : Composite relays Confined x) :
    Composite relays Confined fun invoke =>
      if c then check >>= fun _ => x invoke else x invoke := by
  by_cases h : c
  · simp only [h, if_true]
    exact .bind (.own hcheck) fun _ => hx
  · simpa only [h, if_false] using hx

/-- A failure that is replaced by another one. -/
theorem orError (hrelays : relays) (hx : Composite relays P x) {e : Failure} (he : e.Untraced)
    (herror : e.isError = true) : Composite relays P fun invoke => Exec.orError (x invoke) e := by
  refine .relay hrelays hx ⟨fun inner hinner => ?_, fun inner => ?_, fun inner f hf => ?_⟩
  · rw [if_neg (by simp [hinner])]
  · by_cases h : inner.isError = true
    · rw [if_pos h, herror, h]
    · rw [if_neg h]
  · by_cases h : inner.isError = true
    · rw [if_pos h] at hf
      exact Or.inl (he f hf)
    · rw [if_neg h] at hf
      exact Or.inr hf

end Composite

/-- Where relays are admitted, any script will do. -/
theorem Script.composite {α : Type} {P : ∀ {α : Type}, Exec α → Prop} {x : Invoke → Exec α}
    (h : Script P x) : Composite True P x := by
  induction h with
  | own hx => exact .own hx
  | call f args keywords => exact .call f args keywords
  | bind _ _ ihx ihk => exact .bind ihx ihk
  | relay _ hg ih => exact .relay trivial ih hg

end Wordcode
