import Wordcode.Proofs.Locality
import Mathlib

namespace Wordcode

/-! # Routines

Builtins, methods and instructions call values through a function that they are given. They do
nothing else with it: a routine is put together from local computations, calls, and handlers of
failures.

* `Routine` is what can be put together in this way.
* `Makes` says that a routine makes a certain call, `Omits` that it does not.
* `Routine.keepsSites`: a routine leaves the sites of the frames as they are, if its calls do.
* `Routine.traced_cases`: a failure with a trace comes out of a call that the routine makes.
-/

/-! ## Requests -/

/-- A call that is asked for, and the world in which that happens. -/
structure Request where
  callee : Value
  args : List Value
  keywords : List Entry
  world : World

/-- The result of a request. -/
def Invoke.result (invoke : Invoke) (q : Request) : EStateM.Result Failure World (Option Value) :=
  invoke q.callee q.args q.keywords q.world

open Classical in
/-- The same way to call values, except that one request breaks off. -/
noncomputable def Invoke.breakAt (invoke : Invoke) (q : Request) (e : Failure) : Invoke :=
  fun f args keywords w =>
    if (⟨f, args, keywords, w⟩ : Request) = q then .error e w else invoke f args keywords w

/-- A computation that is given a way to call values makes a request: whatever breaks off that
request breaks off the computation there and then. -/
def Makes {α : Type} (x : Invoke → Exec α) (invoke : Invoke) (w : World) (q : Request) : Prop :=
  ∀ e, e.isError = false → x (invoke.breakAt q e) w = .error e q.world

/-- A computation does not make a request: nothing changes when that one breaks off. -/
def Omits {α : Type} (x : Invoke → Exec α) (invoke : Invoke) (w : World) (q : Request) : Prop :=
  ∀ e, e.isError = false → x (invoke.breakAt q e) w = x invoke w

/-- A computation that leaves the sites of the frames as they are, also when it fails. -/
def KeepsSites {α : Type} (x : Exec α) : Prop :=
  ∀ w, (∀ a w', x w = .ok a w' → w'.sites = w.sites) ∧
    ∀ e w', x w = .error e w' → w'.sites = w.sites

/-- Calls leave the sites of the frames as they are. -/
def Invoke.KeepsSites (invoke : Invoke) : Prop :=
  ∀ f args keywords, Wordcode.KeepsSites (invoke f args keywords)

/-! ## Routines -/

/-- A computation that uses the way to call values only by calling. What it does on its own is local
to it. It fails with a trace only when a call has failed so and, while that failure is being
handled, with faults that it passes on. What breaks off the run is not handled. -/
inductive Routine : {α : Type} → (Fault → Prop) → (Invoke → Exec α) → Prop
  | own {α : Type} {passes : Fault → Prop} {x : Exec α} :
    Local World.sites x → Routine passes fun _ => x
  | pass {α : Type} {passes : Fault → Prop} {e : Failure} :
    (∀ f, e.fault? = some f → f.trace = [] ∨ passes f) →
    Routine passes fun _ => (throw e : Exec α)
  | call {passes : Fault → Prop} (f : Value) (args : List Value) (keywords : List Entry) :
    Routine passes fun invoke => invoke f args keywords
  | bind {α β : Type} {passes : Fault → Prop} {x : Invoke → Exec α} {k : α → Invoke → Exec β} :
    Routine passes x → (∀ a, Routine passes (k a)) →
    Routine passes fun invoke => x invoke >>= fun a => k a invoke
  | handle {α : Type} {passes : Fault → Prop} {x : Invoke → Exec α}
      {h : Failure → Invoke → Exec α} :
    Routine passes x → (∀ e, Routine (fun f => passes f ∨ e.fault? = some f) (h e)) →
    (∀ e, e.isError = false → h e = fun _ => throw e) →
    Routine passes fun invoke => tryCatch (x invoke) fun e => h e invoke

namespace KeepsSites

variable {α β : Type}

theorem of_local {x : Exec α} (h : Local World.sites x) : KeepsSites x :=
  fun w => ⟨(h w).1, fun e w' hrun => ((h w).2 e w' hrun).1⟩

/-- A routine that keeps the sites, and then another one. -/
theorem bind {x : Exec α} {k : α → Exec β} (hx : KeepsSites x) (hk : ∀ a, KeepsSites (k a)) :
    KeepsSites (x >>= k) := by
  intro w
  -- a failure of the first part is the failure of the whole
  cases hrun : x w with
  | error e w₁ =>
      rw [bind_of_error hrun]
      constructor
      · intro b w' h
        cases h
      · intro e' w' h
        cases h
        exact (hx w).2 e w₁ hrun
  | ok a w₁ =>
      have hsame := (hx w).1 a w₁ hrun
      rw [bind_of_ok hrun]
      constructor
      · intro b w' h
        exact ((hk a w₁).1 b w' h).trans hsame
      · intro e w' h
        exact ((hk a w₁).2 e w' h).trans hsame

/-- A handler begins with the sites as they were. -/
theorem handle {x : Exec α} {h : Failure → Exec α} (hx : KeepsSites x)
    (hh : ∀ e, KeepsSites (h e)) : KeepsSites (tryCatch x h) := by
  intro w
  -- the handler starts where the failing part stopped
  cases hrun : x w with
  | ok a w₁ =>
      rw [tryCatch_of_ok hrun]
      constructor
      · intro a' w' h'
        cases h'
        exact (hx w).1 a w₁ hrun
      · intro e w' h'
        cases h'
  | error e w₁ =>
      have hsame := (hx w).2 e w₁ hrun
      rw [tryCatch_of_error hrun]
      constructor
      · intro a w' h'
        exact ((hh e w₁).1 a w' h').trans hsame
      · intro e' w' h'
        exact ((hh e w₁).2 e' w' h').trans hsame

theorem throw (e : Failure) : KeepsSites (throw e : Exec α) := by
  intro w
  constructor
  · intro a w' h
    cases h
  · intro e' w' h
    cases h
    rfl

end KeepsSites

namespace Routine

variable {α : Type} {passes : Fault → Prop} {x : Invoke → Exec α} {invoke : Invoke}

/-- A routine leaves the sites of the frames as they are, if calls do. -/
theorem keepsSites (h : Routine passes x) (hinvoke : invoke.KeepsSites) :
    KeepsSites (x invoke) := by
  induction h with
  | own hlocal => exact .of_local hlocal
  | pass => exact .throw _
  | call f args keywords => exact hinvoke f args keywords
  | bind _ _ ihx ihk => exact ihx.bind ihk
  | handle _ _ _ ihx ihh => exact ihx.handle ihh

/-- Whether or not a routine makes a request, it does the same up to there. -/
theorem breakAt_cases (h : Routine passes x) (q : Request) {e : Failure} (he : e.isError = false)
    (w : World) : x (invoke.breakAt q e) w = x invoke w ∨
      x (invoke.breakAt q e) w = .error e q.world := by
  -- what comes before the request does not see the difference, and what comes after is not reached
  induction h generalizing w with
  | own | pass => exact Or.inl rfl
  | call f args keywords =>
      unfold Invoke.breakAt
      by_cases hq : (⟨f, args, keywords, w⟩ : Request) = q
      · subst hq
        exact Or.inr (if_pos rfl)
      · exact Or.inl (if_neg hq)
  | @bind α β passes x k _ _ ihx ihk =>
      beta_reduce
      rcases ihx w with hsame | hbroken
      · cases hrun : x invoke w with
        | error e' w' =>
            refine Or.inl ?_
            rw [bind_of_error hrun, bind_of_error (hsame.trans hrun)]
        | ok a w' =>
            rw [bind_of_ok hrun, bind_of_ok (hsame.trans hrun)]
            exact ihk a w'
      · exact Or.inr (bind_of_error hbroken)
  | @handle α passes x h _ _ hpass ihx ihh =>
      beta_reduce
      rcases ihx w with hsame | hbroken
      · cases hrun : x invoke w with
        | ok a w' =>
            refine Or.inl ?_
            rw [tryCatch_of_ok hrun, tryCatch_of_ok (hsame.trans hrun)]
        | error e' w' =>
            rw [tryCatch_of_error hrun, tryCatch_of_error (hsame.trans hrun)]
            exact ihh e' w'
      · refine Or.inr ?_
        rw [tryCatch_of_error hbroken, hpass e he]
        rfl

end Routine

namespace Makes

variable {α β : Type} {passes : Fault → Prop} {x : Invoke → Exec α} {invoke : Invoke}
  {w w₁ : World} {q : Request}

/-- A request makes itself. -/
theorem call (f : Value) (args : List Value) (keywords : List Entry) :
    Makes (fun invoke => invoke f args keywords) invoke w ⟨f, args, keywords, w⟩ := by
  intro e _
  exact if_pos rfl

/-- What the first part makes, the whole makes. -/
theorem bind_left (h : Makes x invoke w q) (k : α → Invoke → Exec β) :
    Makes (fun invoke => x invoke >>= fun a => k a invoke) invoke w q :=
  fun e he => bind_of_error (h e he)

/-- What is done after a routine is done after the same routine up to the request. -/
theorem bind_right {a : α} {k : α → Invoke → Exec β} (hx : Routine passes x)
    (hrun : x invoke w = .ok a w₁) (h : Makes (k a) invoke w₁ q) :
    Makes (fun invoke => x invoke >>= fun a => k a invoke) invoke w q := by
  intro e he
  rcases hx.breakAt_cases q he w with hsame | hbroken
  · exact (bind_of_ok (hsame.trans hrun)).trans (h e he)
  · exact bind_of_error hbroken

/-- What is handled makes its calls all the same, if the handler lets pass what is not an error. -/
theorem handle_left {h : Failure → Invoke → Exec α} (hx : Makes x invoke w q)
    (hpass : ∀ e, e.isError = false → h e = fun _ => throw e) :
    Makes (fun invoke => tryCatch (x invoke) fun e => h e invoke) invoke w q := by
  intro e he
  beta_reduce
  rw [tryCatch_of_error (hx e he), hpass e he]
  rfl

/-- What a handler makes, the whole makes, if there is something to handle. -/
theorem handle_right {e₁ : Failure} {h : Failure → Invoke → Exec α} (hx : Routine passes x)
    (hpass : ∀ e, e.isError = false → h e = fun _ => throw e)
    (hrun : x invoke w = .error e₁ w₁) (hh : Makes (h e₁) invoke w₁ q) :
    Makes (fun invoke => tryCatch (x invoke) fun e => h e invoke) invoke w q := by
  intro e he
  beta_reduce
  rcases hx.breakAt_cases q he w with hsame | hbroken
  · rw [tryCatch_of_error (hsame.trans hrun)]
    exact hh e he
  · rw [tryCatch_of_error hbroken, hpass e he]
    rfl

/-- Requests are made while the sites of the frames are as they were at the start. -/
theorem sites_eq (hx : Routine passes x) (hinvoke : invoke.KeepsSites)
    (h : Makes x invoke w q) : q.world.sites = w.sites := by
  have hbroken : (invoke.breakAt q .crash).KeepsSites := by
    intro f args keywords w'
    unfold Invoke.breakAt
    by_cases hq : (⟨f, args, keywords, w'⟩ : Request) = q
    · rw [if_pos hq]
      exact KeepsSites.throw .crash w'
    · rw [if_neg hq]
      exact hinvoke f args keywords w'
  exact (hx.keepsSites hbroken w).2 _ _ (h .crash rfl)

end Makes

/-- A call that is made is not left out. -/
theorem Makes.not_omits {α : Type} {x : Invoke → Exec α} {invoke : Invoke} {w : World}
    {q : Request} (h : Makes x invoke w q) : ¬Omits x invoke w q := by
  intro homits
  -- the computation alone cannot fail in both ways
  have hcrash := (homits .crash rfl).symm.trans (h .crash rfl)
  have hexhausted := (homits .exhausted rfl).symm.trans (h .exhausted rfl)
  cases hcrash.symm.trans hexhausted

namespace Routine

variable {α : Type} {passes : Fault → Prop} {x : Invoke → Exec α} {invoke : Invoke}

/-- A routine makes a request or does not. -/
theorem makes_or_omits (h : Routine passes x) (invoke : Invoke) (w : World) (q : Request) :
    Makes x invoke w q ∨ Omits x invoke w q := by
  -- a part that omits the request ends as it did, so the next part starts in the same world
  induction h generalizing w with
  | own | pass => exact Or.inr fun _ _ => rfl
  | call f args keywords =>
      by_cases hq : (⟨f, args, keywords, w⟩ : Request) = q
      · subst hq
        exact Or.inl (.call f args keywords)
      · exact Or.inr fun e _ => if_neg hq
  | @bind α β passes x k hx _ ihx ihk =>
      rcases ihx w with hmakes | homits
      · exact Or.inl (hmakes.bind_left k)
      · cases hrun : x invoke w with
        | error e' w' =>
            refine Or.inr fun e he => ?_
            beta_reduce
            rw [bind_of_error hrun, bind_of_error ((homits e he).trans hrun)]
        | ok a w' =>
            refine (ihk a w').imp (.bind_right hx hrun) fun hrest e he => ?_
            beta_reduce
            rw [bind_of_ok hrun, bind_of_ok ((homits e he).trans hrun)]
            exact hrest e he
  | @handle α passes x h hx _ hpass ihx ihh =>
      rcases ihx w with hmakes | homits
      · exact Or.inl (hmakes.handle_left hpass)
      · cases hrun : x invoke w with
        | ok a w' =>
            refine Or.inr fun e he => ?_
            beta_reduce
            rw [tryCatch_of_ok hrun, tryCatch_of_ok ((homits e he).trans hrun)]
        | error e' w' =>
            refine (ihh e' w').imp (.handle_right hx hpass hrun) fun hrest e he => ?_
            beta_reduce
            rw [tryCatch_of_error hrun, tryCatch_of_error ((homits e he).trans hrun)]
            exact hrest e he

end Routine

namespace Makes

variable {α β : Type} {x : Invoke → Exec α} {invoke : Invoke} {w w₁ : World} {q : Request}

/-- What a computation does on its own makes no request. -/
theorem not_own {x : Exec α} : ¬Makes (fun _ => x) invoke w q := fun h => h.not_omits fun _ _ => rfl

/-- A request of two routines, one after the other, is made by the first one, or by the second one
after the first one has come to its end. -/
theorem bind_cases {k : α → Invoke → Exec β} (hx : Routine (fun _ => False) x)
    (h : Makes (fun invoke => x invoke >>= fun a => k a invoke) invoke w q) :
    Makes x invoke w q ∨ ∃ a w₁, x invoke w = .ok a w₁ ∧ Makes (k a) invoke w₁ q := by
  rcases hx.makes_or_omits invoke w q with hmakes | homits
  · exact Or.inl hmakes
  · refine Or.inr ?_
    cases hrun : x invoke w with
    | ok a w₁ =>
        refine ⟨a, w₁, rfl, fun e he => ?_⟩
        exact (bind_of_ok ((homits e he).trans hrun)).symm.trans (h e he)
    | error e₁ w₁ =>
        refine absurd (fun e he => ?_) h.not_omits
        beta_reduce
        rw [bind_of_error hrun, bind_of_error ((homits e he).trans hrun)]

/-- A request of a routine whose failures are only passed on is made by the routine itself. -/
theorem of_relay {g : Failure → Failure} (hx : Routine (fun _ => False) x)
    (h : Makes (fun invoke => tryCatch (x invoke) fun e => throw (g e)) invoke w q) :
    Makes x invoke w q := by
  refine (hx.makes_or_omits invoke w q).resolve_right fun homits => h.not_omits fun e he => ?_
  beta_reduce
  cases hrun : x invoke w with
  | ok a w₁ => rw [tryCatch_of_ok hrun, tryCatch_of_ok ((homits e he).trans hrun)]
  | error e₁ w₁ => rw [tryCatch_of_error hrun, tryCatch_of_error ((homits e he).trans hrun)]

end Makes

namespace Routine

variable {α : Type} {passes : Fault → Prop} {x : Invoke → Exec α} {invoke : Invoke}

/-- A failure with a trace is passed on, or it comes out of a call that the routine makes. -/
theorem traced_cases (h : Routine passes x) {w w' : World} {e : Failure} {f : Fault}
    (hrun : x invoke w = .error e w') (hf : e.fault? = some f) (htrace : f.trace ≠ []) :
    passes f ∨ ∃ q e₁ w₁, Makes x invoke w q ∧ invoke.result q = .error e₁ w₁ ∧
      e₁.fault? = some f := by
  -- what the routine does by itself fails untraced, so the trace is from a call
  induction h generalizing w w' e f with
  | own hlocal => exact absurd (hlocal.trace_eq_nil hrun hf) htrace
  | pass hpass =>
      cases hrun
      rcases hpass f hf with hnone | hpasses
      · exact absurd hnone htrace
      · exact Or.inl hpasses
  | call g args keywords =>
      exact Or.inr ⟨⟨g, args, keywords, w⟩, e, w', .call g args keywords, hrun, hf⟩
  | @bind α β passes x k hx hk ihx ihk =>
      beta_reduce at hrun
      cases hfirst : x invoke w with
      | error e₁ w₁ =>
          rw [bind_of_error hfirst] at hrun
          cases hrun
          rcases ihx hfirst hf htrace with hpasses | ⟨q, e₂, w₂, hmakes, hresult⟩
          · exact Or.inl hpasses
          · exact Or.inr ⟨q, e₂, w₂, hmakes.bind_left k, hresult⟩
      | ok a w₁ =>
          rw [bind_of_ok hfirst] at hrun
          rcases ihk a hrun hf htrace with hpasses | ⟨q, e₂, w₂, hmakes, hresult⟩
          · exact Or.inl hpasses
          · exact Or.inr ⟨q, e₂, w₂, hmakes.bind_right hx hfirst, hresult⟩
  | @handle α passes x h hx hh hpass ihx ihh =>
      beta_reduce at hrun
      cases hfirst : x invoke w with
      | ok a w₁ =>
          rw [tryCatch_of_ok hfirst] at hrun
          cases hrun
      | error e₁ w₁ =>
          rw [tryCatch_of_error hfirst] at hrun
          rcases ihh e₁ hrun hf htrace with hpasses | ⟨q, e₂, w₂, hmakes, hresult⟩
          · -- the handler passes on a fault of its own or the one that it handles
            rcases hpasses with hpasses | hf₁
            · exact Or.inl hpasses
            · rcases ihx hfirst hf₁ htrace with hpasses | ⟨q, e₂, w₂, hmakes, hresult⟩
              · exact Or.inl hpasses
              · exact Or.inr ⟨q, e₂, w₂, hmakes.handle_left hpass, hresult⟩
          · exact Or.inr ⟨q, e₂, w₂, hmakes.handle_right hx hpass hfirst, hresult⟩

end Routine

end Wordcode
