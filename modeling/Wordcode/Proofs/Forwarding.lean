import Wordcode.Proofs.CallForms
import Wordcode.Proofs.Finality
import Mathlib

namespace Wordcode

/-! # Forwarding

Whatever makes a call fails if the call does, and mostly in the same way. There are two exceptions:
an instruction that unpacks a value, and a call that merges pairs into a dict. A failure that comes
out of the items of that value, or of such a pair, is answered with an error that says what could
not be gone through.

* `Makes.gather_cases` and `Makes.merge_cases` tell from where a request is made.
* `Machine.Unpacks` and `Machine.MergesPair` are the requests that are made while something is gone
  through in this way.
* `Machine.ends_turn_of_not_unpacks` and `Machine.ends_answer_of_not_mergesPair` bring the failures
  of all others to the caller.
* `Machine.ends_turn_of_unpacks` and `Machine.ends_answer_of_mergesPair` say what takes their place.
-/

/-! ## Errors in place of failures -/

/-- An error that has not been recorded. -/
def Failure.Fresh (e : Failure) : Prop := e.isError = true ∧ e.Untraced

/-- An error is still one after a relay. -/
theorem relayed_isError : Relayed fun e _ => e.isError = true := by
  intro g hg e w he
  rwa [hg.isError_eq]

/-- So is one that has not been recorded. -/
theorem relayed_fresh : Relayed fun e _ => e.Fresh := by
  rintro g hg e w ⟨herror, huntraced⟩
  refine ⟨by rwa [hg.isError_eq], fun f hf => ?_⟩
  exact (hg.fault e f hf).elim id (huntraced f)

/-! ## Going through items -/

namespace Surroundings

/-- All items of a value, as instructions and what they call take them. -/
def gather (s : Surroundings) (v : Value) : Exec (List Value) :=
  Exec.collect s.callback s.fuel v

/-- Filing pairs in a dict. -/
def filePairs (s : Surroundings) (ref i : Nat) (pairs : List Value) : Exec Unit :=
  Exec.updatePairs s.callback s.fuel ref i pairs

/-- Merging what a call is given into a dict. -/
def merge (s : Surroundings) (ref : Nat) (args : List Value) (keywords : List Entry) : Exec Unit :=
  Exec.merge s.callback s.fuel ref args keywords

/-- What is merged is a dict, which makes no requests, or an iterable of pairs. -/
theorem update_of_not_dict {other : Value} (h : ∀ source, other ≠ .dict source)
    (s : Surroundings) (ref : Nat) :
    Exec.update s.callback s.fuel ref other =
      s.gather other >>= fun pairs => s.filePairs ref 0 pairs := by
  unfold Exec.update
  split
  · exact absurd rfl (h _)
  · rfl

end Surroundings

section

variable {β : Type} {n ref : Nat} {v : Value} {invoke : Invoke} {w : World}
  {q : Request} {e₀ : Failure} {k : List Value → Invoke → Exec β}

/-- Gathering items is a composite of calls. -/
theorem composite_gather {relays : Prop} (n : Nat) (v : Value) :
    Composite relays Confined fun invoke =>
      (⟨invoke, n⟩ : Surroundings).gather v :=
  .collect (Composite.callback n) n v

/-- Going through an iterator begins with its next item. -/
theorem Makes.gather_of_next
    (h : Makes (fun invoke =>
      Exec.next (⟨invoke, n + 2⟩ : Surroundings).callback n ref) invoke w q) :
    Makes (fun invoke => (⟨invoke, n + 2⟩ : Surroundings).gather (.iterator ref)) invoke w
      q :=
  h.bind_left _

/-- What answers failures with an error makes a request while it goes through the items, or after
that. -/
theorem Makes.gather_cases (he : e₀.Fresh)
    (h : Makes (fun invoke =>
      Exec.orError ((⟨invoke, n⟩ : Surroundings).gather v) e₀ >>= fun vs => k vs invoke)
      invoke w q) :
    Makes (fun invoke => (⟨invoke, n⟩ : Surroundings).gather v) invoke w q ∨
      ∃ vs w₁, (⟨invoke, n⟩ : Surroundings).gather v w = .ok vs w₁ ∧
        Makes (k vs) invoke w₁ q := by
  have hall : Composite True Confined fun invoke =>
      (⟨invoke, n⟩ : Surroundings).gather v := composite_gather n v
  have hroutine : Routine (fun _ => False) fun invoke =>
      Exec.orError ((⟨invoke, n⟩ : Surroundings).gather v) e₀ :=
    (hall.orError trivial he.2 he.1).script.routine
  -- the handler around the gathering makes no calls of its own
  rcases h.bind_cases hroutine with hgather | ⟨vs, w₁, hgather, hrest⟩
  · exact Or.inl (hgather.of_relay hall.script.routine)
  · refine Or.inr ⟨vs, w₁, ?_, hrest⟩
    cases hrun : (⟨invoke, n⟩ : Surroundings).gather v w with
    | ok vs' w' => exact (tryCatch_of_ok hrun).symm.trans hgather
    | error e w' => cases (tryCatch_of_error hrun).symm.trans hgather

/-- An error that comes out of the items is replaced. -/
theorem Makes.ends_orError (he : e₀.Fresh)
    (h : Makes (fun invoke => (⟨invoke, n⟩ : Surroundings).gather v) invoke w q)
    (hq : Ends (fun e _ => e.isError = true) (invoke.result q)) :
    Ends (fun e _ => e.Fresh)
      (Exec.orError ((⟨invoke, n⟩ : Surroundings).gather v) e₀ w) := by
  have hgather := h.ends (composite_gather n v) False.elim hq
  refine hgather.pass fun e w' hrun herror => ⟨_, w', tryCatch_of_error hrun, ?_⟩
  rwa [if_pos herror]

/-- A pair whose items cannot be had makes for an error about the pair. -/
theorem Makes.ends_filePairs {i : Nat} {pairs : List Value}
    (h : Makes (fun invoke => (⟨invoke, n⟩ : Surroundings).filePairs ref i pairs) invoke w
      q)
    (hq : Ends (fun e _ => e.isError = true) (invoke.result q)) :
    Ends (fun e _ => e.Fresh)
      ((⟨invoke, n⟩ : Surroundings).filePairs ref i pairs w) := by
  induction pairs generalizing i w with
  | nil => exact absurd h Makes.not_own
  | cons item rest ih =>
      have hfresh : (Failure.raise .type
          s!"cannot convert dictionary update sequence element #{i} to a sequence").Fresh :=
        ⟨rfl, Failure.untraced_raise _ _⟩
      -- the call is made for the first pair or for a later one; setting a key calls nothing
      rcases h.gather_cases hfresh with hitem | ⟨pair, w₁, hitem, hrest⟩
      · exact (hitem.ends_orError hfresh hq).bind _
      · refine Ends.same ?_ (decides_bind_right (tryCatch_of_ok hitem))
        split at hrest
        · rename_i key value
          have hlocal : Local World.sites (liftM (Op.dictSet ref key value) : Exec Unit) :=
            Exec.local_lift (Op.local_dictSet ref key value)
          rcases hrest.bind_cases (.own hlocal) with
            hset | ⟨_, w₂, hset, hlater⟩
          · exact absurd hset Makes.not_own
          · have hdecides := decides_bind_right
              (k := fun _ => (⟨invoke, n⟩ : Surroundings).filePairs ref (i + 1) rest) hset
            exact (ih hlater).same hdecides
        · exact absurd hrest Makes.not_own

/-- Merging makes a request while it goes through what is merged, or while it files the pairs. -/
theorem Makes.merge_cases {args : List Value} {keywords : List Entry}
    (h : Makes (fun invoke => (⟨invoke, n⟩ : Surroundings).merge ref args keywords) invoke
      w q) :
    ∃ other rest, args = other :: rest ∧
      (Makes (fun invoke => (⟨invoke, n⟩ : Surroundings).gather other) invoke w q ∧
          Decides ((⟨invoke, n⟩ : Surroundings).gather other w)
            ((⟨invoke, n⟩ : Surroundings).merge ref args keywords w) ∨
        ∃ pairs w₁, (⟨invoke, n⟩ : Surroundings).gather other w = .ok pairs w₁ ∧
          Makes (fun invoke => (⟨invoke, n⟩ : Surroundings).filePairs ref 0 pairs) invoke
            w₁ q ∧
          Decides ((⟨invoke, n⟩ : Surroundings).filePairs ref 0 pairs w₁)
            ((⟨invoke, n⟩ : Surroundings).merge ref args keywords w)) := by
  cases args with
  | nil => exact absurd h Makes.not_own
  | cons other rest =>
      refine ⟨other, rest, rfl, ?_⟩
      have hupdate : Composite True Confined fun invoke =>
          Exec.update (Surroundings.callback ⟨invoke, n⟩) n ref other :=
        .update (Composite.callback n) trivial n ref other
      rcases h.bind_cases hupdate.script.routine with
        hfirst | ⟨_, _, _, hkeywords⟩
      · -- the entries of a dict are there already, and other values are asked for their items
        by_cases hdict : ∃ source, other = .dict source
        · obtain ⟨source, rfl⟩ := hdict
          exact absurd hfirst Makes.not_own
        · push Not at hdict
          have heq (invoke : Invoke) :=
            Surroundings.update_of_not_dict hdict ⟨invoke, n⟩ ref
          have hsteps : Makes (fun invoke =>
              (⟨invoke, n⟩ : Surroundings).gather other >>= fun pairs =>
                (⟨invoke, n⟩ : Surroundings).filePairs ref 0 pairs) invoke w q :=
            fun e he => (congrFun (heq _) w).symm.trans (hfirst e he)
          have hdecides : Decides (((⟨invoke, n⟩ : Surroundings).gather other >>=
              fun pairs => (⟨invoke, n⟩ : Surroundings).filePairs ref 0 pairs) w)
              ((⟨invoke, n⟩ : Surroundings).merge ref (other :: rest) keywords w) := by
            rw [← heq invoke]
            exact decides_bind_left _ _ w
          have hgather : Composite True Confined fun invoke =>
              (⟨invoke, n⟩ : Surroundings).gather other := composite_gather n _
          rcases hsteps.bind_cases hgather.script.routine with
            hitems | ⟨pairs, w₁, hitems, hpairs⟩
          · exact Or.inl ⟨hitems, (decides_bind_left _ _ w).trans hdecides⟩
          · exact Or.inr ⟨pairs, w₁, hitems, hpairs, (decides_bind_right hitems).trans hdecides⟩
      · exact absurd hkeywords Makes.not_own

end

/-- The dict that a call merges into. -/
def Value.mergeTarget : Value → Exec Nat
  | .builtin .dict => do
    match ← Op.newDict {} with
    | .dict ref => return ref
    | _ => throw .crash
  | .method (.dict ref) (.dict .update) _ => return ref
  | _ => throw .crash

/-! ## Unpacking -/

namespace Act

variable {α β : Type} {f f' : Frame} {w w' : World}

/-- What is done in the machine comes first. -/
theorem run_exec_bind (x : Exec α) (k : α → Act β) (f : Frame) (w : World) :
    (liftM x >>= k : Act β).run f w = (x >>= fun a => (k a).run f) w := by
  cases hx : x w with
  | ok a w' =>
      rw [bind_of_ok hx]
      exact run_bind_of_ok (run_exec hx f)
  | error e w' =>
      rw [bind_of_error hx]
      exact bind_of_error (bind_of_error hx)

/-- What is popped was on top. -/
theorem run_pop_eq_ok {v : Value} (h : pop.run f w = .ok (v, f') w') :
    f.stack.head? = some v ∧ f'.stack = f.stack.tail ∧ w' = w := by
  obtain ⟨code, locals, stack⟩ := f
  cases stack with
  | nil => cases h
  | cons v' rest =>
      cases h
      exact ⟨rfl, rfl, rfl⟩

/-- A mapping of keyword arguments is on top, if the flag says that there is one. -/
theorem run_popMapping_eq_ok {flags : Nat} {mapping? : Option Nat}
    (h : (popMapping flags).run f w = .ok (mapping?, f') w') :
    f'.stack = (if Opcode.callsWithKeywords flags then f.stack.tail else f.stack) ∧ w' = w := by
  unfold popMapping at h
  split at h
  · next hflags =>
    obtain ⟨v, f₁, w₁, hpop, hrest⟩ := run_bind_eq_ok h
    obtain ⟨-, hstack, rfl⟩ := run_pop_eq_ok hpop
    rw [if_pos hflags]
    split at hrest
    · cases hrest
      exact ⟨hstack, rfl⟩
    · cases hrest
  · next hflags =>
    cases h
    exact ⟨(if_neg hflags).symm, rfl⟩

end Act

/-- The value that an instruction unpacks. -/
def Frame.unpacked? (f : Frame) (i : Instruction) : Option Value :=
  match i.op with
  | .unpackSequence => f.stack.head?
  | .callFunctionEx => (if Opcode.callsWithKeywords i.arg then f.stack.tail else f.stack).head?
  | _ => none

/-- Only an instruction that unpacks has something to unpack. -/
theorem Frame.unpacks_of_unpacked {f : Frame} {i : Instruction} {v : Value}
    (h : f.unpacked? i = some v) : i.op.unpacks := by
  unfold Frame.unpacked? at h
  split at h
  · next hop => exact Or.inl hop
  · next hop => exact Or.inr hop
  · cases h

section

variable {n : Nat} {f : Frame} {i : Instruction} {invoke : Invoke} {w : World}
  {q : Request}

/-- From some point on, an instruction goes through the items of a value, with an error in place of
failures, and the rest of it lets failures be. -/
def Gathers (n : Nat) (x : Invoke → Exec (Flow × Frame)) (w₀ : World)
    (v : Value) (w : World) : Prop :=
  ∃ (e₀ : Failure) (k : List Value → Invoke → Exec (Flow × Frame)),
    e₀.Fresh ∧ (∀ vs, Composite False Confined (k vs)) ∧
    ∀ invoke, x invoke w₀ =
      (Exec.orError ((⟨invoke, n⟩ : Surroundings).gather v) e₀ >>= fun vs =>
        k vs invoke) w

/-- A call that is made is made while gathering, or it is made later, and then what it ends with is
passed on. -/
theorem Gathers.cases {x : Invoke → Exec (Flow × Frame)} {w₀ : World} {v : Value}
    (hx : Gathers n x w₀ v w) (h : Makes x invoke w₀ q) :
    Makes (fun invoke => (⟨invoke, n⟩ : Surroundings).gather v) invoke w q ∨
      ∀ C, Ends C (invoke.result q) → Ends C (x invoke w₀) := by
  obtain ⟨e₀, k, he, hk, heq⟩ := hx
  have hsteps : Makes (fun invoke =>
      Exec.orError ((⟨invoke, n⟩ : Surroundings).gather v) e₀ >>= fun vs => k vs invoke)
      invoke w q := fun e he => (heq _).symm.trans (h e he)
  refine (hsteps.gather_cases he).imp id ?_
  rintro ⟨vs, w₁, hitems, hrest⟩ C hq
  rw [heq invoke]
  exact (hrest.ends (hk vs) False.elim hq).same
    (decides_bind_right (k := fun vs => k vs invoke) (tryCatch_of_ok hitems))

/-- A call that gathering makes is made by the whole. -/
theorem Gathers.makes {x : Invoke → Exec (Flow × Frame)} {w₀ : World} {v : Value}
    (hx : Gathers n x w₀ v w)
    (h : Makes (fun invoke => (⟨invoke, n⟩ : Surroundings).gather v) invoke w q) :
    Makes x invoke w₀ q := by
  obtain ⟨e₀, k, -, -, heq⟩ := hx
  intro e he
  have hgather : Exec.orError ((⟨invoke.breakAt q e, n⟩ : Surroundings).gather v) e₀ w =
      .error e q.world := by
    refine (tryCatch_of_error (h e he)).trans ?_
    rw [if_neg (by simp [he])]
    rfl
  rw [heq]
  exact bind_of_error hgather

/-- An error while gathering ends the whole with an error of its own, which has no trace yet. -/
theorem Gathers.ends {x : Invoke → Exec (Flow × Frame)} {w₀ : World} {v : Value}
    (hx : Gathers n x w₀ v w)
    (h : Makes (fun invoke => (⟨invoke, n⟩ : Surroundings).gather v) invoke w q)
    (hq : Ends (fun e _ => e.isError = true) (invoke.result q)) :
    Ends (fun e _ => e.Fresh) (x invoke w₀) := by
  obtain ⟨e₀, k, he, -, heq⟩ := hx
  rw [heq invoke]
  exact (h.ends_orError he hq).bind _

/-- An action that is confined makes no calls. -/
theorem routine_run {α : Type} {x : Act α} (hx : Act.Confined x) (f : Frame) :
    Routine (fun _ => False) fun _ => x.run f :=
  .own (hx f).local_sites

/-- Unpacking gathers the items, and any error in that is replaced. -/
theorem Frame.execute_unpackSequence (hop : i.op = .unpackSequence) (s : Surroundings) :
    Frame.execute s i = (do
      let v ← Act.pop
      let items ← (Exec.orError (s.gather v)
        (.raise .type s!"cannot unpack non-iterable {v.typeName} object") : Exec (List Value))
      Act.expectItems i.arg items
      Act.pushAll items.reverse
      return .next) := by
  unfold Frame.execute
  rw [hop]
  rfl

/-- Unpacking gathers what is on top of the stack. -/
theorem gathers_of_head (hop : i.op = .unpackSequence) {v : Value}
    (hv : f.stack.head? = some v) (w : World) :
    Gathers n (fun invoke => (Frame.execute ⟨invoke, n⟩ i).run f) w v w := by
  obtain ⟨code, locals, stack⟩ := f
  simp only [Frame.execute_unpackSequence hop]
  cases stack with
  | nil => cases hv
  | cons v' rest =>
      cases hv
      have hpop : Act.pop.run ⟨code, locals, v :: rest⟩ w =
          .ok (v, ⟨code, locals, rest⟩) w := rfl
      -- once the items are there, unpacking calls nothing
      have hrest (vs : List Value) : Act.Confined (do
          Act.expectItems i.arg vs
          Act.pushAll vs.reverse
          return Flow.next : Act Flow) := by grind
      refine ⟨.raise .type s!"cannot unpack non-iterable {v.typeName} object", _,
        ⟨rfl, Failure.untraced_raise _ _⟩, fun vs => .own (hrest vs ⟨code, locals, rest⟩),
        fun invoke => ?_⟩
      exact (Act.run_bind_of_ok hpop).trans (Act.run_exec_bind _ _ _ w)

/-- All calls of an unpacking are made while it gathers. -/
theorem Makes.gathers_unpackSequence (hop : i.op = .unpackSequence)
    (h : Makes (fun invoke => (Frame.execute ⟨invoke, n⟩ i).run f) invoke w q) :
    ∃ v, f.unpacked? i = some v ∧
      Gathers n (fun invoke => (Frame.execute ⟨invoke, n⟩ i).run f) w v w := by
  have hunpacked : f.unpacked? i = f.stack.head? := by
    unfold Frame.unpacked?
    rw [hop]
  simp only [Frame.execute_unpackSequence hop] at h
  rcases h.bind_cases (routine_run Act.confined_pop f) with hpop | ⟨⟨v, f₁⟩, w₁, hpop, -⟩
  · exact absurd hpop Makes.not_own
  · obtain ⟨hhead, -, -⟩ := Act.run_pop_eq_ok hpop
    exact ⟨v, hunpacked.trans hhead, gathers_of_head hop hhead w⟩

/-- A call with packed arguments that makes a call has something to gather. -/
theorem Makes.gathers_callFunctionEx (hop : i.op = .callFunctionEx)
    (h : Makes (fun invoke => (Frame.execute ⟨invoke, n⟩ i).run f) invoke w q) :
    ∃ v, f.unpacked? i = some v ∧
      Gathers n (fun invoke => (Frame.execute ⟨invoke, n⟩ i).run f) w v w := by
  have hexecute (s : Surroundings) : Frame.execute s i = (do
      let mapping? ← Act.popMapping i.arg
      let v ← Act.pop
      let args ← (Exec.orError (s.gather v)
        (.raise .type s!"argument after * must be an iterable, not {v.typeName}") :
        Exec (List Value))
      let callee ← Act.pop
      Frame.result (← (s.callWith callee args mapping? : Exec Value))) := by
    unfold Frame.execute
    rw [hop]
    rfl
  have hunpacked : f.unpacked? i =
      (if Opcode.callsWithKeywords i.arg then f.stack.tail else f.stack).head? := by
    unfold Frame.unpacked?
    rw [hop]
  simp only [hexecute] at h ⊢
  rcases h.bind_cases (routine_run (Act.confined_popMapping i.arg) f) with
    hmapping | ⟨⟨mapping?, f₁⟩, w₁, hmapping, hrest⟩
  · exact absurd hmapping Makes.not_own
  · obtain ⟨hstack, rfl⟩ := Act.run_popMapping_eq_ok hmapping
    rcases hrest.bind_cases (routine_run Act.confined_pop f₁) with hpop | ⟨⟨v, f₂⟩, w₂, hpop, -⟩
    · exact absurd hpop Makes.not_own
    · obtain ⟨hhead, -, rfl⟩ := Act.run_pop_eq_ok hpop
      -- once the items are there, failures of the call come out as they are
      have hcall (vs : List Value) : Act.Composite False fun invoke => (do
          let callee ← Act.pop
          Frame.result (← ((⟨invoke, n⟩ : Surroundings).callWith callee vs mapping? :
            Exec Value)) : Act Flow) :=
        .bind (.own Act.confined_pop) fun callee =>
          .bind (.lift (Composite.callWith n callee vs mapping?)) fun v =>
            .own (Act.confined_result v)
      refine ⟨v, ?_, .raise .type s!"argument after * must be an iterable, not {v.typeName}", _,
        ⟨rfl, Failure.untraced_raise _ _⟩, fun vs => hcall vs f₂, fun invoke => ?_⟩
      · rw [hunpacked, ← hstack, hhead]
      · refine (Act.run_bind_of_ok hmapping).trans ((Act.run_bind_of_ok hpop).trans ?_)
        exact Act.run_exec_bind _ _ f₂ _

end

namespace Machine

variable {m : Machine} {fuel n : Nat} {w : World} {a b : Activation} {as : List Activation}
  {i : Instruction} {q q' : Request} {C : Failure → World → Prop}

/-- A frame makes a request while the instruction at hand goes through the value that it unpacks. -/
def Unpacks (m : Machine) (a : Activation) (i : Instruction) (q : Request) : Prop :=
  ∃ v w, a.config.frame.unpacked? i = some v ∧
    m.reportStep a.config.frame i (a.config.world.atSite (a.config.frame.siteOf i)) = .ok () w ∧
    Makes (fun invoke => (⟨invoke, a.fuel⟩ : Surroundings).gather v) (m.invoke a.fuel) w
      q

/-- Before an instruction is executed, its step is reported. -/
theorem gathers_turn {v : Value}
    (hreport : m.reportStep a.config.frame i (a.config.world.atSite (a.config.frame.siteOf i)) =
      .ok () w)
    (h : Gathers a.fuel (fun invoke =>
      (Frame.execute ⟨invoke, a.fuel⟩ i).run a.config.frame) w v w) :
    Gathers a.fuel
      (fun invoke => m.turn ⟨invoke, a.fuel⟩ a.config.frame i) a.config.world v w := by
  obtain ⟨e₀, k, he, hk, heq⟩ := h
  exact ⟨e₀, k, he, hk, fun invoke => (bind_of_ok hreport).trans (heq invoke)⟩

/-- An instruction that unpacks and makes a call has reported its step and gathers. -/
theorem gathers_of_makes (hop : i.op.unpacks)
    (h : Makes (fun invoke => m.turn ⟨invoke, a.fuel⟩ a.config.frame i)
      (m.invoke a.fuel) a.config.world q) :
    ∃ v w, a.config.frame.unpacked? i = some v ∧
      m.reportStep a.config.frame i (a.config.world.atSite (a.config.frame.siteOf i)) = .ok () w ∧
      Gathers a.fuel (fun invoke =>
        m.turn ⟨invoke, a.fuel⟩ a.config.frame i) a.config.world v w := by
  have hsteps : Makes (fun invoke =>
      m.reportStep a.config.frame i >>= fun _ =>
        (Frame.execute ⟨invoke, a.fuel⟩ i).run a.config.frame)
      (m.invoke a.fuel) (a.config.world.atSite (a.config.frame.siteOf i)) q := h
  -- reporting the step makes no calls
  rcases hsteps.bind_cases
      (.own (local_reportStep m a.config.frame i)) with hreport | ⟨_, w, hreport, hexecute⟩
  · exact absurd hreport Makes.not_own
  · obtain ⟨v, hv, hgathers⟩ : ∃ v, a.config.frame.unpacked? i = some v ∧
        Gathers a.fuel (fun invoke =>
          (Frame.execute ⟨invoke, a.fuel⟩ i).run a.config.frame) w v w :=
      hop.elim hexecute.gathers_unpackSequence hexecute.gathers_callFunctionEx
    exact ⟨v, w, hv, hreport, gathers_turn hreport hgathers⟩

/-- Apart from what comes out of the items, failures come out of an instruction as they are. -/
theorem ends_turn_of_not_unpacks
    (hmakes : Makes (fun invoke => m.turn ⟨invoke, a.fuel⟩ a.config.frame i)
      (m.invoke a.fuel) a.config.world q)
    (hno : ¬Unpacks m a i q) (hq : Ends C ((m.invoke a.fuel).result q)) :
    Ends C (m.turn (m.surroundings a.fuel) a.config.frame i a.config.world) := by
  by_cases hop : i.op.unpacks
  · obtain ⟨v, w, hv, hreport, hgathers⟩ := gathers_of_makes hop hmakes
    rcases hgathers.cases hmakes with hitems | hends
    · exact absurd ⟨v, w, hv, hreport, hitems⟩ hno
    · exact hends C hq
  · exact ends_turn hmakes (fun hunpacks => absurd hunpacks hop) hq

/-- What comes out of the items is replaced. -/
theorem ends_turn_of_unpacks
    (hmakes : Makes (fun invoke => m.turn ⟨invoke, a.fuel⟩ a.config.frame i)
      (m.invoke a.fuel) a.config.world q)
    (h : Unpacks m a i q) (hq : Ends (fun e _ => e.isError = true) ((m.invoke a.fuel).result q)) :
    Ends (fun e _ => e.Fresh)
      (m.turn (m.surroundings a.fuel) a.config.frame i a.config.world) := by
  obtain ⟨v, w, hv, hreport, hitems⟩ := h
  obtain ⟨v', w', hv', hreport', hgathers⟩ :=
    gathers_of_makes (Frame.unpacks_of_unpacked hv) hmakes
  cases hv.symm.trans hv'
  cases hreport.symm.trans hreport'
  exact hgathers.ends hitems hq

/-! ## Calls that merge -/

/-- A call that merges pairs makes a request while it goes through one of them. -/
def MergesPair (m : Machine) (n : Nat) (q q' : Request) : Prop :=
  ∃ ref w other rest pairs w', q.callee.mergeTarget q.world = .ok ref w ∧ q.args = other :: rest ∧
    (m.surroundings n).gather other w = .ok pairs w' ∧
    Makes (fun invoke => (⟨invoke, n⟩ : Surroundings).filePairs ref 0 pairs)
      (m.invoke n) w' q'

theorem checkArity_eq_ok {b : Builtin} {got : Nat} {w w' : World}
    (h : Exec.checkArity b got w = .ok () w') : w' = w := by
  have hcheck {c : Prop} [Decidable c] {message : String}
      (h : (if c then Exec.raise .arity message else pure () : Exec Unit) w = .ok () w') :
      w' = w := by
    split_ifs at h
    · cases h
    · cases h
      rfl
  unfold Exec.checkArity at h
  exact hcheck h

/-- Merging into a dict is a composite of calls. -/
theorem composite_merge (n ref : Nat) (args : List Value)
    (keywords : List Entry) : Composite True Confined fun invoke =>
      (⟨invoke, n⟩ : Surroundings).merge ref args keywords :=
  .merge (Composite.callback n) trivial n ref args keywords

/-- Before `dict` merges, it checks the number of its arguments and makes the dict. -/
theorem merge_of_makes_dict {args : List Value} {keywords : List Entry}
    (h : Makes (fun invoke => m.answer ⟨invoke, n⟩ (.builtin .dict) args keywords)
      (m.invoke n) w q') :
    ∃ ref w₁, (Value.builtin .dict).mergeTarget w = .ok ref w₁ ∧
      Makes (fun invoke => (⟨invoke, n⟩ : Surroundings).merge ref args keywords)
        (m.invoke n) w₁ q' ∧
      Decides ((m.surroundings n).merge ref args keywords w₁)
        ((m.invoke (n + 1)).result ⟨.builtin .dict, args, keywords, w⟩) := by
  -- the dict is made first
  let ref := w.store.dicts.size
  let w₁ : World := { w with store := { w.store with dicts := w.store.dicts.push {} } }
  have hall : Composite True Confined fun invoke =>
      Exec.callBuiltin (Surroundings.callback ⟨invoke, n⟩) n .dict args keywords :=
    .callBuiltin (Composite.callback n) n .dict (fun _ => trivial) args keywords
  rcases h.bind_cases hall.script.routine with hcall | ⟨_, _, _, hrest⟩
  · rcases hcall.bind_cases
        (.own (Exec.confined_checkArity _ _).local_sites) with harity | ⟨_, w₀, harity, hrun⟩
    · exact absurd harity Makes.not_own
    · obtain rfl := checkArity_eq_ok harity
      have hsteps : Makes (fun invoke =>
          (⟨invoke, n⟩ : Surroundings).merge ref args keywords >>= fun _ =>
            pure (Value.dict ref)) (m.invoke n) w₁ q' := hrun
      rcases hsteps.bind_cases
          (composite_merge n ref args keywords).script.routine with
        hmerge | ⟨_, _, _, hrest⟩
      · refine ⟨ref, w₁, rfl, hmerge, fun e w' hfails => ?_⟩
        have hmerged : ((m.surroundings n).merge ref args keywords >>= fun _ =>
            pure (Value.dict ref)) w₁ = .error e w' := bind_of_error hfails
        have hbuiltin : Exec.callBuiltin (m.surroundings n).callback n .dict args keywords w₀ =
            .error e w' := (bind_of_ok harity).trans hmerged
        exact bind_of_error hbuiltin
      · exact absurd hrest Makes.not_own
  · exact absurd hrest Makes.not_own

/-- Before `dict.update` merges, it checks the number of its arguments. -/
theorem merge_of_makes_update {ref id : Nat} {args : List Value} {keywords : List Entry}
    (h : Makes (fun invoke => m.answer ⟨invoke, n⟩
      (.method (.dict ref) (.dict .update) id) args keywords) (m.invoke n) w q') :
    Makes (fun invoke => (⟨invoke, n⟩ : Surroundings).merge ref args keywords)
        (m.invoke n) w q' ∧
      Decides ((m.surroundings n).merge ref args keywords w) ((m.invoke (n + 1)).result
        ⟨.method (.dict ref) (.dict .update) id, args, keywords, w⟩) := by
  have hall : Composite True Confined fun invoke =>
      Exec.callMethod (Surroundings.callback ⟨invoke, n⟩) n (.dict ref) (.dict .update)
        args keywords :=
    .callMethod (Composite.callback n) n _ _ (fun _ _ _ => trivial) args keywords
  rcases h.bind_cases hall.script.routine with hcall | ⟨_, _, _, hrest⟩
  · -- too many arguments are refused without a call
    by_cases hmany : 1 < args.length
    · simp only [Exec.callMethod_update, if_pos hmany] at hcall
      exact absurd hcall Makes.not_own
    · simp only [Exec.callMethod_update, if_neg hmany] at hcall
      have hsteps : Makes (fun invoke =>
          (⟨invoke, n⟩ : Surroundings).merge ref args keywords >>= fun _ =>
            pure Value.none) (m.invoke n) w q' := hcall
      rcases hsteps.bind_cases
          (composite_merge n ref args keywords).script.routine with
        hmerge | ⟨_, _, _, hrest⟩
      · refine ⟨hmerge, fun e w' hfails => ?_⟩
        have hmethod : Exec.callMethod (m.surroundings n).callback n (.dict ref) (.dict .update)
            args keywords w = .error e w' := by
          rw [Exec.callMethod_update, if_neg hmany]
          exact bind_of_error hfails
        exact bind_of_error hmethod
      · exact absurd hrest Makes.not_own
  · exact absurd hrest Makes.not_own

/-- Before it merges, a call checks its arguments and sees to it that there is a dict. -/
theorem merge_of_makes (hmerges : q.callee.merges = true)
    (h : Makes (fun invoke => m.answer ⟨invoke, n⟩ q.callee q.args q.keywords)
      (m.invoke n) q.world q') :
    ∃ ref w, q.callee.mergeTarget q.world = .ok ref w ∧
      Makes (fun invoke => (⟨invoke, n⟩ : Surroundings).merge ref q.args q.keywords)
        (m.invoke n) w q' ∧
      Decides ((m.surroundings n).merge ref q.args q.keywords w) ((m.invoke (n + 1)).result q) := by
  obtain ⟨callee, args, keywords, w⟩ := q
  dsimp only at hmerges h ⊢
  unfold Value.merges at hmerges
  split at hmerges
  · exact merge_of_makes_dict h
  · next ref id => exact ⟨ref, w, rfl, merge_of_makes_update h⟩
  · cases hmerges

/-- The host callables only do what programs can do, apart from the calls that they make, and they
let the failure of a value that they have called be. -/
def ForwardingHosts (m : Machine) : Prop :=
  ∀ name args keywords, Composite False Confined fun invoke => m.hosts name invoke args keywords

/-- Hosts that forward failures are scripted. -/
theorem ForwardingHosts.scripted (h : m.ForwardingHosts) : m.ScriptedHosts :=
  fun name args keywords => (h name args keywords).script

/-- Apart from what comes out of a pair, failures come out of what is called as they are. -/
theorem ends_answer_of_not_mergesPair (hhosts : m.ForwardingHosts)
    (hcallee : ∀ ref, q.callee ≠ .function ref)
    (hmakes : Makes (fun invoke => m.answer ⟨invoke, n⟩ q.callee q.args q.keywords)
      (m.invoke n) q.world q')
    (hno : ¬MergesPair m n q q') (hq : Ends C ((m.invoke n).result q')) :
    Ends C ((m.invoke (n + 1)).result q) := by
  -- only `dict` and `update` replace an error of the calls they make
  by_cases hmerges : q.callee.merges = true
  · obtain ⟨ref, w, htarget, hmerge, hdecides⟩ := merge_of_makes hmerges hmakes
    obtain ⟨other, rest, hargs, ⟨hitems, hfails⟩ | ⟨pairs, w', hitems, hpairs, -⟩⟩ :=
      hmerge.merge_cases
    · have hgather := hitems.ends (composite_gather n other) False.elim hq
      exact hgather.same (hfails.trans hdecides)
    · exact absurd ⟨ref, w, other, rest, pairs, w', htarget, hargs, hitems, hpairs⟩ hno
  · have hanswer := m.composite_answer n hcallee (fun hf => hmerges (by rw [hf]; rfl))
      (fun ref id hf => hmerges (by rw [hf]; rfl)) q.args q.keywords
      fun h _ => hhosts h.name q.args q.keywords
    exact hmakes.ends hanswer False.elim hq

/-- What has a dict to merge into merges. -/
theorem merges_of_mergeTarget {f : Value} {ref : Nat} {w w' : World}
    (h : f.mergeTarget w = .ok ref w') : f.merges = true := by
  unfold Value.mergeTarget at h
  split at h
  · rfl
  · rfl
  · cases h

/-- What comes out of a pair is replaced. -/
theorem ends_answer_of_mergesPair
    (hmakes : Makes (fun invoke => m.answer ⟨invoke, n⟩ q.callee q.args q.keywords)
      (m.invoke n) q.world q')
    (h : MergesPair m n q q') (hq : Ends (fun e _ => e.isError = true) ((m.invoke n).result q')) :
    Ends (fun e _ => e.Fresh) ((m.invoke (n + 1)).result q) := by
  obtain ⟨ref, w, other, rest, pairs, w', htarget, hargs, hitems, hpairs⟩ := h
  obtain ⟨ref', w₁, htarget', hmerge, hdecides⟩ :=
    merge_of_makes (merges_of_mergeTarget htarget) hmakes
  cases htarget.symm.trans htarget'
  obtain ⟨other', rest', hargs', hcases⟩ := hmerge.merge_cases
  cases hargs.symm.trans hargs'
  rcases hcases with ⟨hgather, -⟩ | ⟨pairs', w₂, hitems', -, hfails⟩
  · -- going through the argument has come to its end, although a request that it makes fails
    obtain ⟨e, w₃, hrun, -⟩ := hgather.ends (composite_gather n other) False.elim hq
    cases hitems.symm.trans hrun
  · cases hitems.symm.trans hitems'
    exact (hpairs.ends_filePairs hq).same (hfails.trans hdecides)

end Machine

end Wordcode
