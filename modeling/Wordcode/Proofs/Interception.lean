import Wordcode.Proofs.Forwarding
import Mathlib

namespace Wordcode

/-! # Interception

A fault that a frame has recorded goes from frame to frame until the driver gets it. It is the same
all the way, unless a call in progress has been made while something is gone through whose failures
are answered with another error.

* `Machine.Intercepted` finds such a call on the way from a frame to the driver.
* `Machine.Stacked.ends_or_intercepted` brings a fault to the driver otherwise.
* `Machine.Intercepted.ends` says that something shallower gets there.
* `Machine.fault_reaches_driver_iff` puts these together, and `Machine.fault_replaced` is about a
  program that unpacks an iterator.
-/

namespace Machine

variable {m : Machine} {fuel n k : Nat} {w : World} {a b : Activation} {as : List Activation}
  {q : Request} {f : Fault} {C : Failure → World → Prop}

/-! ## The way to the driver -/

/-- The call by which one frame has opened another one has been made while the instruction at hand
goes through what it unpacks, or while a call on the way goes through a pair that it merges. -/
inductive Intercepts (m : Machine) (a b : Activation) : Prop
  | unpacking {i : Instruction} {q : Request} :
    a.config.instruction? = some i →
    Makes (fun invoke => m.turn ⟨invoke, a.fuel⟩ a.config.frame i)
      (m.invoke a.fuel) a.config.world q →
    Unpacks m a i q → Enters m a.fuel q b → Intercepts m a b
  | merging {n : Nat} {q q' : Request} :
    Asks m a (n + 1) q →
    Makes (fun invoke => m.answer ⟨invoke, n⟩ q.callee q.args q.keywords)
      (m.invoke n) q.world q' →
    MergesPair m n q q' → Enters m n q' b → Intercepts m a b

/-- On the way from an active frame to the driver, there is a call that intercepts faults. -/
inductive Intercepted (m : Machine) (fuel : Nat) (w : World) : Activation → List Activation → Prop
  | call {a b : Activation} {as : List Activation} :
    Stacked m fuel w a as → Intercepts m a b → Intercepted m fuel w b (a.fetch :: as)
  | step {a : Activation} {as : List Activation} {c : Config} :
    Intercepted m fuel w a as → 0 < a.steps → Steps m (m.surroundings a.fuel) a.config c →
    Intercepted m fuel w (a.advance c) as
  | inner {a b : Activation} {as : List Activation} {i : Instruction} {q : Request} :
    Intercepted m fuel w a as → a.config.instruction? = some i →
    Makes (fun invoke => m.turn ⟨invoke, a.fuel⟩ a.config.frame i)
      (m.invoke a.fuel) a.config.world q →
    Enters m a.fuel q b → Intercepted m fuel w b (a.fetch :: as)

/-! ## Faults that get to the driver -/

/-- A call passes the fault of the frame that it opens, unless it is intercepted. -/
theorem Enters.ends_or_intercepts (hhosts : m.ForwardingHosts) (h : Enters m n q b)
    (hq : Asks m a n q)
    (hb : Bound m b fun e w' => (e.record b.depth w'.sites).fault? = some f) :
    Ends (fun e _ => e.fault? = some f) ((m.invoke n).result q) ∨ Intercepts m a b := by
  induction h with
  | @function n ref args keywords w₀ w₁ f₀ hn hopen =>
      have hcall : Ends (fun e _ => e.fault? = some f)
          (m.callFunction (m.surroundings n) ⟨w₀.store.closure ref, args, keywords⟩ w₀) :=
        ends_callFunction hopen (hb.runFrame hn fun e w' hf => hf)
      unfold Invoke.result
      rw [m.invoke_function]
      exact Or.inl (hcall.bind fun v => pure (some v))
  | @through n q q' b hcallee hmakes henters ih =>
      -- what is called without a frame of its own may be merging pairs while it makes the call
      rcases ih (hq.through hcallee hmakes) hb with hends | hintercepts
      · by_cases hpair : MergesPair m n q q'
        · exact Or.inr (.merging hq hmakes hpair henters)
        · exact Or.inl (ends_answer_of_not_mergesPair hhosts hcallee hmakes hpair hends)
      · exact Or.inr hintercepts

/-- A fault with a trace that a frame is bound to record or to pass gets to the driver, unless it is
intercepted. -/
theorem Stacked.ends_or_intercepted (hhosts : m.ForwardingHosts) (hidle : w.Idle)
    (htrace : f.trace ≠ []) (h : Stacked m fuel w a as)
    (ha : Bound m a fun e w' => (e.record (as.length + 1 : Nat) w'.sites).fault? = some f) :
    Ends (fun e _ => e.fault? = some f) (m.run fuel w) ∨ Intercepted m fuel w a as := by
  have hfaithful := hhosts.scripted.faithful
  -- the fault goes from the frame to the call that has opened it, and from there to the caller
  induction h with
  | @main code w₁ w₂ hfuel hloads hlog =>
      have hdepth := (Stacked.main hfuel hloads hlog : Stacked m fuel w _ []).depth_eq hfaithful
        hidle
      refine Or.inl (ends_run hloads hlog (ha.runFrame hfuel fun e w' hf => ?_)
        fun e w' l hf => hf)
      have hsame : w₂.sites.length + 1 = 0 + 1 := hdepth
      rw [hsame]
      exact hf
  | step _ hsteps hstep ih =>
      exact (ih (hstep.bound hsteps ha)).imp id fun hin => hin.step hsteps hstep
  | @call a b as i q hstacked hi hmakes henters ih =>
      have hdepth := (hstacked.call hi hmakes henters).depth_eq hfaithful hidle
      rw [List.length_cons] at ha hdepth
      rw [← hdepth] at ha
      rcases henters.ends_or_intercepts hhosts (.instruction hi hmakes) ha with hends | hin
      · by_cases hunpacks : Unpacks m a i q
        · exact Or.inr (.call hstacked (.unpacking hi hmakes hunpacks henters))
        · have hturn := ends_turn_of_not_unpacks hmakes hunpacks hends
          have hkept (e : Failure) (w' : World) (he : e.fault? = some f) :=
            Failure.fault?_record_of_traced he htrace (as.length + 1 : Nat) w'.sites
          refine (ih ((Bound.of_turn hi hturn).mono hkept)).imp id fun hin => ?_
          exact hin.inner hi hmakes henters
      · exact Or.inr (.call hstacked hin)

/-! ## Faults that do not -/

/-- A failure that has not been recorded more than so many frames deep. -/
def Shallow (k : Nat) (e : Failure) (_ : World) : Prop :=
  ∀ g, e.fault? = some g → g.trace.length ≤ k

theorem relayed_shallow (k : Nat) : Relayed (Shallow k) := by
  intro r hr e w he g hg
  rcases hr.fault e g hg with hnone | hsame
  · simp [hnone]
  · exact he g hsame

/-- Recording a failure gives it the trace if it has none. -/
theorem shallow_record {e : Failure} {sites : List Fault.Site} {w' : World}
    (he : Shallow k e w) (hsites : e.isError = true → sites.length ≤ k) (depth : Int) :
    Shallow k (e.record depth sites) w' := by
  intro g hg
  -- recording gives a trace to an untraced fault and leaves one that has it
  by_cases huntraced : e.Untraced
  · have herror : e.isError = true := by
      cases e with
      | crash | exhausted => cases hg
      | fault | plain | within => rfl
    obtain ⟨g', hg', -, htrace⟩ :=
      Failure.fault?_record_of_untraced huntraced herror depth sites
    cases hg.symm.trans hg'
    rw [htrace]
    exact hsites herror
  · obtain ⟨g', hg', htrace⟩ : ∃ g', e.fault? = some g' ∧ g'.trace ≠ [] := by
      simpa [Failure.Untraced] using huntraced
    cases hg.symm.trans (Failure.fault?_record_of_traced hg' htrace depth sites)
    exact he g hg'

theorem shallow_of_fresh {e : Failure} (h : e.Fresh) (k : Nat) (w : World) : Shallow k e w := by
  intro g hg
  simp [h.2 g hg]

section

variable (hhosts : m.ScriptedHosts) (hidle : w.Idle)
include hhosts hidle

/-- When a frame fails with an error, there are as many sites as frames. -/
theorem Stacked.bound_sites (h : Stacked m fuel w a as) (ha : Bound m a C) :
    Bound m a fun e w' => C e w' ∧ (e.isError = true → w'.sites.length = as.length + 1) := by
  obtain ⟨e, w', hrun, hC⟩ := ha
  refine ⟨e, w', hrun, hC, fun herror => ?_⟩
  -- a frame that fails does so at some point that it reaches, where it is still on the stack
  rcases h.exists_fails hrun with rfl | ⟨n, c, last, hstacked, hfails⟩
  · cases herror
  · have hsites := hstacked.sites_of_fails hhosts.faithful hidle hfails
    rw [hsites, List.length_map, List.length_cons]

/-- Something shallow that comes out of a frame gets to the driver as something shallow. -/
theorem Stacked.ends_shallow (h : Stacked m fuel w a as) (hk : as.length + 1 ≤ k)
    (ha : Bound m a (Shallow k)) :
    Ends (Shallow k) (m.run fuel w) := by
  -- on the frames below, each of which passes the fault on
  induction h with
  | main hfuel hloads hlog =>
      have hbound := (Stacked.main hfuel hloads hlog).bound_sites hhosts hidle ha
      refine ends_run hloads hlog (hbound.runFrame (D := Shallow k) hfuel fun e w' he => ?_)
        fun e w' l he => he
      exact shallow_record he.1 (fun herror => (he.2 herror).trans_le hk) _
  | step _ hsteps hstep ih => exact ih hk (hstep.bound hsteps ha)
  | @call a b as i q hstacked hi hmakes henters ih =>
      have hbound := (hstacked.call hi hmakes henters).bound_sites hhosts hidle ha
      have hq := henters.ends hhosts (relayed_shallow k) hbound fun e w' he =>
        shallow_record he.1 (fun herror => (he.2 herror).trans_le hk) _
      have hturn := ends_turn hmakes (fun _ => relayed_shallow k) hq
      rw [List.length_cons] at hk
      exact ih (by omega) (.of_turn hi hturn)

omit hidle in
/-- A call fails if the frame that it opens is bound to, and it does so with an error if the frame
does. -/
theorem Enters.ends_isError (h : Enters m n q b)
    (hb : Bound m b fun e _ => e.isError = true) :
    Ends (fun e _ => e.isError = true) ((m.invoke n).result q) :=
  h.ends hhosts relayed_isError hb fun e _ he => (e.isError_record _ _).trans he

/-- An error that is intercepted is replaced by one that is recorded further out. -/
theorem Intercepts.ends (hstacked : Stacked m fuel w a as) (h : Intercepts m a b)
    (hb : Bound m b fun e _ => e.isError = true) :
    Ends (Shallow (as.length + 1)) (m.run fuel w) := by
  have hfresh : Bound m a fun e _ => e.Fresh := by
    cases h with
    | unpacking hi hmakes hunpacks henters =>
        exact .of_turn hi (ends_turn_of_unpacks hmakes hunpacks (henters.ends_isError hhosts hb))
    | merging hasks hmakes hpair henters =>
        have hq := ends_answer_of_mergesPair hmakes hpair (henters.ends_isError hhosts hb)
        exact hasks.bound hhosts relayed_fresh hq
  exact hstacked.ends_shallow hhosts hidle le_rfl
    (hfresh.mono fun e w' he => shallow_of_fresh he _ w')

theorem Intercepted.ends (h : Intercepted m fuel w a as)
    (ha : Bound m a fun e _ => e.isError = true) :
    Ends (Shallow as.length) (m.run fuel w) := by
  induction h with
  | call hstacked hintercepts => exact hintercepts.ends hhosts hidle hstacked ha
  | step _ hsteps hstep ih => exact ih (hstep.bound hsteps ha)
  | @inner a b as i q _ hi hmakes henters ih =>
      have hq := henters.ends_isError hhosts ha
      have hends := ih (.of_turn hi (ends_turn hmakes (fun _ => relayed_isError) hq))
      refine hends.pass fun e w' hrun he => ⟨e, w', hrun, fun g hg => ?_⟩
      exact (he g hg).trans (Nat.le_succ _)

end

/-! ## All faults -/

/-- A fault that a frame has recorded gets to the driver with its kind, its message, its depth and
its trace exactly if no call on the way has been made while something was unpacked or a pair was
merged. -/
theorem fault_reaches_driver_iff (hhosts : m.ForwardingHosts) (hidle : w.Idle)
    (h : Stacked m fuel w a as) (hf : Locates m f a as) :
    (∃ e w', m.run fuel w = .error e w' ∧ e.fault? = some f) ↔ ¬Intercepted m fuel w a as := by
  have hfaithful := hhosts.scripted.faithful
  obtain ⟨e, w₁, hfails, huntraced, htrace, hdepth, hrecord⟩ := hf
  constructor
  · rintro ⟨e', w', hrun, hf'⟩ hin
    have herror : e.isError = true := by
      cases e with
      | crash | exhausted => cases hrecord
      | fault | plain | within => rfl
    obtain ⟨e₂, w₂, hrun₂, hends⟩ := hin.ends hhosts.scripted hidle (hfails.bound herror)
    cases hrun.symm.trans hrun₂
    -- the trace has a site for each active frame
    have hlength := hends f hf'
    rw [htrace, List.length_map, List.length_cons] at hlength
    omega
  · intro hno
    have hsites := h.sites_of_fails hfaithful hidle hfails
    have hrecorded : (e.record (as.length + 1 : Nat) w₁.sites).fault? = some f := by
      rw [hsites, ← htrace, ← h.depth_eq hfaithful hidle, ← hdepth]
      exact hrecord
    have hne : f.trace ≠ [] := by
      rw [htrace]
      exact List.cons_ne_nil _ _
    exact (h.ends_or_intercepted hhosts hidle hne (hfails.bound hrecorded)).resolve_right hno

/-- The fault of the function called back gets to the driver: nothing is unpacked, and no pair is
merged. -/
theorem fault_reaches_driver_iff_callback :
    failingCallback.ForwardingHosts ∧ callbackWorld.Idle ∧
      ∃ f a as, Stacked failingCallback 12 callbackWorld a as ∧ Locates failingCallback f a as ∧
        f.trace = [⟨"f", "", 0, "POP_TOP"⟩, ⟨"main", "", 14, "CALL_FUNCTION"⟩] ∧
        (∃ e w', failingCallback.run 12 callbackWorld = .error e w' ∧ e.fault? = some f) ∧
        ¬Intercepted failingCallback 12 callbackWorld a as := by
  have hhosts : failingCallback.ForwardingHosts := fun _ args _ => .call (args.headD .none) [] []
  have hfaithful := hhosts.scripted.faithful
  have hidle : callbackWorld.Idle := ⟨rfl, rfl⟩
  obtain ⟨code, w, hloads⟩ := loads_failingCallback
  obtain ⟨f, w', hrun, htrace⟩ := run_failingCallback
  obtain ⟨w₂, w₃, hlog, hframe⟩ := run_error_cases hloads hrun
  obtain ⟨a, as, hstacked, hlocates⟩ := located_of_runFrame hfaithful hidle
    (Stacked.main · hloads hlog) (callsLocate hfaithful hidle 12) hframe rfl
  have hreaches : ∃ e w', failingCallback.run 12 callbackWorld = .error e w' ∧ e.fault? = some f :=
    ⟨_, w', hrun, rfl⟩
  have hiff := fault_reaches_driver_iff hhosts hidle hstacked hlocates
  exact ⟨hhosts, hidle, f, a, as, hstacked, hlocates, htrace, hreaches, hiff.mp hreaches⟩

/-! ## A fault that is replaced -/

/-- A fault that comes out of an iterator which a frame unpacks has a place in the run. -/
theorem Stacked.located_of_next (hfaithful : m.FaithfulHosts) (hidle : w.Idle) {i : Instruction}
    {ref : Nat} {w₁ w₂ : World} {e : Failure} (h : Stacked m fuel w a as)
    (hfuel : a.fuel = n + 2) (hi : a.config.instruction? = some i) (hop : i.op = .unpackSequence)
    (hhead : a.config.frame.stack.head? = some (.iterator ref))
    (hreport : m.reportStep a.config.frame i (a.config.world.atSite (a.config.frame.siteOf i)) =
      .ok () w₁)
    (hnext : Exec.next (m.surroundings a.fuel).callback n ref w₁ = .error e w₂)
    (hf : e.fault? = some f) (htrace : f.trace ≠ []) :
    ∃ b bs, Stacked m fuel w b bs ∧ Locates m f b bs := by
  have hcomposite : Composite True Confined fun invoke =>
      Exec.next (Surroundings.callback ⟨invoke, a.fuel⟩) n ref :=
    .next (Composite.callback a.fuel) n ref
  have hroutine : Routine (fun _ => False) fun invoke =>
      Exec.next (Surroundings.callback ⟨invoke, a.fuel⟩) n ref :=
    hcomposite.script.routine
  have hrun : Exec.next (Surroundings.callback ⟨m.invoke a.fuel, a.fuel⟩) n ref w₁ =
      .error e w₂ := hnext
  -- the traced fault comes from a call that the iterator made, which the handler makes then
  rcases hroutine.traced_cases hrun hf htrace with hno | ⟨q, e₁, w₃, hmakes, hresult, hf₁⟩
  · exact hno.elim
  · have hgather : Makes (fun invoke =>
        (⟨invoke, a.fuel⟩ : Surroundings).gather (.iterator ref)) (m.invoke a.fuel) w₁
        q := by
      rw [hfuel] at hmakes ⊢
      exact hmakes.gather_of_next
    have hturn := (gathers_turn hreport (gathers_of_head hop hhead w₁)).makes hgather
    exact callsLocate hfaithful hidle a.fuel q (a.fetch :: as) e₁ w₃ f
      (fun b henters => h.call hi hturn henters) hresult hf₁ htrace

/-- A machine that runs `x, = map(f, (0,))`, where `f` divides 1 by its argument. -/
def unpackedMap : Machine where
  main? := some {
    name := "main"
    names := ["map"]
    constants := [
      .code {
        name := "f", serial := 1, variableNames := ["x"], positional := 1, constants := [.int 1]
        instructions := [100, 0, 124, 0, 170, 5, 83, 0] },
      .tuple [.int 0]]
    instructions := [101, 0, 100, 0, 132, 0, 100, 1, 131, 2, 92, 1, 83, 0] }

/-- The world in which it starts. -/
def unpackedWorld : World where
  builtins := [("map", .builtin .map)]

/-- The main code is about to unpack an iterator that fails to divide by zero. -/
theorem after_unpackedMap : ∃ code w w₁ c ref i f w₂,
    unpackedMap.Loads unpackedWorld code w ∧
      unpackedMap.log (.runStarted w.globals.length) w = .ok () w₁ ∧
      unpackedMap.after (unpackedMap.surroundings 20) 5
        (Activation.start 20 { code, locals := .globals } w₁).config = some c ∧
      c.instruction? = some i ∧ i.op = .unpackSequence ∧
      c.frame.stack.head? = some (.iterator ref) ∧
      Exec.next (unpackedMap.surroundings 20).callback 18 ref (c.world.atSite (c.frame.siteOf i)) =
        .error (.fault f none) w₂ ∧
      f.kind = .zeroDivision ∧
      f.trace = [⟨"f", "", 4, "BINARY_OP"⟩, ⟨"main", "", 10, "UNPACK_SEQUENCE"⟩] := by
  refine ⟨?_, ?_, ?_, ?_, ?_, ?_, ?_, ?_, ?_, ?_, ?_, ?_, ?_, ?_, ?_, ?_, ?_⟩
  -- the run up to the unpacking supplies all the witnesses
  rotate_left 8
  · unfold Loads
    cbv
    rfl
  · rfl
  · cbv
    rfl
  · cbv
    rfl
  · rfl
  · rfl
  · cbv
    rfl
  · rfl
  · rfl

theorem run_unpackedMap : ∃ f w', unpackedMap.run 20 unpackedWorld = .error (.fault f none) w' ∧
    f.kind = .type ∧ f.trace = [⟨"main", "", 10, "UNPACK_SEQUENCE"⟩] := by
  refine ⟨?_, ?_, ?_, ?_⟩
  rotate_left 2
  · cbv
    rfl
  · exact ⟨rfl, rfl⟩

/-- The driver gets a type error of the main code in place of the division by zero. -/
theorem fault_replaced :
    unpackedMap.ForwardingHosts ∧ unpackedWorld.Idle ∧
      ∃ f a as g w', Stacked unpackedMap 20 unpackedWorld a as ∧ Locates unpackedMap f a as ∧
        f.kind = .zeroDivision ∧
        f.trace = [⟨"f", "", 4, "BINARY_OP"⟩, ⟨"main", "", 10, "UNPACK_SEQUENCE"⟩] ∧
        unpackedMap.run 20 unpackedWorld = .error (.fault g none) w' ∧
        g.kind = .type ∧ g.trace = [⟨"main", "", 10, "UNPACK_SEQUENCE"⟩] := by
  have hhosts : unpackedMap.ForwardingHosts := fun _ _ _ => .pure none
  have hidle : unpackedWorld.Idle := ⟨rfl, rfl⟩
  obtain ⟨code, w, w₁, c, ref, i, f, w₂, hloads, hlog, hafter, hi, hop, hhead, hnext, hkind,
    htrace⟩ := after_unpackedMap
  have hmain : Stacked unpackedMap 20 unpackedWorld _ [] := .main (by decide) hloads hlog
  -- five steps lead to the unpacking, which then fails in `f`
  have hfew : 5 ≤ 20 - 1 := by decide
  obtain ⟨last, hstacked⟩ := hmain.after hfew hafter
  have hne : f.trace ≠ [] := by
    rw [htrace]
    exact List.cons_ne_nil _ _
  obtain ⟨a, as, hinner, hlocates⟩ := hstacked.located_of_next hhosts.scripted.faithful hidle rfl hi
    hop hhead rfl hnext rfl hne
  obtain ⟨g, w', hrun, hkind', htrace'⟩ := run_unpackedMap
  exact ⟨hhosts, hidle, f, a, as, g, w', hinner, hlocates, hkind, htrace, hrun, hkind', htrace'⟩

end Machine

end Wordcode
