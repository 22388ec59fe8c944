import Wordcode.Proofs.Events
import Wordcode.Proofs.Sessions
import Mathlib

namespace Wordcode

/-! # Sampling

An observer that samples is told about every so-many-th instruction of a run, counted through all
frames, and about all calls and returns. It does not matter which runs and calls have come before.

* `Event.sampled` are the events that are left of those that an observer of all instructions is
  told, and `Event.Samples` says in terms of the two lists which these are.
* `Machine.Samples` are two machines of which one samples what the other one tells in full.
* `Machine.samples_session` is the result.
-/

namespace Event

/-! ## Sampled events -/

/-- Every `n`-th instruction, and all other events, after a number of instructions. -/
def sampled (n : Nat) : Nat → List Event → List Event
  | _, [] => []
  | seen, event :: events =>
    if event.isStep then
      if (seen + 1) % n = 0 then event :: sampled n (seen + 1) events
      else sampled n (seen + 1) events
    else event :: sampled n seen events

/-- The instructions among some events. -/
def steps (events : List Event) : List Event := events.filter isStep

/-- Of two lists of events, the second one has every `n`-th instruction of the first one and all its
other events. -/
structure Samples (n : Nat) (all some : List Event) : Prop where
  /-- The instructions are the `n`-th one, the `2n`-th one and so on. -/
  steps_eq : ∀ k, (steps some)[k]? = (steps all)[(k + 1) * n - 1]?
  others_eq : (some.filter fun event => !event.isStep) = all.filter fun event => !event.isStep
  /-- They come in the same order. -/
  sublist : some.Sublist all

section

variable {n seen : Nat} {event : Event} {events : List Event}

theorem sampled_append_step (hstep : event.isStep = true) :
    sampled n seen (events ++ [event]) = sampled n seen events ++
      if (seen + (steps events).length + 1) % n = 0 then [event] else [] := by
  induction events generalizing seen with
  | nil => simp [sampled, steps, hstep]
  | cons first events ih =>
      -- the count goes up with each step, whatever else is in between
      cases hfirst : first.isStep with
      | true =>
          have hcount : seen + 1 + (steps events).length =
              seen + (steps (first :: events)).length := by
            simp [steps, hfirst]
            omega
          simp only [List.cons_append, sampled, hfirst, if_true, ih, hcount]
          split <;> rfl
      | false =>
          have hcount : (steps events).length = (steps (first :: events)).length := by
            simp [steps, hfirst]
          simp only [List.cons_append, sampled, hfirst, Bool.false_eq_true, if_false, ih, hcount]

theorem sampled_append_other (hother : event.isStep = false) :
    sampled n seen (events ++ [event]) = sampled n seen events ++ [event] := by
  induction events generalizing seen with
  | nil => simp [sampled, hother]
  | cons first events ih =>
      simp only [List.cons_append, sampled, ih]
      split
      · split <;> rfl
      · rfl

theorem steps_sampled : steps (sampled n seen events) = sampled n seen (steps events) := by
  induction events generalizing seen with
  | nil => rfl
  | cons event events ih =>
      cases hevent : event.isStep with
      | true =>
          have hsteps : steps (event :: events) = event :: steps events := by simp [steps, hevent]
          rw [hsteps]
          simp only [sampled, hevent, if_true, ← ih]
          split
          · simp [steps, hevent]
          · rfl
      | false =>
          have hsteps : steps (event :: events) = steps events := by simp [steps, hevent]
          rw [hsteps, ← ih]
          simp [sampled, steps, hevent]

/-- The next instruction that is told is as far away as the count still has to go. -/
theorem getElem?_sampled (hn : 0 < n) (hevents : ∀ event ∈ events, event.isStep = true) (k : Nat) :
    (sampled n seen events)[k]? = events[(k + 1) * n - 1 - seen % n]? := by
  induction events generalizing seen k with
  | nil => rfl
  | cons event events ih =>
      have hrest : ∀ event ∈ events, event.isStep = true :=
        fun event h => hevents event (List.mem_cons_of_mem _ h)
      have hbound : seen % n < n := Nat.mod_lt seen hn
      have hsplit : seen + 1 = n * (seen / n) + (seen % n + 1) := by
        have hparts := Nat.div_add_mod seen n
        omega
      simp only [sampled, hevents event List.mem_cons_self, if_true]
      -- the counter is at a multiple of `n` when a step is reported
      by_cases hdue : seen % n + 1 = n
      · have hmod : (seen + 1) % n = 0 := by
          rw [hsplit, hdue, Nat.mul_add_mod, Nat.mod_self]
        rw [if_pos hmod]
        cases k with
        | zero =>
            have hfirst : (0 + 1) * n - 1 - seen % n = 0 := by omega
            rw [hfirst]
            rfl
        | succ k =>
            have hskip : (k + 1 + 1) * n - 1 - seen % n = (k + 1) * n - 1 + 1 := by
              have hgrows : (k + 1 + 1) * n = k * n + n + n := by ring
              have hgrows' : (k + 1) * n = k * n + n := by ring
              omega
            rw [hskip, List.getElem?_cons_succ, List.getElem?_cons_succ, ih hrest, hmod,
              Nat.sub_zero]
      · have hmod : (seen + 1) % n = seen % n + 1 := by
          rw [hsplit, Nat.mul_add_mod, Nat.mod_eq_of_lt (by omega)]
        have hskip : (k + 1) * n - 1 - seen % n = (k + 1) * n - 1 - (seen % n + 1) + 1 := by
          have hgrows : (k + 1) * n = k * n + n := by ring
          omega
        rw [if_neg (by omega), ih hrest, hmod, hskip, List.getElem?_cons_succ]

theorem samples_sampled (hn : 0 < n) (events : List Event) :
    Samples n events (sampled n 0 events) := by
  constructor
  · intro k
    have hsteps : ∀ event ∈ steps events, event.isStep = true :=
      fun event h => (List.mem_filter.mp h).2
    rw [steps_sampled, getElem?_sampled hn hsteps, Nat.zero_mod, Nat.sub_zero]
  · -- the count does not matter for the other events, nor for the order
    generalize 0 = seen
    induction events generalizing seen with
    | nil => rfl
    | cons event events ih =>
        unfold sampled
        cases hevent : event.isStep with
        | true =>
            simp only [if_true]
            split <;> simp [hevent, ih]
        | false => simp [hevent, ih]
  · generalize 0 = seen
    induction events generalizing seen with
    | nil => exact .slnil
    | cons event events ih =>
        unfold sampled
        split
        · split
          · exact (ih _).cons_cons event
          · exact (ih _).cons event
        · exact (ih _).cons_cons event

end

end Event

/-! ## Machines that sample -/

/-- An observer that lets all instructions pass. What it does about calls and returns does not
depend on how many instructions it has been told about. -/
structure Observer.PassesSteps (o : Observer) : Prop where
  steps : ∀ event counts, event.isStep = true → o.accepts event counts = true
  others : ∀ event counts n, event.isStep = false →
    o.accepts event { counts with steps := n } = o.accepts event counts

/-- The observer, told about all instructions. -/
def Observer.watching (o : Observer) : Observer :=
  { o with config := { o.config with mode := .all } }

/-- The observer, told about every `n`-th instruction. -/
def Observer.sampling (o : Observer) (n : Nat) : Observer :=
  { o with config := { o.config with mode := .sampled, interval := n } }

/-- Two machines with the same observer, which wants all instructions of the first machine and every
`n`-th one of the second machine. -/
structure Machine.Samples (o : Observer) (n : Nat) (m m' : Machine) : Prop where
  main_eq : m'.main? = m.main?
  maxDepth_eq : m'.maxDepth = m.maxDepth
  verbosity_eq : m'.verbosity = m.verbosity
  all : m.observer? = some o.watching
  sampled : m'.observer? = some (o.sampling n)

/-- Two worlds that are the same but for the records of an observer, of which the second one is told
less about instructions. -/
structure World.AlikeButSteps (w w' : World) : Prop where
  alike : w.Alike w'
  calls_eq : w'.counts.calls = w.counts.calls
  leaves_eq : w'.counts.leaves = w.counts.leaves

/-- The worlds of two operations that are in progress: of all the events since they began with some
events already told, the second one has every `n`-th instruction. -/
structure World.Sampled (n : Nat) (before before' : List Event) (w w' : World) : Prop
    extends w.AlikeButSteps w' where
  running : w.running = true
  told : ∃ events, w.events.toList = before ++ events ∧
    w'.events.toList = before' ++ Event.sampled n 0 events ∧
    w'.stepCount = (Event.steps events).length

namespace World

variable {n : Nat} {before before' : List Event} {w w' : World}

theorem AlikeButSteps.refl (w : World) : w.AlikeButSteps w := ⟨rfl, rfl, rfl⟩

theorem coupling_sampled : Coupling (Sampled n before before') where
  alike h := h.alike
  running h := h.running
  marked {w w'} h u := by
    have hrunning : w.running = w'.running := h.alike.same fun _ => rfl
    have halike : (w.marked u).Alike (w'.marked u) := by
      unfold Alike unwatched marked
      rw [hrunning]
    exact ⟨⟨halike, h.calls_eq, h.leaves_eq⟩, h.running, h.told⟩

theorem sampled_started (h : w.AlikeButSteps w') :
    Sampled n w.events.toList w'.events.toList w.started w'.started where
  alike := h.alike.update (f := started) fun _ => rfl
  calls_eq := h.calls_eq
  leaves_eq := h.leaves_eq
  running := rfl
  told := ⟨[], (List.append_nil _).symm, (List.append_nil _).symm, rfl⟩

theorem Sampled.alike_stopped (h : Sampled n before before' w w') :
    w.stopped.AlikeButSteps w'.stopped where
  alike := h.alike.update (f := stopped) fun _ => rfl
  calls_eq := h.calls_eq
  leaves_eq := h.leaves_eq

end World

namespace Machine

variable {o : Observer} {n : Nat} {m m' : Machine} {fuel : Nat} {before before' : List Event}
  {programs : String → HostProgram}

/-- What is told about calls and returns is told to both. -/
theorem couples_report_other (ho : o.PassesSteps) {event : Event}
    (hother : event.isStep = false) :
    Couples (World.Sampled n before before') (report o.watching event)
      (report (o.sampling n) event) := by
  intro w w' h
  have hcounts : (w'.counts.add event).calls = (w.counts.add event).calls ∧
      (w'.counts.add event).leaves = (w.counts.add event).leaves := by
    cases event with
    | step => cases hother
    | call => exact ⟨congrArg (· + 1) h.calls_eq, h.leaves_eq⟩
    | leave => exact ⟨h.calls_eq, congrArg (· + 1) h.leaves_eq⟩
  -- the two counts differ in the number of steps, which does not matter to other events
  have hverdict : o.accepts event (w'.counts.add event) = o.accepts event (w.counts.add event) := by
    rw [← ho.others event (w.counts.add event) (w'.counts.add event).steps hother]
    congr 1
    cases hadded : w'.counts.add event
    simp_all
  obtain ⟨events, htold, htold', hcount⟩ := h.told
  have hnext : World.Sampled n before before'
      { w with counts := w.counts.add event, events := w.events.push event }
      { w' with counts := w'.counts.add event, events := w'.events.push event } := by
    refine ⟨⟨h.alike, hcounts.1, hcounts.2⟩, h.running, events ++ [event], ?_, ?_, ?_⟩
    · rw [Array.toList_push, htold, List.append_assoc]
    · rw [Array.toList_push, htold', List.append_assoc, Event.sampled_append_other hother]
    · rw [hcount]
      simp [Event.steps, hother]
  cases haccepts : o.watching.accepts event (w.counts.add event) with
  | true =>
      have haccepts' : (o.sampling n).accepts event (w'.counts.add event) = true :=
        hverdict.trans haccepts
      rw [report_of_accepts haccepts, report_of_accepts haccepts']
      exact .ok hnext
  | false =>
      have hrefuses' : (o.sampling n).accepts event (w'.counts.add event) = false :=
        hverdict.trans haccepts
      rw [report_of_refuses haccepts, report_of_refuses hrefuses']
      exact .error hnext

/-- A machine that samples counts the instruction, and tells it if a sample is due. -/
theorem reportStep_of_sampling (hn : 0 < n) (hm : m.observer? = some (o.sampling n))
    (f : Frame) (i : Instruction) (w : World) :
    m.reportStep f i w =
      if (w.stepCount + 1) % n = 0 then
        report (o.sampling n) (.step f.name i.offset i.op i.arg f.stack.length w.sites.length)
          { w with stepCount := w.stepCount + 1 }
      else .ok () { w with stepCount := w.stepCount + 1 } := by
  have hnormal : (o.sampling n).config.normalize = (o.sampling n).config := by
    have hpositive : ¬((n : Int) ≤ 0) := by omega
    unfold ObserverConfig.normalize
    rw [if_neg]
    simpa [Observer.sampling] using hn.ne'
  -- the program counts in integers, the rate being one
  have hdue : ((w.stepCount + 1 : Nat) : Int) % (n : Int) = 0 ↔ (w.stepCount + 1) % n = 0 := by
    norm_cast
  unfold reportStep
  rw [hm]
  dsimp only
  rw [hnormal]
  refine (bind_of_ok rfl).trans ((bind_of_ok rfl).trans ?_)
  by_cases h : (w.stepCount + 1) % n = 0
  · rw [if_pos (hdue.mpr h), if_pos h]
    rfl
  · rw [if_neg (mt hdue.mp h), if_neg h]
    rfl

/-- An instruction is told to the one that samples if it is the `n`-th one since the last sample. -/
theorem couples_reportStep (hn : 0 < n) (ho : o.PassesSteps) (hm : Samples o n m m') (f : Frame)
    (i : Instruction) :
    Couples (World.Sampled n before before') (m.reportStep f i) (m'.reportStep f i) := by
  intro w w' h
  have hsites : w.sites = w'.sites := h.alike.same fun _ => rfl
  rw [reportStep_of_all hm.all rfl, reportStep_of_sampling hn hm.sampled]
  generalize hevent : Event.step f.name i.offset i.op i.arg f.stack.length w.sites.length = event
  rw [show Event.step f.name i.offset i.op i.arg f.stack.length w'.sites.length = event by
    rw [← hevent, hsites]]
  have hstep : event.isStep = true := by
    rw [← hevent]
    rfl
  have hadded (counts : EventCounts) :
      counts.add event = { counts with steps := counts.steps + 1 } := by
    rw [← hevent]
    rfl
  obtain ⟨events, htold, htold', hcount⟩ := h.told
  have hlonger : (Event.steps (events ++ [event])).length = w'.stepCount + 1 := by
    rw [hcount]
    simp [Event.steps, hstep]
  have hsampled : Event.sampled n 0 (events ++ [event]) = Event.sampled n 0 events ++
      if (w'.stepCount + 1) % n = 0 then [event] else [] := by
    rw [Event.sampled_append_step hstep, Nat.zero_add, hcount]
  -- both accept every instruction, so they differ only in whether a sample is due
  rw [report_of_accepts (o := o.watching) (ho.steps event _ hstep)]
  split
  · next hdue =>
      rw [if_pos hdue] at hsampled
      rw [report_of_accepts (o := o.sampling n) (ho.steps event _ hstep)]
      refine .ok ⟨⟨h.alike, ?_, ?_⟩, h.running, events ++ [event], ?_, ?_, hlonger.symm⟩
      · simpa only [hadded] using h.calls_eq
      · simpa only [hadded] using h.leaves_eq
      · rw [Array.toList_push, htold, List.append_assoc]
      · rw [Array.toList_push, htold', hsampled, List.append_assoc]
  · next hdue =>
      rw [if_neg hdue, List.append_nil] at hsampled
      refine .ok ⟨⟨h.alike, ?_, ?_⟩, h.running, events ++ [event], ?_, ?_, hlonger.symm⟩
      · simpa only [hadded] using h.calls_eq
      · simpa only [hadded] using h.leaves_eq
      · rw [Array.toList_push, htold, List.append_assoc]
      · rw [htold', hsampled]

theorem Samples.coupled (hn : 0 < n) (ho : o.PassesSteps) (hm : Samples o n m m')
    (hhosts : m.HostedBy programs fuel) (hhosts' : m'.HostedBy programs fuel)
    (hscripts : HostScripts Confined programs) :
    Coupled (World.Sampled n before before') m m' where
  coupling := World.coupling_sampled
  main_eq := hm.main_eq
  maxDepth_eq := hm.maxDepth_eq
  verbosity_eq := hm.verbosity_eq
  observers := by
    rw [hm.all, hm.sampled]
    exact .some ⟨rfl, rfl, fun event => couples_report_other ho⟩
  step := couples_reportStep hn ho hm
  hosts name args keywords i j hij := by
    rw [hhosts name, hhosts' name]
    exact (hscripts name args keywords).couples (fun y hy => hy.couples World.coupling_sampled)
      (couples_perform World.coupling_sampled hm.main_eq fuel) hij

/-- Two episodes that end alike, one of which samples what the other one tells in full. -/
structure SampledEpisodes (n : Nat) (e e' : Episode) : Prop where
  outcome_eq : e'.outcome = e.outcome
  /-- All else that the operation has done is the same. -/
  alike : e.after.Alike e'.after
  samples : Event.Samples n e.events e'.events

/-- An operation leaves worlds from which the next one can be compared. -/
theorem Left.alikeButSteps {w w' u u' : World} (h : w.AlikeButSteps w')
    (hleft : Left (World.Sampled n w.events.toList w'.events.toList) w w' u u') :
    u.AlikeButSteps u' ∧ ∃ events, u.events.toList = w.events.toList ++ events ∧
      u'.events.toList = w'.events.toList ++ Event.sampled n 0 events := by
  cases hleft with
  | untouched => exact ⟨h, [], (List.append_nil _).symm, (List.append_nil _).symm⟩
  | stopped _ hlast =>
      obtain ⟨events, htold, htold', -⟩ := hlast.told
      exact ⟨hlast.alike_stopped, events, htold, htold'⟩

theorem sampled_episode (hn : 0 < n) (ho : o.PassesSteps) (hm : Samples o n m m')
    (hhosts : m.HostedBy programs fuel) (hhosts' : m'.HostedBy programs fuel)
    (hscripts : HostScripts Confined programs) {w w' : World} (h : w.AlikeButSteps w')
    (op : Operation) :
    SampledEpisodes n (m.episode fuel w op) (m'.episode fuel w' op) ∧
      (m.episode fuel w op).after.AlikeButSteps (m'.episode fuel w' op).after := by
  have hcoupled : Coupled (World.Sampled n w.events.toList w'.events.toList) m m' :=
    hm.coupled hn ho hhosts hhosts' hscripts
  have hrunning : w'.running = w.running := (h.alike.same fun _ => rfl).symm
  have hends := hcoupled.perform hrunning (fun _ => World.sampled_started h) fuel op
  obtain ⟨houtcome, hleft⟩ := episode_of_endsAlike hends
  obtain ⟨hafter, events, htold, htold'⟩ := hleft.alikeButSteps h
  refine ⟨⟨houtcome, hafter.alike, ?_⟩, hafter⟩
  rw [events_episode htold, events_episode htold']
  exact Event.samples_sampled hn events

/-- Sampling reports exactly every `n`-th instruction. Two machines run the same code for an
observer that lets all instructions pass. The first one tells all instructions, the second one
samples them. Then, in every session, each operation of the second machine ends as that of the first
one, with the same effects, and it tells the `n`-th, the `2n`-th and so on of the instructions that
the other one tells, counted from its own beginning and through all frames. Calls and returns are
the same. -/
theorem samples_session (hn : 0 < n) (ho : o.PassesSteps) (hm : Samples o n m m')
    (hhosts : m.HostedBy programs fuel) (hhosts' : m'.HostedBy programs fuel)
    (hscripts : HostScripts Confined programs) (w : World) (ops : List Operation) :
    List.Forall₂ (SampledEpisodes n) (m.session fuel w ops) (m'.session fuel w ops) :=
  forall₂_session (fun _ _ op h => sampled_episode hn ho hm hhosts hhosts' hscripts h op) (.refl w)
    ops

theorem steps_session_sampledCallback :
    ((sampledCallback.session 12 callbackWorld [.run, .run]).map fun e => Event.steps e.events) =
      List.replicate 2 [.step "main" 4 .loadName 2 2 1, .step "main" 10 .buildTuple 1 4 1,
        .step "f" 0 .popTop 0 0 2] := by
  cbv

/-- Two runs of nine instructions, of which the last one is executed by the function called back. -/
theorem samples_session_callback :
    ∃ programs : String → HostProgram, 0 < 3 ∧ Observer.PassesSteps {} ∧
      Samples {} 3 observedCallback sampledCallback ∧ observedCallback.HostedBy programs 12 ∧
      sampledCallback.HostedBy programs 12 ∧ HostScripts Confined programs ∧
      List.Forall₂ (SampledEpisodes 3) (observedCallback.session 12 callbackWorld [.run, .run])
        (sampledCallback.session 12 callbackWorld [.run, .run]) ∧
      ((sampledCallback.session 12 callbackWorld [.run, .run]).map fun e => Event.steps e.events) =
        List.replicate 2 [.step "main" 4 .loadName 2 2 1, .step "main" 10 .buildTuple 1 4 1,
          .step "f" 0 .popTop 0 0 2] := by
  have hpasses : Observer.PassesSteps {} := ⟨fun _ _ _ => rfl, fun _ _ _ _ => rfl⟩
  have hsamples : Samples {} 3 observedCallback sampledCallback := ⟨rfl, rfl, rfl, rfl, rfl⟩
  have hscripts : HostScripts Confined fun name _ => observedCallback.hosts name :=
    fun _ args _ => .call (args.headD .none) [] []
  refine ⟨fun name _ => observedCallback.hosts name, by decide, hpasses, hsamples, fun _ => rfl,
    fun _ => rfl, hscripts, ?_, steps_session_sampledCallback⟩
  exact samples_session (by decide) hpasses hsamples (fun _ => rfl) (fun _ => rfl) hscripts
    callbackWorld [.run, .run]

end Machine

end Wordcode
