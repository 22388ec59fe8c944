import Wordcode.Proofs.Activations
import Mathlib

namespace Wordcode

/-! # Events

The events of a run are bracketed: between a call and its return there are only events of the frame
that the call has opened and of calls that are made from it. A failure cuts them short.

* `Event.follow` says which events may come next while certain calls are open, `replay` goes through
  a sequence of events.
* `Told` is what a computation has told the observer, `Cut` the same for one that has failed. An
  event that the observer refuses is the last.
* `Reports` says of a computation which calls it finds open and which ones it leaves open. There is
  one rule for each way of putting computations together.
* `Machine.reports_invoke` is about calls, `Machine.told_run` about runs.
* `Machine.TellsAll` says that nothing is left out, `Machine.bracketed_events` is the result.
-/

/-! ## Bracketed events -/

/-- The calls that are open, innermost first, with the depths of their frames. -/
abbrev OpenCalls := List (String × Nat)

/-- The calls that are open after an event. An instruction belongs to the innermost frame, a call
opens one on top of it, and a return closes the call that was opened last. -/
def Event.follow (opened : OpenCalls) : Event → Option OpenCalls
  | .step _ _ _ _ _ depth => if depth = opened.length + 1 then some opened else none
  | .call name _ _ depth =>
    if depth = opened.length + 2 then some ((name, depth) :: opened) else none
  | .leave name _ depth =>
    match opened with
    | [] => none
    | last :: rest => if last = (name, depth) then some rest else none

/-- The calls that are open after a sequence of events. -/
def replay (opened : OpenCalls) (events : List Event) : Option OpenCalls :=
  events.foldlM Event.follow opened

/-- Events are replayed in two parts. -/
theorem replay_append (opened : OpenCalls) (es es' : List Event) :
    replay opened (es ++ es') = (replay opened es).bind fun opened' => replay opened' es' :=
  List.foldlM_append

/-- Two calls in turn, the second one of which makes another call. -/
example : replay []
    [.step "main" 0 .callFunction 0 1 1, .call "f" 0 0 2, .leave "f" "None" 2, .call "g" 0 0 2,
      .call "f" 0 0 3, .step "f" 0 .loadConst 0 0 3, .leave "f" "None" 3, .leave "g" "1" 2] =
      some [] := by decide

/-- An observer that has counted some events accepts further ones, one after another. -/
def Observer.AcceptsAll (o : Observer) : EventCounts → List Event → Prop
  | _, [] => True
  | counts, e :: es => o.accepts e (counts.add e) = true ∧ o.AcceptsAll (counts.add e) es

/-- All of two parts are accepted if the second one is with the counts after the first. -/
theorem Observer.acceptsAll_append {o : Observer} {counts : EventCounts} {es es' : List Event} :
    o.AcceptsAll counts (es ++ es') ↔
      o.AcceptsAll counts es ∧ o.AcceptsAll (es.foldl EventCounts.add counts) es' := by
  induction es generalizing counts with
  | nil => simp [AcceptsAll]
  | cons e es ih => simp [AcceptsAll, ih, and_assoc]

/-- If all events are accepted, all but the last are. -/
theorem Observer.AcceptsAll.dropLast {o : Observer} {counts : EventCounts} {es : List Event}
    (h : o.AcceptsAll counts es) : o.AcceptsAll counts es.dropLast := by
  induction es generalizing counts with
  | nil => exact trivial
  | cons e es ih =>
      cases es with
      | nil => exact trivial
      | cons e' es => exact ⟨h.1, ih h.2⟩

/-! ## What an observer is told -/

/-- Between two worlds the observer has been told some events, has accepted them and has counted
them. If it is told of calls and returns, the events go from the first open calls to the last. -/
structure Told (o : Observer) (opened opened' : OpenCalls) (w w' : World) (events : List Event) :
    Prop where
  events_eq : w'.events.toList = w.events.toList ++ events
  counts_eq : w'.counts = events.foldl EventCounts.add w.counts
  accepted : o.AcceptsAll w.counts events
  bracketed : o.config.calls = true → o.config.returns = true →
    replay opened events = some opened'

/-- What a computation that has failed has told the observer. If the observer has refused an event,
that is the last one. -/
inductive Cut (o : Observer) (opened : OpenCalls) (w w' : World) : Prop
  | told {opened' : OpenCalls} {events : List Event} : Told o opened opened' w w' events →
    Cut o opened w w'
  | refused {opened' next : OpenCalls} {events : List Event} {w₁ : World} {event : Event} :
    Told o opened opened' w w₁ events → w'.events = w₁.events.push event →
    w'.counts = w₁.counts.add event → o.accepts event w'.counts = false →
    (o.config.calls = true → o.config.returns = true → event.follow opened' = some next) →
    Cut o opened w w'

section

variable {o : Observer} {opened opened' opened'' : OpenCalls} {w w₁ w₂ w' : World}
  {es es' : List Event}

/-- Nothing is told when the records are the same. -/
theorem Told.nothing (hevents : w'.events = w.events) (hcounts : w'.counts = w.counts) :
    Told o opened opened w w' [] where
  events_eq := by rw [hevents, List.append_nil]
  counts_eq := hcounts
  accepted := trivial
  bracketed _ _ := rfl

/-- What is told first, and then what is told after it. -/
theorem Told.trans (h : Told o opened opened' w w₁ es) (h' : Told o opened' opened'' w₁ w₂ es') :
    Told o opened opened'' w w₂ (es ++ es') where
  events_eq := by rw [h'.events_eq, h.events_eq, List.append_assoc]
  counts_eq := by rw [h'.counts_eq, h.counts_eq, List.foldl_append]
  accepted := by
    refine Observer.acceptsAll_append.mpr ⟨h.accepted, ?_⟩
    rw [← h.counts_eq]
    exact h'.accepted
  bracketed hcalls hreturns := by
    rw [replay_append, h.bracketed hcalls hreturns]
    exact h'.bracketed hcalls hreturns

/-- Only the records count. -/
theorem Told.congr (h : Told o opened opened' w w' es) (hevents : w₁.events = w'.events)
    (hcounts : w₁.counts = w'.counts) : Told o opened opened' w w₁ es where
  events_eq := by rw [hevents, h.events_eq]
  counts_eq := by rw [hcounts, h.counts_eq]
  accepted := h.accepted
  bracketed := h.bracketed

/-- A refusal is the last thing that is told, whatever else changes. -/
theorem Cut.congr (h : Cut o opened w w') (hevents : w₁.events = w'.events)
    (hcounts : w₁.counts = w'.counts) : Cut o opened w w₁ := by
  cases h with
  | told h => exact .told (h.congr hevents hcounts)
  | refused h hlast hcount hrefused hnext =>
      exact .refused h (hevents.trans hlast) (hcounts.trans hcount) (hcounts ▸ hrefused) hnext

/-- Only the last event may have been refused. -/
theorem Cut.exists_accepted (h : Cut o opened w w') :
    ∃ events, w'.events.toList = w.events.toList ++ events ∧
      o.AcceptsAll w.counts events.dropLast := by
  cases h with
  | told h => exact ⟨_, h.events_eq, h.accepted.dropLast⟩
  | @refused _ _ events w₁ event h hlast _ _ _ =>
      refine ⟨events ++ [event], ?_, ?_⟩
      · rw [hlast, Array.toList_push, h.events_eq, List.append_assoc]
      · rw [List.dropLast_concat]
        exact h.accepted

/-- A refusal after some events that are accepted. -/
theorem Cut.after (h : Cut o opened' w₁ w') (h₁ : Told o opened opened' w w₁ es) :
    Cut o opened w w' := by
  cases h with
  | told h => exact .told (h₁.trans h)
  | refused h hlast hcount hrefused hnext =>
      exact .refused (h₁.trans h) hlast hcount hrefused hnext

end

/-! ## Computations that report -/

/-- A computation that is done while a number of frames are active finds certain calls open and
leaves certain calls open. If it fails, what it has told so far fits. -/
def Reports {α : Type} (o : Observer) (frames : Nat) (opened opened' : OpenCalls) (x : Exec α) :
    Prop :=
  ∀ w, w.sites.length = frames →
    (∀ a w', x w = .ok a w' → w'.sites.length = frames ∧ ∃ es, Told o opened opened' w w' es) ∧
      ∀ e w', x w = .error e w' → Cut o opened w w'

/-- What the machine keeps about active frames and about events. -/
def World.records (w : World) : List Fault.Site × Array Event × EventCounts :=
  (w.sites, w.events, w.counts)

namespace Reports

variable {α β : Type} {o : Observer} {frames : Nat} {opened opened' opened'' : OpenCalls}
  {x : Exec α}

/-- A computation that leaves the records alone. -/
theorem of_local (hx : Local World.records x) : Reports o frames opened opened x := by
  intro w hframes
  constructor
  · intro a w' hrun
    have hsame := (hx w).1 a w' hrun
    simp only [World.records, Prod.mk.injEq] at hsame
    obtain ⟨hsites, hevents, hcounts⟩ := hsame
    exact ⟨hsites ▸ hframes, [], .nothing hevents hcounts⟩
  · intro e w' hrun
    have hsame := ((hx w).2 e w' hrun).1
    simp only [World.records, Prod.mk.injEq] at hsame
    obtain ⟨-, hevents, hcounts⟩ := hsame
    exact .told (.nothing hevents hcounts)

/-- What is confined tells nothing. -/
theorem of_confined (hx : Confined x) : Reports o frames opened opened x :=
  of_local (hx.leaves fun _ _ => rfl)

theorem pure (a : α) : Reports o frames opened opened (pure a) := of_local (local_pure a)

/-- What comes second may rely on the first result. -/
theorem bind_result {k : α → Exec β} (hx : Reports o frames opened opened' x)
    (hk : ∀ w a w', w.sites.length = frames → x w = .ok a w' →
      Reports o frames opened' opened'' (k a)) :
    Reports o frames opened opened'' (x >>= k) := by
  intro w hframes
  cases hrun : x w with
  | error e w₁ =>
      rw [bind_of_error hrun]
      constructor
      · intro b w' h
        cases h
      · intro e' w' h
        cases h
        exact (hx w hframes).2 e w₁ hrun
  | ok a w₁ =>
      obtain ⟨hframes₁, es, htold⟩ := (hx w hframes).1 a w₁ hrun
      rw [bind_of_ok hrun]
      constructor
      · intro b w' h
        obtain ⟨hframes', es', htold'⟩ := (hk w a w₁ hframes hrun w₁ hframes₁).1 b w' h
        -- what the two have told is put together
        exact ⟨hframes', es ++ es', htold.trans htold'⟩
      · intro e w' h
        exact ((hk w a w₁ hframes hrun w₁ hframes₁).2 e w' h).after htold

/-- Reports in a row: what is told first is replayed first, and a refusal ends it. -/
theorem bind {k : α → Exec β} (hx : Reports o frames opened opened' x)
    (hk : ∀ a, Reports o frames opened' opened'' (k a)) :
    Reports o frames opened opened'' (x >>= k) :=
  hx.bind_result fun _ a _ _ _ => hk a

/-- Looking at the state shows how many frames are active. -/
theorem get_bind {k : World → Exec α}
    (hk : ∀ w, w.sites.length = frames → Reports o frames opened opened' (k w)) :
    Reports o frames opened opened' (get >>= k) := by
  refine (of_local local_get).bind_result fun w a w' hframes hget => ?_
  cases hget
  exact hk w hframes

/-- A handler that fails in turn and tells nothing cuts the events short all the same. -/
theorem handle {h : Failure → Exec α} (hx : Reports o frames opened opened' x)
    (hh : ∀ e w, ∃ e' w', h e w = .error e' w' ∧ w'.events = w.events ∧ w'.counts = w.counts) :
    Reports o frames opened opened' (tryCatch x h) := by
  intro w hframes
  cases hrun : x w with
  | ok a w₁ =>
      rw [tryCatch_of_ok hrun]
      constructor
      · intro a' w' h'
        cases h'
        exact (hx w hframes).1 a w₁ hrun
      · intro e w' h'
        cases h'
  | error e w₁ =>
      -- the handler fails again and tells nothing
      obtain ⟨e₁, w₂, hhandled, hevents, hcounts⟩ := hh e w₁
      rw [tryCatch_of_error hrun, hhandled]
      constructor
      · intro a w' h'
        cases h'
      · intro e' w' h'
        cases h'
        exact ((hx w hframes).2 e w₁ hrun).congr hevents hcounts

/-- If the observer is not told about both calls and returns, nothing is said about open calls. -/
theorem of_unobserved (hoff : ¬(o.config.calls = true ∧ o.config.returns = true))
    (hx : Reports o frames opened opened' x) : Reports o frames opened opened'' x := by
  intro w hframes
  refine ⟨fun a w' hrun => ?_, (hx w hframes).2⟩
  obtain ⟨hframes', es, htold⟩ := (hx w hframes).1 a w' hrun
  exact ⟨hframes', es, htold.events_eq, htold.counts_eq, htold.accepted,
    fun hcalls hreturns => absurd ⟨hcalls, hreturns⟩ hoff⟩

/-- Events are never taken back. -/
theorem exists_events {w w' : World} (hx : Reports o frames opened opened' x)
    (hframes : w.sites.length = frames)
    (h : (∃ a, x w = .ok a w') ∨ ∃ e, x w = .error e w') :
    ∃ events, w'.events.toList = w.events.toList ++ events := by
  rcases h with ⟨a, h⟩ | ⟨e, h⟩
  · obtain ⟨-, events, htold⟩ := (hx w hframes).1 a w' h
    exact ⟨events, htold.events_eq⟩
  · obtain ⟨events, hevents, -⟩ := ((hx w hframes).2 e w' h).exists_accepted
    exact ⟨events, hevents⟩

/-- A failure tells nothing, and which calls would be open after it does not matter. -/
theorem throw (e : Failure) : Reports o frames opened opened' (throw e : Exec α) := by
  intro w hframes
  constructor
  · intro a w' hrun
    cases hrun
  · intro e' w' hrun
    cases hrun
    exact .told (.nothing rfl rfl)

end Reports

/-- A way to call values that leaves the calls open that it finds open. -/
def Invoke.Reports (invoke : Invoke) (o : Observer) (opened : OpenCalls) : Prop :=
  ∀ f args keywords,
    Wordcode.Reports o (opened.length + 1) opened opened (invoke f args keywords)

/-- Scripts make their calls one after another. -/
theorem Script.reports {α : Type} {x : Invoke → Exec α} (hx : Script Confined x) {o : Observer}
    {opened : OpenCalls} {invoke : Invoke} (hinvoke : invoke.Reports o opened) :
    Reports o (opened.length + 1) opened opened (x invoke) := by
  induction hx with
  | own hown => exact .of_confined hown
  | call f args keywords => exact hinvoke f args keywords
  | bind _ _ ihx ihk => exact ihx.bind ihk
  | relay _ _ ih => exact ih.handle fun e w => ⟨_, w, rfl, rfl, rfl⟩

/-! ## The machine -/

namespace Machine

variable {m : Machine} {o : Observer} {opened opened' : OpenCalls} {w : World}

/-- An event that fits is told, whether or not the observer accepts it. -/
theorem reports_report {frames : Nat} {event : Event}
    (hnext : o.config.calls = true → o.config.returns = true →
      event.follow opened = some opened') :
    Reports o frames opened opened' (report o event) := by
  intro w hframes
  -- an event that is refused is the last one
  cases haccepts : o.accepts event (w.counts.add event) with
  | true =>
      rw [report_of_accepts haccepts]
      constructor
      · intro a w' h
        cases h
        refine ⟨hframes, [event], by simp, rfl, ⟨haccepts, trivial⟩, fun hcalls hreturns => ?_⟩
        rw [replay, List.foldlM_cons, hnext hcalls hreturns]
        rfl
      · intro e w' h
        cases h
  | false =>
      rw [report_of_refuses haccepts]
      constructor
      · intro a w' h
        cases h
      · intro e w' h
        cases h
        exact .refused (.nothing rfl rfl) rfl rfl haccepts hnext

/-- Messages go to the log and not to the observer. -/
theorem reports_log (m : Machine) (message : LogMessage) {frames : Nat} :
    Reports o frames opened opened (m.log message) :=
  .of_local (leaves_log (fun _ _ => rfl) m message)

section

variable (hobserver : m.observer? = some o)
include hobserver

/-! ### Frames -/

/-- An instruction is reported with the depth of the innermost frame. -/
theorem reports_reportStep (f : Frame) (i : Instruction) :
    Reports o (opened.length + 1) opened opened (m.reportStep f i) := by
  -- the depth told is the number of frames, which is that of the open calls
  have hevent : Reports o (opened.length + 1) opened opened (do
      let depth := (← get).sites.length
      report o (.step f.name i.offset i.op i.arg f.stack.length depth)) := by
    refine .get_bind fun w hframes => reports_report fun _ _ => ?_
    exact if_pos hframes
  unfold reportStep
  rw [hobserver]
  dsimp only
  split
  · exact .pure ()
  · exact hevent
  · refine .get_bind fun w _ => .bind (.of_local (local_modify fun _ => rfl)) fun _ => ?_
    split
    · exact hevent
    · exact .pure ()

variable {invoke : Invoke} (hinvoke : ∀ opened, invoke.Reports o opened) (fuel : Nat)
include hinvoke

/-- A turn tells its step, and then what the instruction tells. -/
theorem reports_turn (f : Frame) (i : Instruction) :
    Reports o (opened.length + 1) opened opened (m.turn ⟨invoke, fuel⟩ f i) := by
  have hsite (site : Fault.Site) : Reports o (opened.length + 1) opened opened (atSite site) := by
    intro w hframes
    constructor
    · intro a w' h
      cases h
      exact ⟨by simp [hframes], [], .nothing rfl rfl⟩
    · intro e w' h
      cases h
  unfold turn
  refine .bind (hsite _) fun _ => .bind (reports_reportStep hobserver f i) fun _ => ?_
  exact (Script.execute fuel i f).reports (hinvoke opened)

/-- A frame leaves the calls open that it finds open, however many instructions it executes. -/
theorem reports_runFrom (steps offset : Nat) (f : Frame) :
    Reports o (opened.length + 1) opened opened
      (m.runFrom ⟨invoke, fuel⟩ steps offset f) := by
  induction steps generalizing offset f with
  | zero => exact .throw .exhausted
  | succ steps ih =>
      unfold runFrom
      cases f.code.listing.lookup? offset with
      | none => exact .throw _
      | some i =>
          refine .bind (reports_turn hobserver hinvoke fuel f i) fun p => ?_
          obtain ⟨flow, f'⟩ := p
          cases flow with
          | next => exact ih _ f'
          | jump target => exact ih target f'
          | leave v => exact .pure _

/-- A frame is one more than the calls that are open when it is put on top. -/
theorem reports_runFrame (opened : OpenCalls) (f : Frame) :
    Reports o opened.length opened opened (m.runFrame ⟨invoke, fuel⟩ f) := by
  intro w hframes
  have hentered : (w.enter f.unfetched).sites.length = opened.length + 1 := by
    rw [← hframes]
    rfl
  have hrun := reports_runFrom hobserver hinvoke fuel fuel 0 f _ hentered
  -- the records are those from before the frame has been put on top
  have hsame : Told o opened opened w (w.enter f.unfetched) [] := .nothing rfl rfl
  cases hfrom : m.runFrom ⟨invoke, fuel⟩ fuel 0 f (w.enter f.unfetched) with
  | ok p w₁ =>
      obtain ⟨v, left⟩ := p
      obtain ⟨l, hframe⟩ := runFrame_of_ok hfrom
      obtain ⟨-, es, htold⟩ := hrun.1 (v, left) w₁ hfrom
      rw [hframe]
      constructor
      · intro v w' h
        cases h
        exact ⟨hframes, _, (hsame.trans htold).congr rfl rfl⟩
      · intro e w' h
        cases h
  | error e w₁ =>
      rw [runFrame_of_error hfrom]
      constructor
      · intro v w' h
        cases h
      · intro e' w' h
        cases h
        exact ((hrun.2 e w₁ hfrom).after hsame).congr rfl rfl

omit hinvoke

/-! ### Calls -/

/-- A call is announced with the depth of the frame that it opens. -/
theorem reports_announce (c : Call) :
    Reports o (opened.length + 1) opened ((c.function.code.name, opened.length + 2) :: opened)
      (m.announce c (opened.length + 2)) := by
  unfold announce
  rw [hobserver]
  dsimp only
  by_cases hcalls : o.config.calls = true
  · rw [if_pos hcalls]
    refine .bind (reports_report fun _ _ => ?_) fun _ => reports_log m _
    exact if_pos rfl
  · rw [if_neg hcalls]
    exact .of_unobserved (fun h => hcalls h.1) (reports_log m _)

/-- Opening a frame tells its call, which is open from then on. -/
theorem reports_openFrame (c : Call) :
    Reports o (opened.length + 1) opened ((c.function.code.name, opened.length + 2) :: opened)
      (m.openFrame c) := by
  unfold openFrame
  refine .bind_result (.of_local (local_checkDepth m c)) fun w depth w' hframes hchecked => ?_
  obtain ⟨-, hdepth, -, -⟩ := checkDepth_eq_ok_iff.mp hchecked
  rw [hdepth, hframes]
  refine .bind (.of_local (leaves_load (fun _ _ => rfl) (fun _ _ => rfl) _)) fun code => ?_
  refine .bind (.of_confined (Exec.confined_lift (Op.local_makeScope c))) fun scope => ?_
  exact .bind (reports_announce hobserver c) fun _ => .pure _

/-- A return closes the call that was opened last. -/
theorem reports_closeFrame (c : Call) (v : Value) :
    Reports o (opened.length + 1) ((c.function.code.name, opened.length + 2) :: opened) opened
      (m.closeFrame c v) := by
  unfold closeFrame
  refine .get_bind fun w hframes => .bind (reports_log m _) fun _ => ?_
  rw [hobserver, hframes]
  dsimp only
  by_cases hreturns : o.config.returns = true
  · rw [if_pos hreturns]
    refine .bind (.of_confined (Exec.confined_lift (Op.local_repr v))) fun text => ?_
    exact reports_report fun _ _ => if_pos rfl
  · rw [if_neg hreturns]
    exact .of_unobserved (fun h => hreturns h.2) (.pure ())

/-- A call of a function is closed when it succeeds. -/
theorem reports_callFunction {invoke : Invoke} (hinvoke : ∀ opened, invoke.Reports o opened)
    (fuel : Nat) (c : Call) :
    Reports o (opened.length + 1) opened opened
      (m.callFunction ⟨invoke, fuel⟩ c) := by
  unfold callFunction
  refine .bind (reports_openFrame hobserver c) fun f => ?_
  refine .bind (reports_runFrame hobserver hinvoke fuel (_ :: opened) f) fun v => ?_
  exact .bind (reports_closeFrame hobserver c v) fun _ => .pure v

/-- Calls leave the calls open that they find open. -/
theorem reports_invoke (hhosts : m.ScriptedHosts) (fuel : Nat) (opened : OpenCalls) :
    (m.invoke fuel).Reports o opened := by
  -- a call that is made within another one has less fuel than that
  induction fuel generalizing opened with
  | zero => exact fun f args keywords => .throw .exhausted
  | succ fuel ih =>
      intro f args keywords
      by_cases hf : ∃ ref, f = .function ref
      · obtain ⟨ref, rfl⟩ := hf
        refine .bind (.of_confined (Exec.confined_lift (Op.local_closure ref))) fun c => ?_
        have hcall : Reports o (opened.length + 1) opened opened
            (m.callFunction ⟨m.invoke fuel, fuel⟩ ⟨c, args, keywords⟩) :=
          reports_callFunction hobserver ih fuel ⟨c, args, keywords⟩
        exact hcall.bind fun v => .pure (some v)
      · push Not at hf
        have hscript := script_answer m fuel hf args keywords fun h _ =>
          hhosts h.name args keywords
        exact hscript.reports (ih opened)

/-! ### Runs -/

/-- The program tells its own events and leaves no call open. -/
theorem reports_runMain (hhosts : m.ScriptedHosts) (fuel : Nat) (code : Loaded) :
    Reports o 0 [] [] (m.runMain fuel code) := by
  unfold runMain
  refine .get_bind fun w _ => .bind (reports_log m _) fun _ => ?_
  have hframe : Reports o 0 [] []
      (m.runFrame (m.surroundings fuel) { code, locals := .globals }) :=
    reports_runFrame hobserver (reports_invoke hobserver hhosts fuel) fuel [] _
  refine .bind (.handle hframe fun e w => ?_) fun v => .bind (reports_log m _) fun _ => .pure v
  by_cases herror : e.isError = true
  · obtain ⟨l, hlog⟩ := log_eq m (.runFailed e.text) w
    rw [if_pos herror]
    exact ⟨e, _, (bind_of_ok hlog).trans rfl, rfl, rfl⟩
  · rw [if_neg herror]
    exact ⟨e, w, rfl, rfl, rfl⟩

omit hobserver in
/-- Between runs no frame is active. -/
theorem reports_whileRunning {α : Type} {x : Exec α} (hx : Reports o 0 [] [] x) :
    Reports o 0 [] [] (whileRunning x) := by
  have henter : Local World.records enter := by
    unfold enter
    refine local_get.bind fun w => ?_
    split
    · exact (local_throw (Failure.untraced_plain _)).bind fun _ => local_modify fun _ => rfl
    · exact local_modify fun _ => rfl
  -- the marks that are set and taken back are not told
  have hleave : Reports o 0 [] [] leave := by
    intro w _
    constructor
    · intro a w' h
      cases h
      exact ⟨rfl, [], .nothing rfl rfl⟩
    · intro e w' h
      cases h
  unfold whileRunning
  refine .bind (.of_local henter) fun _ => ?_
  refine .bind (.handle hx fun e w => ?_) fun a => .bind hleave fun _ => .pure a
  exact ⟨e, { w with running := false, sites := [] }, rfl, rfl, rfl⟩

/-- A run tells the events of its program, if it comes to that. -/
theorem reports_run (hhosts : m.ScriptedHosts) (fuel : Nat) : Reports o 0 [] [] (m.run fuel) := by
  have hload (main : Code) : Local World.records (loadMain main) := by
    unfold loadMain
    refine Local.bind (local_modify fun _ => ?_) fun _ =>
      leaves_load (fun _ _ => rfl) (fun _ _ => rfl) main
    rfl
  have hprogram : Reports o 0 [] [] m.program := by
    unfold program
    split
    · exact .pure _
    · exact .throw _
  unfold run
  refine hprogram.bind fun main => reports_whileRunning ?_
  exact .bind (.of_local (hload main)) fun code => reports_runMain hobserver hhosts fuel code

/-- What an observer has been told in the course of a run. -/
theorem told_run (hhosts : m.ScriptedHosts) (hidle : w.Idle) (fuel : Nat) :
    (∀ v w', m.run fuel w = .ok v w' → ∃ events, Told o [] [] w w' events) ∧
      ∀ e w', m.run fuel w = .error e w' → Cut o [] w w' := by
  have hframes : w.sites.length = 0 := by rw [hidle.sites_eq, List.length_nil]
  obtain ⟨hsuccess, hfailure⟩ := reports_run hobserver hhosts fuel w hframes
  exact ⟨fun v w' hrun => (hsuccess v w' hrun).2, hfailure⟩

/-! ### What is told -/

/-- An observer of all instructions is told about each of them. -/
theorem reportStep_of_all (hmode : o.config.mode = .all) (f : Frame) (i : Instruction)
    (w : World) :
    m.reportStep f i w =
      report o (.step f.name i.offset i.op i.arg f.stack.length w.sites.length) w := by
  have hnormal : o.config.normalize.mode = .all := by
    unfold ObserverConfig.normalize
    rw [hmode]
    exact hmode
  unfold reportStep
  rw [hobserver]
  dsimp only
  generalize o.config.normalize = config at hnormal
  obtain ⟨mode, interval, calls, returns⟩ := config
  cases hnormal
  rfl

/-- The first thing that is told about an instruction is the instruction itself. -/
theorem events_of_turn (hmode : o.config.mode = .all) (hhosts : m.ScriptedHosts) {fuel : Nat}
    {f : Frame} {i : Instruction} {w' : World}
    (h : (∃ p, m.turn (m.surroundings fuel) f i w = .ok p w') ∨
      ∃ e, m.turn (m.surroundings fuel) f i w = .error e w') :
    ∃ rest, w'.events.toList = w.events.toList ++
      .step f.name i.offset i.op i.arg f.stack.length (w.sites.tail.length + 1) :: rest := by
  rw [turn_eq] at h
  have hstep : m.reportStep f i (w.atSite (f.siteOf i)) =
      report o (.step f.name i.offset i.op i.arg f.stack.length (w.sites.tail.length + 1))
        (w.atSite (f.siteOf i)) := reportStep_of_all hobserver hmode f i _
  generalize Event.step f.name i.offset i.op i.arg f.stack.length (w.sites.tail.length + 1) =
    event at hstep ⊢
  cases haccepts : o.accepts event ((w.atSite (f.siteOf i)).counts.add event) with
  | false =>
      rw [bind_of_error (hstep.trans (report_of_refuses haccepts))] at h
      rcases h with ⟨p, h⟩ | ⟨e, h⟩
      · cases h
      · cases h
        exact ⟨[], Array.toList_push⟩
  | true =>
      rw [bind_of_ok (hstep.trans (report_of_accepts haccepts))] at h
      -- which calls are open does not matter here, but only how many frames are active
      have hscript := (Script.execute fuel i f).reports
        (reports_invoke hobserver hhosts fuel (List.replicate w.sites.tail.length default))
      obtain ⟨rest, hrest⟩ := hscript.exists_events (by simp [World.atSite]) h
      refine ⟨rest, ?_⟩
      rw [hrest, Array.toList_push, List.append_assoc]
      rfl

/-- An observer is told about each instruction of a run before anything else that the instruction
leads to, with the number of frames that are active. -/
def TellsSteps (m : Machine) (fuel : Nat) (w : World) : Prop :=
  ∀ a as i w', Stacked m fuel w a as → a.config.instruction? = some i →
    ((∃ p, m.turn (m.surroundings a.fuel) a.config.frame i a.config.world = .ok p w') ∨
      ∃ e, m.turn (m.surroundings a.fuel) a.config.frame i a.config.world = .error e w') →
    ∃ rest, w'.events.toList = a.config.world.events.toList ++
      .step a.config.frame.name i.offset i.op i.arg a.config.frame.stack.length
        (as.length + 1) :: rest

/-- With an observer of all instructions, every step is told. -/
theorem tellsSteps (hmode : o.config.mode = .all) (hhosts : m.ScriptedHosts) (hidle : w.Idle)
    (fuel : Nat) : TellsSteps m fuel w := by
  intro a as i w' hstacked _ h
  have hsites := hstacked.sites hhosts.faithful hidle
  obtain ⟨rest, hrest⟩ := events_of_turn hobserver hmode hhosts h
  refine ⟨rest, ?_⟩
  rw [hrest, hsites, List.tail_cons, List.length_map]

end

/-- The machine whose callback fails, with an observer that is told about everything. -/
def observedCallback : Machine := { failingCallback with observer? := some {} }

end Machine

end Wordcode
