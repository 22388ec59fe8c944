import Wordcode.Proofs.Dispatch
import Wordcode.Proofs.Instructions
import Mathlib

namespace Wordcode

/-! # Calls

A call of a function puts a frame on top of the active ones and takes it away again, also when it
fails. All other calls are routines, so that no call changes which frames are active.

* `Machine.runFrame_cases` and `Machine.runFrom_error_cases` say how a frame ends.
* `Machine.keepsSites_invoke` says that calls leave the active frames as they were.
-/

/-- What a frame counts as executing before it has fetched an instruction. -/
def Frame.unfetched (f : Frame) : Fault.Site := ⟨f.name, f.code.code.file, 0, "<0>"⟩

/-- What a frame counts as executing once it has fetched an instruction. -/
def Frame.siteOf (f : Frame) (i : Instruction) : Fault.Site :=
  ⟨f.name, f.code.code.file, i.offset, i.op.name⟩

/-- The world in which the innermost frame is at a site. -/
def World.atSite (w : World) (site : Fault.Site) : World := { w with sites := site :: w.sites.tail }

/-- The world in which a frame has been put on top of the active ones. -/
def World.enter (w : World) (site : Fault.Site) : World := { w with sites := site :: w.sites }

namespace Machine

variable {m : Machine} {s : Surroundings} {w w' : World}

/-! ## Records -/

/-- Logging never fails, and only writes to the log. -/
theorem log_eq (m : Machine) (message : LogMessage) (w : World) :
    ∃ l, m.log message w = .ok () { w with log := l } := by
  unfold log
  split_ifs
  · exact ⟨_, rfl⟩
  · exact ⟨w.log, rfl⟩

/-- Logging always succeeds. -/
theorem log_cases (m : Machine) (message : LogMessage) (w : World) :
    ∃ w', m.log message w = .ok () w' ∧ w'.sites = w.sites := by
  obtain ⟨l, hlog⟩ := log_eq m message w
  exact ⟨_, hlog, rfl⟩

/-- Logging changes nothing but the log. -/
theorem leaves_log {κ : Type} {part : World → κ} (hpart : ∀ w l, part { w with log := l } = part w)
    (m : Machine) (message : LogMessage) : Local part (m.log message) := by
  unfold log
  extract_lets wanted
  cases wanted with
  | true => exact local_modify fun w => hpart w _
  | false => exact local_pure ()

@[grind ←]
theorem local_log (m : Machine) (message : LogMessage) : Local World.sites (m.log message) :=
  leaves_log (fun _ _ => rfl) m message

/-- An event that is reported changes only the records. -/
@[grind ←]
theorem local_report (o : Observer) (event : Event) : Local World.sites (report o event) := by
  unfold report
  refine local_get.bind fun w => Local.bind (local_modify fun _ => ?_) fun _ => ?_
  · rfl
  · grind

/-- An event is recorded, and the run goes on if the observer accepts it. -/
theorem report_of_accepts {o : Observer} {event : Event}
    (h : o.accepts event (w.counts.add event) = true) :
    report o event w =
      .ok () { w with counts := w.counts.add event, events := w.events.push event } := by
  unfold report
  refine (bind_of_ok rfl).trans ((bind_of_ok rfl).trans ?_)
  rw [if_neg (by simp [h])]
  rfl

/-- An event that the observer refuses is recorded too. -/
theorem report_of_refuses {o : Observer} {event : Event}
    (h : o.accepts event (w.counts.add event) = false) :
    report o event w = .error (.raise .halted "execution halted by observer")
      { w with counts := w.counts.add event, events := w.events.push event } := by
  unfold report
  refine (bind_of_ok rfl).trans ((bind_of_ok rfl).trans ?_)
  rw [if_pos (by simp [h])]
  rfl

@[grind ←]
theorem local_reportStep (m : Machine) (f : Frame) (i : Instruction) :
    Local World.sites (m.reportStep f i) := by
  unfold reportStep
  split
  · exact local_pure ()
  · split
    · exact local_pure ()
    · grind
    · refine local_get.bind fun w => Local.bind (local_modify fun _ => ?_) fun _ => ?_
      · rfl
      · grind

/-- Preparing code looks at nothing but the code. -/
theorem confined_prepare (c : Code) : Confined (prepare c) := by
  unfold prepare
  split
  · refine confined_throw ?_
    split
    · exact Failure.untraced_wrap _ _
    · exact Failure.untraced_of_not_isError (by simp_all)
  · refine Confined.bind (by grind) fun listing => ?_
    refine Confined.bind (confined_mapM ?_ _) fun constants => confined_pure _
    rintro ⟨k, i⟩
    exact Exec.confined_lift (Op.Local.labelled (Op.local_ofConst k) _)

/-- Loading makes the values of constants and changes nothing else but what is loaded. -/
theorem leaves_load {κ : Type} {part : World → κ}
    (hreach : ∀ u w : World, part (u.within w) = part w)
    (hpart : ∀ w l, part { w with loaded := l } = part w) (c : Code) : Local part (load c) := by
  unfold load
  refine local_get.bind fun w => ?_
  split
  · exact local_pure _
  · refine ((confined_prepare c).leaves hreach).bind fun l => ?_
    exact (local_modify fun w => hpart w _).bind fun _ => local_pure l

@[grind ←]
theorem local_load (c : Code) : Local World.sites (load c) :=
  leaves_load (fun _ _ => rfl) (fun _ _ => rfl) c

theorem local_program (m : Machine) : Local World.sites m.program := by
  unfold program
  grind

/-- Entering a run leaves the sites. -/
theorem local_enter : Local World.sites enter := by
  unfold enter
  refine local_get.bind fun w => ?_
  split
  · exact (local_throw (Failure.untraced_plain _)).bind fun _ => local_modify fun _ => rfl
  · exact local_modify fun _ => rfl

theorem local_loadMain (c : Code) : Local World.sites (loadMain c) := by
  refine Local.bind (local_modify fun _ => ?_) fun _ => local_load c
  rfl

/-- If there is an observer, it accepts every event. -/
def Consents (m : Machine) : Prop :=
  ∀ o, m.observer? = some o → ∀ event counts, o.accepts event counts = true

/-! ## Frames of calls -/

theorem local_checkDepth {κ : Type} {part : World → κ} (m : Machine) (c : Call) :
    Local part (m.checkDepth c) := by
  unfold checkDepth
  grind

/-- The observer is told before the frame is there. -/
theorem local_announce (m : Machine) (c : Call) (depth : Nat) :
    Local World.sites (m.announce c depth) := by
  unfold announce
  grind

/-- A frame that is opened is not yet active. -/
theorem local_openFrame (m : Machine) (c : Call) : Local World.sites (m.openFrame c) := by
  unfold openFrame
  refine (local_checkDepth m c).bind fun depth => (local_load _).bind fun code => ?_
  refine (Exec.local_lift (Op.local_makeScope c)).bind fun scope => ?_
  exact (local_announce m c depth).bind fun _ => local_pure _

/-- A frame that is closed is no longer active. -/
theorem local_closeFrame (m : Machine) (c : Call) (v : Value) :
    Local World.sites (m.closeFrame c v) := by
  unfold closeFrame
  grind

/-- While the machine runs, the limit alone decides whether a frame may be opened. -/
theorem checkDepth_eq_ok_iff {c : Call} {depth : Nat} :
    m.checkDepth c w = .ok depth w' ↔
      w.running = true ∧ depth = w.sites.length + 1 ∧ depth ≤ m.maxDepth ∧ w' = w := by
  constructor
  · intro h
    unfold checkDepth at h
    obtain ⟨_, w₁, hget, hrest⟩ := bind_eq_ok h
    cases hget
    split at hrest
    · obtain ⟨_, w₂, hraise, -⟩ := bind_eq_ok hrest
      cases hraise
    · rename_i hrunning
      obtain ⟨_, w₂, hget, hrest⟩ := bind_eq_ok hrest
      cases hget
      -- the two checks come one after the other, and neither changes anything
      by_cases hdeep : m.maxDepth < w.sites.length + 1
      · rw [if_pos hdeep] at hrest
        obtain ⟨_, w₂, hraise, -⟩ := bind_eq_ok hrest
        cases hraise
      · rw [if_neg hdeep] at hrest
        cases hrest
        exact ⟨by simpa using hrunning, rfl, by omega, rfl⟩
  · rintro ⟨hrunning, rfl, hroom, rfl⟩
    unfold checkDepth
    refine (bind_of_ok rfl).trans ?_
    rw [if_neg (by simp [hrunning])]
    refine (bind_of_ok rfl).trans ?_
    rw [if_neg (by omega)]
    rfl

/-- A frame is opened only where the limit leaves room for it. -/
theorem openFrame_cases {c : Call} {f : Frame} (h : m.openFrame c w = .ok f w') :
    w.sites.length + 1 ≤ m.maxDepth ∧ w'.sites = w.sites := by
  refine ⟨?_, (local_openFrame m c w).1 f w' h⟩
  obtain ⟨depth, w₁, hcheck, -⟩ := bind_eq_ok h
  obtain ⟨-, rfl, hroom, -⟩ := checkDepth_eq_ok_iff.mp hcheck
  exact hroom

/-! ## Running frames -/

/-- A frame is taken away when it has returned. -/
theorem runFrame_of_ok {f : Frame} {v : Value} {left : Nat}
    (h : m.runFrom s s.fuel 0 f (w.enter f.unfetched) = .ok (v, left) w') :
    ∃ l, m.runFrame s f w = .ok v { w' with log := l, sites := w.sites } := by
  unfold runFrame
  -- values left on the stack are logged, which cannot fail
  by_cases hleft : 0 < left
  · obtain ⟨l, hlog⟩ := log_eq m (.leftover f.name (w.sites.length + 1) left) w'
    refine ⟨l, (bind_of_ok rfl).trans ((bind_of_ok rfl).trans ?_)⟩
    refine (bind_of_ok (tryCatch_of_ok h)).trans ?_
    dsimp only
    rw [if_pos hleft]
    exact (bind_of_ok hlog).trans rfl
  · refine ⟨w'.log, (bind_of_ok rfl).trans ((bind_of_ok rfl).trans ?_)⟩
    refine (bind_of_ok (tryCatch_of_ok h)).trans ?_
    dsimp only
    rw [if_neg hleft]
    rfl

/-- When a frame has failed, that is recorded before the frame is taken away. -/
theorem runFrame_of_error {f : Frame} {e : Failure}
    (h : m.runFrom s s.fuel 0 f (w.enter f.unfetched) = .error e w') :
    m.runFrame s f w =
      .error (e.record (w.sites.length + 1 : Nat) w'.sites) { w' with sites := w.sites } := by
  unfold runFrame
  refine (bind_of_ok rfl).trans ((bind_of_ok rfl).trans ?_)
  exact bind_of_error ((tryCatch_of_error h).trans rfl)

/-- A frame that has run is taken off again. If it has failed, the failure has been recorded first,
with the sites of all active frames. -/
theorem runFrame_cases (m : Machine) (s : Surroundings) (f : Frame) (w : World) :
    (∃ v w', m.runFrame s f w = .ok v w' ∧ w'.sites = w.sites) ∨
      ∃ e w₁, m.runFrom s s.fuel 0 f (w.enter f.unfetched) = .error e w₁ ∧
        m.runFrame s f w =
          .error (e.record (w.sites.length + 1 : Nat) w₁.sites) { w₁ with sites := w.sites } := by
  cases hrun : m.runFrom s s.fuel 0 f (w.enter f.unfetched) with
  | error e w₁ => exact Or.inr ⟨e, w₁, rfl, runFrame_of_error hrun⟩
  | ok p w₁ =>
      obtain ⟨v, left⟩ := p
      obtain ⟨l, hframe⟩ := runFrame_of_ok hrun
      exact Or.inl ⟨v, _, hframe, rfl⟩

/-- A frame that runs leaves the frames below it. -/
theorem keepsSites_runFrame (m : Machine) (s : Surroundings) (f : Frame) :
    KeepsSites (m.runFrame s f) := by
  intro w
  rcases runFrame_cases m s f w with ⟨v, w₁, hrun, hsame⟩ | ⟨e, w₁, -, hrun⟩
  · constructor
    · intro v' w' h
      cases hrun.symm.trans h
      exact hsame
    · intro e w' h
      cases hrun.symm.trans h
  · constructor
    · intro v w' h
      cases hrun.symm.trans h
    · intro e' w' h
      cases hrun.symm.trans h
      rfl

/-- Leaving the code is an error that has no trace yet. -/
theorem untraced_strayed (f : Frame) (offset : Nat) : (strayed f offset).Untraced := by
  unfold strayed
  split
  · exact Failure.untraced_malformed _ _
  · exact Failure.untraced_malformed _ _

/-- A frame fails where it finds no instruction, and at an instruction that fails. -/
inductive Fails (m : Machine) (s : Surroundings) : Config → Failure → World → Prop
  | strayed {c : Config} :
    c.instruction? = none → Fails m s c (strayed c.frame c.offset) c.world
  | turn {c : Config} {i : Instruction} {e : Failure} {w : World} :
    c.instruction? = some i → m.turn s c.frame i c.world = .error e w → Fails m s c e w

/-- A frame runs until it fails, unless the number of steps does not suffice. -/
theorem runFrom_error_cases (steps : Nat) {c : Config} {e : Failure}
    (h : m.runFrom s steps c.offset c.frame c.world = .error e w') :
    e = .exhausted ∨ ∃ n c', n < steps ∧ after m s n c = some c' ∧ Fails m s c' e w' := by
  induction steps generalizing c with
  | zero =>
      cases h
      exact Or.inl rfl
  | succ steps ih =>
      unfold runFrom at h
      cases hlookup : c.frame.code.listing.lookup? c.offset with
      | none =>
          rw [hlookup] at h
          cases h
          exact Or.inr ⟨0, c, Nat.succ_pos steps, rfl, .strayed hlookup⟩
      | some i =>
          rw [hlookup] at h
          -- a step has been taken, so the failing one is a step later
          have hgoesOn {c₁ : Config} (hstep : Steps m s c c₁)
              (hrun : m.runFrom s steps c₁.offset c₁.frame c₁.world = .error e w') :
              e = .exhausted ∨
                ∃ n c', n < steps + 1 ∧ after m s n c = some c' ∧ Fails m s c' e w' := by
            rcases ih hrun with hout | ⟨n, c', hn, hafter, hfails⟩
            · exact Or.inl hout
            · refine Or.inr ⟨n + 1, c', Nat.succ_lt_succ hn, ?_, hfails⟩
              rw [after, steps_iff_step?_eq.mp hstep]
              exact hafter
          cases hturn : m.turn s c.frame i c.world with
          | error e₁ w₁ =>
              cases (bind_of_error hturn).symm.trans h
              exact Or.inr ⟨0, c, Nat.succ_pos steps, rfl, .turn hlookup hturn⟩
          | ok p w₁ =>
              obtain ⟨flow, f₁⟩ := p
              have hrest := (bind_of_ok hturn).symm.trans h
              cases flow with
              | next => exact hgoesOn (.next hlookup hturn) hrest
              | jump target => exact hgoesOn (.jump hlookup hturn) hrest
              | leave v => cases hrest

/-! ## Calls -/

/-- A call leaves the frames below it. -/
theorem keepsSites_callFunction (m : Machine) (s : Surroundings) (c : Call) :
    KeepsSites (m.callFunction s c) := by
  unfold callFunction
  refine (KeepsSites.of_local (local_openFrame m c)).bind fun f => ?_
  refine (keepsSites_runFrame m s f).bind fun v => ?_
  exact (KeepsSites.of_local (local_closeFrame m c v)).bind fun _ => .of_local (local_pure v)

/-- Whether a host takes keyword arguments depends on the host. -/
theorem confined_checkConvention (h : Host) (keywords : List Entry) :
    Confined (checkConvention h keywords) := by
  unfold checkConvention
  grind

/-- The host callables fail with errors of their own, or they pass on the error of a value that they
have called. -/
def FaithfulHosts (m : Machine) : Prop :=
  ∀ name args keywords, Routine (fun _ => False) fun invoke => m.hosts name invoke args keywords

/-- A callable may do something about an error and then pass it on. -/
example (hm : m.hosts = fun name invoke args _ =>
      tryCatch (invoke (args.headD .none) [] []) fun e => do
        if e.isError then Exec.print s!"{name} has failed"
        throw e) : m.FaithfulHosts := by
  intro name args keywords
  rw [hm]
  refine .handle (.call (args.headD .none) [] []) (fun e => ?_) fun e he => ?_
  · have hpass : Routine (fun f => False ∨ e.fault? = some f) fun _ =>
        (throw e : Exec (Option Value)) := .pass fun f hf => Or.inr (Or.inr hf)
    by_cases he : e.isError = true
    · simp only [he, if_true]
      exact .bind (.own (Exec.confined_print _).local_sites) fun _ => hpass
    · simp only [he]
      exact hpass
  · funext invoke
    rw [if_neg (by simp [he])]

/-- The host callables only do what programs can do, apart from the calls that they make, and they
pass on the failure of a value that they have called. -/
def ScriptedHosts (m : Machine) : Prop :=
  ∀ name args keywords, Script Confined fun invoke => m.hosts name invoke args keywords

/-- Scripted hosts leave the active frames to the machine. -/
theorem ScriptedHosts.faithful (h : m.ScriptedHosts) : m.FaithfulHosts :=
  fun name args keywords => (h name args keywords).routine

/-- What is called without a frame of its own is a composite, as far as the host callables are. Only
what goes through pairs needs relays. -/
theorem composite_answer {relays : Prop} (m : Machine) (fuel : Nat) {f : Value}
    (hf : ∀ ref, f ≠ .function ref) (hdict : f = .builtin .dict → relays)
    (hupdate : ∀ ref id, f = .method (.dict ref) (.dict .update) id → relays)
    (args : List Value) (keywords : List Entry)
    (hhost : ∀ h, f = .host h → Composite relays Confined fun invoke =>
      m.hosts h.name invoke args keywords) :
    Composite relays Confined fun invoke =>
      m.answer ⟨invoke, fuel⟩ f args keywords := by
  have hcall : ∀ f args, Composite relays Confined fun invoke =>
      (⟨invoke, fuel⟩ : Surroundings).callback f args :=
    Composite.callback fuel
  unfold answer
  -- functions are left out, since calling one opens a frame
  cases f with
  | function ref => exact absurd rfl (hf ref)
  | method receiver method id =>
      refine (Composite.callMethod hcall fuel receiver method (fun ref hreceiver hm => ?_) args
        keywords).map some
      exact hupdate ref id (by rw [hreceiver, hm])
  | builtin b =>
      refine (Composite.callBuiltin hcall fuel b (fun hb => ?_) args keywords).map some
      exact hdict (by rw [hb])
  | host h => exact .bind (.own (confined_checkConvention h keywords)) fun _ => hhost h rfl
  | none | bool | int | float | str | range | tuple | slice | list | dict | iterator | code =>
      exact .own (Exec.confined_typeError _)

/-- What is called without a frame of its own is a script, as far as the host callables are. -/
theorem script_answer (m : Machine) (fuel : Nat) {f : Value} (hf : ∀ ref, f ≠ .function ref)
    (args : List Value) (keywords : List Entry)
    (hhost : ∀ h, f = .host h → Script Confined fun invoke =>
      m.hosts h.name invoke args keywords) :
    Script Confined fun invoke => m.answer ⟨invoke, fuel⟩ f args keywords :=
  (m.composite_answer fuel hf (fun _ => trivial) (fun _ _ _ => trivial) args keywords
    fun h hh => (hhost h hh).composite).script

/-- What is called without a frame of its own is a routine. -/
theorem routine_answer (hhosts : m.FaithfulHosts) (fuel : Nat) {f : Value}
    (hf : ∀ ref, f ≠ .function ref) (args : List Value) (keywords : List Entry) :
    Routine (fun _ => False) fun invoke =>
      m.answer ⟨invoke, fuel⟩ f args keywords := by
  by_cases hhost : ∃ h, f = .host h
  · obtain ⟨h, rfl⟩ := hhost
    exact .bind (.own (confined_checkConvention h keywords).local_sites) fun _ =>
      hhosts h.name args keywords
  · push Not at hhost
    exact (script_answer m fuel hf args keywords fun h hh => absurd hh (hhost h)).routine

/-- Calling a function reads what the function holds. -/
theorem invoke_function (m : Machine) (fuel ref : Nat) (args : List Value) (keywords : List Entry)
    (w : World) :
    m.invoke (fuel + 1) (.function ref) args keywords w =
      (some <$> m.callFunction (m.surroundings fuel) ⟨w.store.closure ref, args, keywords⟩) w :=
  rfl

/-- Calls leave the active frames as they were. -/
theorem keepsSites_invoke (hhosts : m.FaithfulHosts) (fuel : Nat) : (m.invoke fuel).KeepsSites := by
  induction fuel with
  | zero => exact fun _ _ _ => .throw .exhausted
  | succ fuel ih =>
      intro f args keywords
      by_cases hf : ∃ ref, f = .function ref
      · obtain ⟨ref, rfl⟩ := hf
        refine .bind (.of_local (Exec.local_lift (Op.local_closure ref))) fun c => ?_
        have hcall := keepsSites_callFunction m (m.surroundings fuel) ⟨c, args, keywords⟩
        exact hcall.bind fun v => .of_local (local_pure (some v))
      · push Not at hf
        exact (routine_answer hhosts fuel hf args keywords).keepsSites ih

end Machine

end Wordcode
