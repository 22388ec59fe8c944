import Wordcode.Proofs.Observation
import Mathlib

namespace Wordcode

/-! # Two machines side by side

Two machines that differ only in what they tell an observer, or in how their host callables come to
the same end, run in step: from related worlds they come to related worlds, with the same value or
the same failure. What is related is up to the use; it may speak about the records of the observers
and must leave the rest of the world alone.

* `Couples R` relates two computations, with one rule for each way of putting computations together.
* `Coupling R` says which relations are kept by all that programs do.
* `Machine.Coupled R` relates two machines by what they tell and by their host callables;
  `Machine.Coupled.invoke` and `Machine.Coupled.runMain` bring this to calls and runs.
-/

/-! ## Coupled computations -/

/-- Two computations have ended with the same value or the same failure, in related worlds. -/
inductive EndsAlike (R : World → World → Prop) {α : Type} :
    EStateM.Result Failure World α → EStateM.Result Failure World α → Prop
  | ok {a : α} {w w' : World} : R w w' → EndsAlike R (.ok a w) (.ok a w')
  | error {e : Failure} {w w' : World} : R w w' → EndsAlike R (.error e w) (.error e w')

/-- Two computations that end alike when they start in related worlds. -/
def Couples (R : World → World → Prop) {α : Type} (x y : Exec α) : Prop :=
  ∀ w w', R w w' → EndsAlike R (x w) (y w')

/-- Two ways to call values that end alike. -/
def Invoke.Couples (R : World → World → Prop) (i j : Invoke) : Prop :=
  ∀ f args keywords, Wordcode.Couples R (i f args keywords) (j f args keywords)

namespace Couples

variable {R : World → World → Prop} {α β : Type} {x y : Exec α}

theorem pure (a : α) : Couples R (pure a) (pure a) := fun _ _ h => .ok h

theorem throw (e : Failure) : Couples R (throw e : Exec α) (throw e) := fun _ _ h => .error h

/-- One computation after the other, if what follows is coupled for each value. -/
theorem bind {k k' : α → Exec β} (hx : Couples R x y) (hk : ∀ a, Couples R (k a) (k' a)) :
    Couples R (x >>= k) (y >>= k') := by
  intro w w' h
  have hfirst := hx w w' h
  generalize hrun : x w = r, hrun' : y w' = r' at hfirst
  cases hfirst with
  | ok h₁ =>
      rw [bind_of_ok hrun, bind_of_ok hrun']
      exact hk _ _ _ h₁
  | error h₁ =>
      rw [bind_of_error hrun, bind_of_error hrun']
      exact .error h₁

/-- Handlers of coupled computations, if they are coupled for each failure. -/
theorem handle {g g' : Failure → Exec α} (hx : Couples R x y) (hg : ∀ e, Couples R (g e) (g' e)) :
    Couples R (tryCatch x g) (tryCatch y g') := by
  intro w w' h
  have hfirst := hx w w' h
  generalize hrun : x w = r, hrun' : y w' = r' at hfirst
  cases hfirst with
  | ok h₁ =>
      rw [tryCatch_of_ok hrun, tryCatch_of_ok hrun']
      exact .ok h₁
  | error h₁ =>
      rw [tryCatch_of_error hrun, tryCatch_of_error hrun']
      exact hg _ _ _ h₁

/-- Looking at the state is looking at related worlds. -/
theorem get_bind {k k' : World → Exec α} (hk : ∀ w w', R w w' → Couples R (k w) (k' w')) :
    Couples R (get >>= k) (get >>= k') := fun w w' h => hk w w' h w w' h

end Couples

/-! ## Couplings -/

/-- A world with the records of the observer, and the mark of a running machine, of another one. -/
def World.marked (w u : World) : World :=
  { u with
    events := w.events, counts := w.counts, stepCount := w.stepCount, running := w.running }

/-- A relation of running machines. All that is related is the same but for the records of the
observer, and only these decide whether two worlds are related. -/
structure Coupling (R : World → World → Prop) : Prop where
  alike {w w' : World} : R w w' → w.Alike w'
  running {w w' : World} : R w w' → w.running = true
  marked {w w' : World} : R w w' → ∀ u, R (w.marked u) (w'.marked u)

/-- Marks do not depend on what is recorded. -/
theorem World.Alike.marked_eq {u u' : World} (h : u.Alike u') (w : World) :
    w.marked u = w.marked u' := by
  have hsame : w.marked u.unwatched = w.marked u'.unwatched := congrArg w.marked h
  exact hsame

/-- A change that neither touches the records of the observer and the mark of a running machine nor
looks at the records. -/
structure Discreet (f : World → World) : Prop where
  marked_eq : ∀ w, f w = w.marked (f w)
  blind : ∀ w, (f w).unwatched = (f w.unwatched).unwatched

section

variable {R : World → World → Prop} {α : Type}

/-- A discreet change keeps worlds coupled. -/
theorem Coupling.update (hR : Coupling R) {f : World → World} (hf : Discreet f) {w w' : World}
    (h : R w w') : R (f w) (f w') := by
  have halike : (f w).Alike (f w') := (hR.alike h).update hf.blind
  rw [hf.marked_eq w, hf.marked_eq w', ← halike.marked_eq w']
  exact hR.marked h (f w)

/-- A discreet change is coupled with itself. -/
theorem Coupling.modify (hR : Coupling R) {f : World → World} (hf : Discreet f) :
    Couples R (modify f : Exec PUnit) (modify f) := fun _ _ h => .ok (hR.update hf h)

/-- The records are out of reach for what programs do on their own. -/
theorem Confined.couples {x : Exec α} (hx : Confined x) (hR : Coupling R) : Couples R x x := by
  intro w w' h
  have hwithin (u : World) : R (u.within w) (u.within w') :=
    hR.update (f := u.within) ⟨fun _ => rfl, fun _ => rfl⟩ h
  rw [← (hR.alike h).within_eq]
  cases hrun : x w with
  | ok a w₁ =>
      rw [(hx w w').1 a w₁ hrun, hx.of_ok hrun]
      exact .ok (hwithin w₁)
  | error e w₁ =>
      rw [((hx w w').2 e w₁ hrun).1, hx.of_error hrun]
      exact .error (hwithin w₁)

/-- A script ends alike with calls that do. -/
theorem Script.couples {x : Invoke → Exec α} (hx : Script Confined x) (hR : Coupling R)
    {i j : Invoke} (hcalls : i.Couples R j) : Couples R (x i) (x j) := by
  induction hx with
  | own hown => exact hown.couples hR
  | call f args keywords => exact hcalls f args keywords
  | bind _ _ ihx ihk => exact ihx.bind ihk
  | relay _ _ ih => exact ih.handle fun e => .throw _

end

/-! ## Coupled machines -/

/-- Whether an event is about an instruction. -/
def Event.isStep : Event → Bool
  | step .. => true
  | call .. | leave .. => false

/-- Two observers that want to be told about the same calls and returns, and that keep worlds
related when they are told about one. -/
structure Observer.Coupled (R : World → World → Prop) (o o' : Observer) : Prop where
  calls_eq : o'.config.calls = o.config.calls
  returns_eq : o'.config.returns = o.config.returns
  report (event : Event) : event.isStep = false →
    Couples R (Machine.report o event) (Machine.report o' event)

/-- Two machines for the same code that are coupled in all in which they may differ: in what they
tell an observer about instructions, calls and returns, and in their host callables. -/
structure Machine.Coupled (R : World → World → Prop) (m m' : Machine) : Prop where
  coupling : Coupling R
  main_eq : m'.main? = m.main?
  maxDepth_eq : m'.maxDepth = m.maxDepth
  verbosity_eq : m'.verbosity = m.verbosity
  observers : Option.Rel (Observer.Coupled R) m.observer? m'.observer?
  step (f : Frame) (i : Instruction) : Couples R (m.reportStep f i) (m'.reportStep f i)
  hosts (name : String) (args : List Value) (keywords : List Entry) (i j : Invoke) :
    i.Couples R j → Couples R (m.hosts name i args keywords) (m'.hosts name j args keywords)

namespace Machine

variable {R : World → World → Prop} {m m' : Machine}

/-! ### Records -/

/-- The same machine logs alike. -/
theorem couples_log (hR : Coupling R) (m : Machine) (message : LogMessage) :
    Couples R (m.log message) (m.log message) := by
  unfold log
  extract_lets wanted
  cases wanted with
  | true => exact hR.modify ⟨fun _ => rfl, fun _ => rfl⟩
  | false => exact .pure ()

/-- Code is loaded alike. -/
theorem couples_load (hR : Coupling R) (c : Code) : Couples R (load c) (load c) := by
  unfold load
  refine .get_bind fun w w' h => ?_
  have hloaded : w.loaded = w'.loaded := (hR.alike h).same fun _ => rfl
  rw [hloaded]
  split
  · exact .pure _
  · refine ((confined_prepare c).couples hR).bind fun code => ?_
    exact .bind (hR.modify ⟨fun _ => rfl, fun _ => rfl⟩) fun _ => .pure code

/-- The main code is, too. -/
theorem couples_loadMain (hR : Coupling R) (main : Code) :
    Couples R (loadMain main) (loadMain main) := by
  unfold loadMain
  exact .bind (hR.modify ⟨fun _ => rfl, fun _ => rfl⟩) fun _ => couples_load hR main

namespace Coupled

variable (hm : Coupled R m m')
include hm

theorem log (message : LogMessage) : Couples R (m.log message) (m'.log message) := by
  have hsame : m'.log message = m.log message := by
    unfold Machine.log
    rw [hm.verbosity_eq]
  rw [hsame]
  exact couples_log hm.coupling m message

/-! ### Frames -/

section

variable {i j : Invoke} (hcalls : i.Couples R j) (fuel : Nat)
include hcalls

/-- One turn of the loop. -/
theorem turn (f : Frame) (instruction : Instruction) :
    Couples R (m.turn ⟨i, fuel⟩ f instruction)
      (m'.turn ⟨j, fuel⟩ f instruction) := by
  unfold Machine.turn
  refine .bind (hm.coupling.modify ⟨fun _ => rfl, fun _ => rfl⟩) fun _ => ?_
  refine .bind (hm.step f instruction) fun _ => ?_
  exact (Script.execute fuel instruction f).couples hm.coupling hcalls

/-- The loop of a frame, by induction on its steps. -/
theorem runFrom (steps offset : Nat) (f : Frame) :
    Couples R (m.runFrom ⟨i, fuel⟩ steps offset f)
      (m'.runFrom ⟨j, fuel⟩ steps offset f) := by
  induction steps generalizing offset f with
  | zero => exact .throw .exhausted
  | succ steps ih =>
      unfold Machine.runFrom
      cases f.code.listing.lookup? offset with
      | none => exact .throw _
      | some instruction =>
          refine .bind (hm.turn hcalls fuel f instruction) fun p => ?_
          obtain ⟨flow, f'⟩ := p
          cases flow with
          | next => exact ih _ f'
          | jump target => exact ih target f'
          | leave v => exact .pure _

/-- A whole frame. -/
theorem runFrame (f : Frame) :
    Couples R (m.runFrame ⟨i, fuel⟩ f) (m'.runFrame ⟨j, fuel⟩ f) := by
  have hmodify {f : World → World} (hf : Discreet f) :
      Couples R (modify f : Exec PUnit) (modify f) := hm.coupling.modify hf
  unfold Machine.runFrame
  refine .get_bind fun w w' h => ?_
  have hsites : w.sites = w'.sites := (hm.coupling.alike h).same fun _ => rfl
  rw [hsites]
  refine .bind (hmodify ⟨fun _ => rfl, fun _ => rfl⟩) fun _ => ?_
  -- the frame's sites are put back on both ways out
  refine .bind (.handle (hm.runFrom hcalls fuel fuel 0 f) fun e => ?_) fun p => ?_
  · refine .get_bind fun w₁ w₁' h₁ => ?_
    have hsites₁ : w₁.sites = w₁'.sites := (hm.coupling.alike h₁).same fun _ => rfl
    rw [hsites₁]
    exact .bind (hmodify ⟨fun _ => rfl, fun _ => rfl⟩) fun _ => .throw _
  · obtain ⟨v, left⟩ := p
    have hleave := hmodify (f := fun w => { w with sites := w'.sites })
      ⟨fun _ => rfl, fun _ => rfl⟩
    dsimp only
    split
    · exact .bind (hm.log _) fun _ => hleave.bind fun _ => .pure v
    · exact hleave.bind fun _ => .pure v

end

/-! ### Calls -/

/-- The depth is checked alike, as there are the same active frames. -/
theorem checkDepth (c : Call) : Couples R (m.checkDepth c) (m'.checkDepth c) := by
  -- both machines have the same limit, so one check stands for both
  have hsame : m'.checkDepth c = m.checkDepth c := by
    unfold Machine.checkDepth
    rw [hm.maxDepth_eq]
  rw [hsame]
  unfold Machine.checkDepth
  extract_lets name rest
  have hrest : Couples R (rest ()) (rest ()) := by
    refine .get_bind fun w w' h => ?_
    have hsites : w.sites = w'.sites := (hm.coupling.alike h).same fun _ => rfl
    rw [hsites]
    dsimp only
    split
    · exact .bind ((Exec.confined_raise _ _).couples hm.coupling) fun _ => .pure _
    · exact .pure _
  refine .get_bind fun w w' h => ?_
  have hrunning : w.running = w'.running := (hm.coupling.alike h).same fun _ => rfl
  rw [hrunning]
  split
  · exact .bind ((Exec.confined_typeError _).couples hm.coupling) fun _ => hrest
  · exact hrest

/-- What the observers say to a call is the same. -/
theorem announce (c : Call) (depth : Nat) :
    Couples R (m.announce c depth) (m'.announce c depth) := by
  have hobservers := hm.observers
  unfold Machine.announce
  generalize m.observer? = o?, m'.observer? = o'? at hobservers
  cases hobservers with
  | none => exact hm.log _
  | @some o o' ho =>
      dsimp only
      rw [ho.calls_eq]
      split
      · exact .bind (ho.report _ rfl) fun _ => hm.log _
      · exact hm.log _

theorem openFrame (c : Call) : Couples R (m.openFrame c) (m'.openFrame c) := by
  unfold Machine.openFrame
  refine .bind (hm.checkDepth c) fun depth => .bind (couples_load hm.coupling _) fun code => ?_
  refine .bind ((Exec.confined_lift (Op.local_makeScope c)).couples hm.coupling) fun scope => ?_
  exact .bind (hm.announce c depth) fun _ => .pure _

theorem closeFrame (c : Call) (v : Value) : Couples R (m.closeFrame c v) (m'.closeFrame c v) := by
  have hobservers := hm.observers
  unfold Machine.closeFrame
  refine .get_bind fun w w' h => ?_
  have hsites : w.sites = w'.sites := (hm.coupling.alike h).same fun _ => rfl
  rw [hsites]
  refine .bind (hm.log _) fun _ => ?_
  -- both machines are observed, or neither is
  generalize m.observer? = o?, m'.observer? = o'? at hobservers
  cases hobservers with
  | none => exact .pure ()
  | @some o o' ho =>
      dsimp only
      rw [ho.returns_eq]
      split
      · refine .bind ((Exec.confined_lift (Op.local_repr v)).couples hm.coupling) fun text => ?_
        exact ho.report _ rfl
      · exact .pure ()

/-- Calls end alike. -/
theorem invoke (fuel : Nat) : (m.invoke fuel).Couples R (m'.invoke fuel) := by
  induction fuel with
  | zero => exact fun f args keywords => .throw .exhausted
  | succ fuel ih =>
      intro f args keywords
      unfold Machine.invoke
      by_cases hf : ∃ ref, f = .function ref
      · obtain ⟨ref, rfl⟩ := hf
        refine .bind ((Exec.confined_lift (Op.local_closure ref)).couples hm.coupling) fun c => ?_
        refine .bind ?_ fun v => .pure (some v)
        unfold Machine.callFunction
        refine .bind (hm.openFrame _) fun f => .bind (hm.runFrame ih fuel f) fun v => ?_
        exact .bind (hm.closeFrame _ v) fun _ => .pure v
      · push Not at hf
        by_cases hhost : ∃ h, f = .host h
        · obtain ⟨h, rfl⟩ := hhost
          refine .bind ((confined_checkConvention h keywords).couples hm.coupling) fun _ => ?_
          exact hm.hosts h.name args keywords _ _ ih
        · -- what is neither a function nor a host callable belongs to both machines
          push Not at hhost
          have hsame (s : Surroundings) :
              m'.answer s f args keywords = m.answer s f args keywords := by
            cases f with
            | function ref => exact absurd rfl (hf ref)
            | host h => exact absurd rfl (hhost h)
            | _ => rfl
          rw [hsame]
          have hscript := script_answer m fuel hf args keywords fun h hh => absurd hh (hhost h)
          exact hscript.couples hm.coupling ih

/-! ### Runs -/

/-- The program itself. -/
theorem runMain (fuel : Nat) (code : Loaded) :
    Couples R (m.runMain fuel code) (m'.runMain fuel code) := by
  unfold Machine.runMain
  refine .get_bind fun w w' h => ?_
  have hglobals : w.globals = w'.globals := (hm.coupling.alike h).same fun _ => rfl
  rw [hglobals]
  refine .bind (hm.log _) fun _ => ?_
  refine .bind (.handle (hm.runFrame (hm.invoke fuel) fuel _) fun e => ?_) fun v =>
    .bind (hm.log _) fun _ => .pure v
  split
  · exact .bind (hm.log _) fun _ => .throw e
  · exact .throw e

end Coupled

end Machine

end Wordcode
