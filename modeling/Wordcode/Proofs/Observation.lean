import Wordcode.Proofs.Activations
import Mathlib

namespace Wordcode

/-! # Observing a run

An observer that accepts every event does not change a run. What is recorded for it is never looked
at except to tell it, so the run is the same as without an observer but for these records.

* `Agrees` says of two computations that they do the same but for the records of observers. There is
  one rule for each way of putting computations together.
* `Script.agrees` is about scripts, `Machine.agrees_invoke` about calls.
* `Machine.agrees_run` is the result.
-/

/-! ## Agreement -/

/-- A world without the records of its observer. -/
def World.unwatched (w : World) : World :=
  { w with events := #[], counts := {}, stepCount := 0 }

/-- Two worlds in which all but the records of observers is the same. -/
def World.Alike (w w' : World) : Prop := w.unwatched = w'.unwatched

/-- Two computations have ended in the same way, with the same value or the same failure. -/
inductive SameOutcome {α : Type} :
    EStateM.Result Failure World α → EStateM.Result Failure World α → Prop
  | ok {a : α} {w w' : World} : w.Alike w' → SameOutcome (.ok a w) (.ok a w')
  | error {e : Failure} {w w' : World} : w.Alike w' → SameOutcome (.error e w) (.error e w')

/-- Two computations that end in the same way in worlds that are alike. -/
def Agrees {α : Type} (x y : Exec α) : Prop := ∀ w w', w.Alike w' → SameOutcome (x w) (y w')

/-- Two ways to call values that do the same. -/
def Invoke.Agrees (i j : Invoke) : Prop :=
  ∀ f args keywords, Wordcode.Agrees (i f args keywords) (j f args keywords)

namespace World

variable {w w' : World}

/-- A change that does not look at the records. -/
theorem Alike.update {f : World → World} (h : w.Alike w')
    (hf : ∀ w, (f w).unwatched = (f w.unwatched).unwatched) : (f w).Alike (f w') := by
  have hsame : f w.unwatched = f w'.unwatched := congrArg f h
  unfold Alike
  rw [hf w, hf w', hsame]

/-- What is not a record is the same. -/
theorem Alike.same {κ : Type} {f : World → κ} (h : w.Alike w') (hf : ∀ w, f w.unwatched = f w) :
    f w = f w' := by
  rw [← hf w, ← hf w']
  exact congrArg f h

/-- A world like another one is the same when put in its place. -/
theorem Alike.within_eq (h : w.Alike w') : w.within w' = w' := by
  have hstore : w.store = w'.store := h.same fun _ => rfl
  have hglobals : w.globals = w'.globals := h.same fun _ => rfl
  have hbuiltins : w.builtins = w'.builtins := h.same fun _ => rfl
  have houtput : w.output = w'.output := h.same fun _ => rfl
  unfold within
  rw [hstore, hglobals, hbuiltins, houtput]

theorem Alike.within (h : w.Alike w') (u : World) : (u.within w).Alike (u.within w') :=
  h.update (f := u.within) fun _ => rfl

end World

namespace Agrees

variable {α β : Type} {x y : Exec α}

/-- A value is given alike. -/
theorem pure (a : α) : Agrees (pure a) (pure a) := fun _ _ h => .ok h

/-- A failure arises alike. -/
theorem throw (e : Failure) : Agrees (throw e : Exec α) (throw e) := fun _ _ h => .error h

/-- One computation after the other, if what follows agrees for each value. -/
theorem bind {k k' : α → Exec β} (hx : Agrees x y) (hk : ∀ a, Agrees (k a) (k' a)) :
    Agrees (x >>= k) (y >>= k') := by
  intro w w' h
  have hfirst := hx w w' h
  -- both go the same way, so what follows is the same or nothing follows
  cases hrun : x w with
  | ok a w₁ =>
      rw [hrun] at hfirst
      generalize hrun' : y w' = r at hfirst
      cases hfirst with
      | ok h₁ =>
          rw [bind_of_ok hrun, bind_of_ok hrun']
          exact hk a _ _ h₁
  | error e w₁ =>
      rw [hrun] at hfirst
      generalize hrun' : y w' = r at hfirst
      cases hfirst with
      | error h₁ =>
          rw [bind_of_error hrun, bind_of_error hrun']
          exact .error h₁

/-- Failures are handled alike, if the handlers agree. -/
theorem handle {g g' : Failure → Exec α} (hx : Agrees x y) (hg : ∀ e, Agrees (g e) (g' e)) :
    Agrees (tryCatch x g) (tryCatch y g') := by
  intro w w' h
  have hfirst := hx w w' h
  cases hrun : x w with
  | ok a w₁ =>
      rw [hrun] at hfirst
      generalize hrun' : y w' = r at hfirst
      cases hfirst with
      | ok h₁ =>
          rw [tryCatch_of_ok hrun, tryCatch_of_ok hrun']
          exact .ok h₁
  | error e w₁ =>
      rw [hrun] at hfirst
      generalize hrun' : y w' = r at hfirst
      cases hfirst with
      | error h₁ =>
          rw [tryCatch_of_error hrun, tryCatch_of_error hrun']
          exact hg e _ _ h₁

/-- Looking at the state is looking at worlds that are alike. -/
theorem get_bind {k k' : World → Exec α} (hk : ∀ w w', w.Alike w' → Agrees (k w) (k' w')) :
    Agrees (get >>= k) (get >>= k') := fun w w' h => hk w w' h w w' h

/-- A change agrees with itself if it does not depend on what is recorded. -/
theorem modify {f : World → World} (hf : ∀ w, (f w).unwatched = (f w.unwatched).unwatched) :
    Agrees (modify f : Exec PUnit) (modify f) := fun _ _ h => .ok (h.update hf)

end Agrees

/-- The records are out of reach. -/
theorem Confined.agrees {α : Type} {x : Exec α} (hx : Confined x) : Agrees x x := by
  intro w w' h
  rw [← h.within_eq]
  cases hrun : x w with
  | ok a w₁ =>
      rw [(hx w w').1 a w₁ hrun, hx.of_ok hrun]
      exact .ok (h.within w₁)
  | error e w₁ =>
      rw [((hx w w').2 e w₁ hrun).1, hx.of_error hrun]
      exact .error (h.within w₁)

/-- A script does the same with calls that do the same. -/
theorem Script.agrees {α : Type} {x : Invoke → Exec α} (hx : Script Confined x) {i j : Invoke}
    (hcalls : i.Agrees j) : Agrees (x i) (x j) := by
  induction hx with
  | own hown => exact hown.agrees
  | call f args keywords => exact hcalls f args keywords
  | bind _ _ ihx ihk => exact ihx.bind ihk
  | relay _ _ ih => exact ih.handle fun e => .throw _

/-! ## The machine -/

namespace Machine

variable {m : Machine}

/-- The machine without its observer. -/
def unobserved (m : Machine) : Machine := { m with observer? := none }

/-- The host callables do not look at the records of the observer: they do the same with calls that
do the same. -/
def ObliviousHosts (m : Machine) : Prop :=
  ∀ name args keywords (i j : Invoke), i.Agrees j →
    Agrees (m.hosts name i args keywords) (m.hosts name j args keywords)

/-! ### Reports -/

/-- Without an observer, the same is logged. -/
theorem agrees_log (m : Machine) (message : LogMessage) :
    Agrees (m.log message) (m.unobserved.log message) := by
  have hsame : m.unobserved.log message = m.log message := rfl
  rw [hsame]
  unfold log
  extract_lets wanted
  cases wanted with
  | true => exact .modify fun _ => rfl
  | false => exact .pure ()

/-- An event that is accepted leaves only its record. -/
theorem agrees_report {o : Observer} (ho : ∀ event counts, o.accepts event counts = true)
    (event : Event) : Agrees (report o event) (pure ()) := by
  intro w w' h
  rw [report_of_accepts (ho _ _)]
  exact .ok h

/-- An observer that accepts every step leaves no trace but its records. -/
theorem agrees_reportStep (hm : m.Consents) (f : Frame) (i : Instruction) :
    Agrees (m.reportStep f i) (m.unobserved.reportStep f i) := by
  have hnone : m.unobserved.reportStep f i = pure () := rfl
  rw [hnone]
  unfold reportStep
  cases hobserver : m.observer? with
  | none => exact .pure ()
  | some o =>
      have hevent : Agrees (do
          let depth := (← get).sites.length
          report o (.step f.name i.offset i.op i.arg f.stack.length depth)) (pure ()) :=
        fun w w' h => agrees_report (hm o hobserver) _ w w' h
      dsimp only
      split
      · exact .pure ()
      · exact hevent
      · -- a sample counts the instruction, which is a record too
        intro w w' h
        refine Eq.mpr (congrArg (SameOutcome · _) ((bind_of_ok rfl).trans (bind_of_ok rfl))) ?_
        split
        · exact hevent _ w' h
        · exact .ok h

/-! ### Frames -/

section

variable {i j : Invoke} (hm : m.Consents) (hcalls : i.Agrees j) (fuel : Nat)
include hm hcalls

/-- One turn of the loop. -/
theorem agrees_turn (f : Frame) (instruction : Instruction) :
    Agrees (m.turn ⟨i, fuel⟩ f instruction)
      (m.unobserved.turn ⟨j, fuel⟩ f instruction) := by
  unfold turn
  refine .bind (.modify fun _ => rfl) fun _ => ?_
  refine .bind (agrees_reportStep hm f instruction) fun _ => ?_
  exact (Script.execute fuel instruction f).agrees hcalls

/-- The loop of a frame, by induction on its steps. -/
theorem agrees_runFrom (steps offset : Nat) (f : Frame) :
    Agrees (m.runFrom ⟨i, fuel⟩ steps offset f)
      (m.unobserved.runFrom ⟨j, fuel⟩ steps offset f) := by
  induction steps generalizing offset f with
  | zero => exact .throw .exhausted
  | succ steps ih =>
      unfold runFrom
      cases f.code.listing.lookup? offset with
      | none => exact .throw _
      | some instruction =>
          refine .bind (agrees_turn hm hcalls fuel f instruction) fun p => ?_
          obtain ⟨flow, f'⟩ := p
          cases flow with
          | next => exact ih _ f'
          | jump target => exact ih target f'
          | leave v => exact .pure _

/-- A whole frame. -/
theorem agrees_runFrame (f : Frame) :
    Agrees (m.runFrame ⟨i, fuel⟩ f)
      (m.unobserved.runFrame ⟨j, fuel⟩ f) := by
  unfold runFrame
  refine .get_bind fun w w' h => ?_
  have hsites : w.sites = w'.sites := h.same fun _ => rfl
  rw [hsites]
  refine .bind (.modify fun _ => rfl) fun _ => ?_
  refine .bind (.handle (agrees_runFrom hm hcalls fuel fuel 0 f) fun e => ?_) fun p => ?_
  · refine .get_bind fun w₁ w₁' h₁ => ?_
    have hsites₁ : w₁.sites = w₁'.sites := h₁.same fun _ => rfl
    rw [hsites₁]
    exact .bind (.modify fun _ => rfl) fun _ => .throw _
  · obtain ⟨v, left⟩ := p
    dsimp only
    split
    · exact .bind (agrees_log m _) fun _ => .bind (.modify fun _ => rfl) fun _ => .pure v
    · exact .bind (.modify fun _ => rfl) fun _ => .pure v

end

/-! ### Calls -/

theorem agrees_load (c : Code) : Agrees (load c) (load c) := by
  unfold load
  refine .get_bind fun w w' h => ?_
  have hloaded : w.loaded = w'.loaded := h.same fun _ => rfl
  rw [hloaded]
  split
  · exact .pure _
  · refine (confined_prepare c).agrees.bind fun code => ?_
    exact .bind (.modify fun _ => rfl) fun _ => .pure code

theorem agrees_checkDepth (m : Machine) (c : Call) :
    Agrees (m.checkDepth c) (m.unobserved.checkDepth c) := by
  have hsame : m.unobserved.checkDepth c = m.checkDepth c := rfl
  rw [hsame]
  unfold checkDepth
  extract_lets name rest
  -- the depth is the number of active frames, and observers do not count
  have hrest : Agrees (rest ()) (rest ()) := by
    refine .get_bind fun w w' h => ?_
    have hsites : w.sites = w'.sites := h.same fun _ => rfl
    rw [hsites]
    dsimp only
    split
    · exact .bind (Exec.confined_raise _ _).agrees fun _ => .pure _
    · exact .pure _
  refine .get_bind fun w w' h => ?_
  have hrunning : w.running = w'.running := h.same fun _ => rfl
  rw [hrunning]
  split
  · exact .bind (Exec.confined_typeError _).agrees fun _ => hrest
  · exact hrest

/-- An observer that accepts every call leaves no trace but its records. -/
theorem agrees_announce (hm : m.Consents) (c : Call) (depth : Nat) :
    Agrees (m.announce c depth) (m.unobserved.announce c depth) := by
  have hnone : m.unobserved.announce c depth = m.unobserved.log _ := rfl
  rw [hnone]
  unfold announce
  cases hobserver : m.observer? with
  | none => exact agrees_log m _
  | some o =>
      dsimp only
      split
      · exact .bind (agrees_report (hm o hobserver) _) fun _ => agrees_log m _
      · exact agrees_log m _

theorem agrees_openFrame (hm : m.Consents) (c : Call) :
    Agrees (m.openFrame c) (m.unobserved.openFrame c) := by
  unfold openFrame
  refine .bind (agrees_checkDepth m c) fun depth => .bind (agrees_load _) fun code => ?_
  refine .bind (Exec.confined_lift (Op.local_makeScope c)).agrees fun scope => ?_
  exact .bind (agrees_announce hm c depth) fun _ => .pure _

theorem agrees_closeFrame (hm : m.Consents) (c : Call) (v : Value) :
    Agrees (m.closeFrame c v) (m.unobserved.closeFrame c v) := by
  unfold closeFrame
  refine .get_bind fun w w' h => ?_
  have hsites : w.sites = w'.sites := h.same fun _ => rfl
  rw [hsites]
  refine .bind (agrees_log m _) fun _ => ?_
  have hnone : m.unobserved.observer? = none := rfl
  rw [hnone]
  cases hobserver : m.observer? with
  | none => exact .pure ()
  | some o =>
      dsimp only
      split
      · -- the value is shown to the observer, which only looks at the store
        intro w₁ w₁' h₁
        have hrepr : (do
            let value ← (Op.repr v : Op String)
            report o (.leave c.function.code.name value (w'.sites.length + 1)) : Exec Unit) w₁ =
            report o (.leave c.function.code.name (w₁.store.repr v) (w'.sites.length + 1)) w₁ :=
          bind_of_ok rfl
        rw [hrepr]
        exact agrees_report (hm o hobserver) _ w₁ w₁' h₁
      · exact .pure ()

/-- Only functions run in frames, which are observed. -/
theorem answer_unobserved (m : Machine) (s : Surroundings) {f : Value}
    (hf : ∀ ref, f ≠ .function ref) (args : List Value) (keywords : List Entry) :
    m.unobserved.answer s f args keywords = m.answer s f args keywords := by
  cases f with
  | function ref => exact absurd rfl (hf ref)
  | _ => rfl

/-- Calls do the same with and without an observer. -/
theorem agrees_invoke (hm : m.Consents) (hhosts : m.ObliviousHosts) (fuel : Nat) :
    (m.invoke fuel).Agrees (m.unobserved.invoke fuel) := by
  -- by induction on the fuel: what is called makes its own calls with less
  induction fuel with
  | zero => exact fun f args keywords => .throw .exhausted
  | succ fuel ih =>
      intro f args keywords
      unfold invoke
      by_cases hf : ∃ ref, f = .function ref
      · obtain ⟨ref, rfl⟩ := hf
        refine .bind (Exec.confined_lift (Op.local_closure ref)).agrees fun c => ?_
        refine .bind ?_ fun v => .pure (some v)
        unfold callFunction
        refine .bind (agrees_openFrame hm _) fun f => ?_
        refine .bind (agrees_runFrame hm ih fuel f) fun v => ?_
        exact .bind (agrees_closeFrame hm _ v) fun _ => .pure v
      · push Not at hf
        rw [answer_unobserved m _ hf]
        by_cases hhost : ∃ h, f = .host h
        · obtain ⟨h, rfl⟩ := hhost
          refine .bind (confined_checkConvention h keywords).agrees fun _ => ?_
          exact hhosts h.name args keywords _ _ ih
        · -- what is neither a function nor a host callable belongs to both machines
          push Not at hhost
          have hscript := script_answer m fuel hf args keywords fun h hh => absurd hh (hhost h)
          exact hscript.agrees ih

/-! ### Runs -/

theorem agrees_enter : Agrees enter enter := by
  unfold enter
  refine .get_bind fun w w' h => ?_
  have hrunning : w.running = w'.running := h.same fun _ => rfl
  rw [hrunning]
  split
  · exact .bind (.throw _) fun _ => .modify fun _ => rfl
  · exact .modify fun _ => rfl

/-- The mark of a running program is set and taken back alike. -/
theorem agrees_whileRunning {α : Type} {x y : Exec α} (h : Agrees x y) :
    Agrees (whileRunning x) (whileRunning y) := by
  have hleave : Agrees leave leave := .modify fun _ => rfl
  unfold whileRunning
  refine .bind agrees_enter fun _ => ?_
  refine .bind (h.handle fun e => .bind hleave fun _ => .throw e) fun a => ?_
  exact .bind hleave fun _ => .pure a

/-- The program itself. -/
theorem agrees_runMain (hm : m.Consents) (hhosts : m.ObliviousHosts) (fuel : Nat) (code : Loaded) :
    Agrees (m.runMain fuel code) (m.unobserved.runMain fuel code) := by
  unfold runMain
  refine .get_bind fun w w' h => ?_
  have hglobals : w.globals = w'.globals := h.same fun _ => rfl
  rw [hglobals]
  refine .bind (agrees_log m _) fun _ => ?_
  refine .bind (.handle (agrees_runFrame hm (agrees_invoke hm hhosts fuel) fuel _) fun e => ?_)
    fun v => .bind (agrees_log m _) fun _ => .pure v
  split
  · exact .bind (agrees_log m _) fun _ => .throw e
  · exact .throw e

/-- Observing a run does not change it. Whatever an observer that accepts every event wants to be
told about, a run ends with the same value or the same failure as without it, and it leaves the same
world but for the records of the observer: the same globals, the same printed text and all else. -/
theorem agrees_run (hm : m.Consents) (hhosts : m.ObliviousHosts) (fuel : Nat) :
    Agrees (m.run fuel) (m.unobserved.run fuel) := by
  have hprogram : Agrees m.program m.unobserved.program := by
    unfold program
    dsimp only [unobserved]
    split
    · exact .pure _
    · exact .throw _
  have hload (main : Code) : Agrees (loadMain main) (loadMain main) := by
    unfold loadMain
    exact .bind (.modify fun _ => rfl) fun _ => agrees_load main
  unfold run
  refine .bind hprogram fun main => agrees_whileRunning ?_
  exact .bind (hload main) fun code => agrees_runMain hm hhosts fuel code

/-- The machine whose callback fails, with an observer that is told about every third instruction
and about all calls. -/
def sampledCallback : Machine :=
  { failingCallback with observer? := some { config := { mode := .sampled, interval := 3 } } }

/-- The callback fails in the same place although it is observed. -/
theorem agrees_run_sampled :
    sampledCallback.Consents ∧ sampledCallback.ObliviousHosts ∧
      ∃ f w, sampledCallback.run 12 callbackWorld = .error (.fault f none) w ∧
        f.trace = [⟨"f", "", 0, "POP_TOP"⟩, ⟨"main", "", 14, "CALL_FUNCTION"⟩] := by
  have hm : sampledCallback.Consents := by
    intro o ho event counts
    cases ho
    rfl
  have hhosts : sampledCallback.ObliviousHosts := by
    intro name args keywords i j hij
    exact hij (args.headD .none) [] []
  refine ⟨hm, hhosts, ?_⟩
  obtain ⟨f, w', hrun, htrace⟩ := run_failingCallback
  -- the unobserved run fails, so the observed one does
  have hsame := agrees_run hm hhosts 12 callbackWorld callbackWorld rfl
  have hunobserved : sampledCallback.unobserved.run 12 callbackWorld =
      .error (.fault f none) w' := hrun
  rw [hunobserved] at hsame
  generalize hobserved : sampledCallback.run 12 callbackWorld = r at hsame
  cases hsame with
  | error => exact ⟨f, _, rfl, htrace⟩

end Machine

end Wordcode
