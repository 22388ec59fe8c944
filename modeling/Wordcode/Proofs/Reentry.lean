import Wordcode.Proofs.Sessions
import Mathlib

namespace Wordcode

/-! # Re-entry

A host callable may ask the machine that is calling it to run its main code or to call a value. The
machine refuses, and goes on as if it had not been asked. After each operation that it does perform
it is ready for the next one.

* `Machine.refusing` has host callables whose requests fail at once.
* `Machine.perform_eq_refusing` says that this makes no difference.
* `Machine.exists_hostedBy`: there is a machine for all host programs.
* `Machine.reusable_session` is the result.
-/

/-! ## Operations in progress -/

/-- The same world, seen by two machines that are running. -/
def World.InProgress (w w' : World) : Prop := w' = w ∧ w.running = true

/-- A computation that does not stop the machine. -/
def KeepsRunning {α : Type} (x : Exec α) : Prop :=
  ∀ w, w.running = true → (∀ a w', x w = .ok a w' → w'.running = true) ∧
    ∀ e w', x w = .error e w' → w'.running = true

/-- Worlds in which an operation is in progress are coupled with themselves. -/
theorem World.coupling_inProgress : Coupling World.InProgress where
  alike := by
    rintro _ w ⟨rfl, -⟩
    rfl
  running h := h.2
  marked := by
    rintro _ w ⟨rfl, hrunning⟩ u
    exact ⟨rfl, hrunning⟩

/-- What does not stop the machine is coupled with itself. -/
theorem KeepsRunning.couples {α : Type} {x : Exec α} (hx : KeepsRunning x) :
    Couples World.InProgress x x := by
  rintro _ w ⟨rfl, hrunning⟩
  obtain ⟨hok, herror⟩ := hx w hrunning
  cases hrun : x w with
  | ok a w₁ => exact .ok ⟨rfl, hok a w₁ hrun⟩
  | error e w₁ => exact .error ⟨rfl, herror e w₁ hrun⟩

/-- What programs do on their own does not stop the machine. -/
theorem Confined.keepsRunning {α : Type} {x : Exec α} (hx : Confined x) : KeepsRunning x := by
  intro w hrunning
  have hlocal : Local World.running x := hx.leaves fun _ _ => rfl
  constructor
  · intro a w' hrun
    rw [(hlocal w).1 a w' hrun, hrunning]
  · intro e w' hrun
    rw [((hlocal w).2 e w' hrun).1, hrunning]

namespace Machine

variable {m m' : Machine} {fuel : Nat} {w : World} {programs : String → HostProgram}

theorem couples_report (o : Observer) (event : Event) :
    Couples World.InProgress (report o event) (report o event) := by
  apply KeepsRunning.couples
  intro w hrunning
  -- the observer's answer is about the event, and the run stays in progress
  cases haccepts : o.accepts event (w.counts.add event) with
  | true =>
      rw [report_of_accepts haccepts]
      constructor
      · intro a w' h
        cases h
        exact hrunning
      · intro e w' h
        cases h
  | false =>
      rw [report_of_refuses haccepts]
      constructor
      · intro a w' h
        cases h
      · intro e w' h
        cases h
        exact hrunning

theorem couples_reportStep_self (m : Machine) (f : Frame) (i : Instruction) :
    Couples World.InProgress (m.reportStep f i) (m.reportStep f i) := by
  -- the depth is read off the world, which is the same for both
  have hevent (o : Observer) : Couples World.InProgress (do
      let depth := (← get).sites.length
      report o (.step f.name i.offset i.op i.arg f.stack.length depth)) (do
      let depth := (← get).sites.length
      report o (.step f.name i.offset i.op i.arg f.stack.length depth)) := by
    refine .get_bind fun w w' h => ?_
    rw [h.1]
    exact couples_report o _
  unfold reportStep
  cases m.observer? with
  | none => exact .pure ()
  | some o =>
      dsimp only
      split
      · exact .pure ()
      · exact hevent o
      · refine .get_bind fun w w' h => ?_
        rw [h.1]
        have hcount : Couples World.InProgress
            (modify fun u : World => { u with stepCount := w.stepCount + 1 } : Exec PUnit)
            (modify fun u => { u with stepCount := w.stepCount + 1 }) := by
          rintro _ u ⟨rfl, hrunning⟩
          exact .ok ⟨rfl, hrunning⟩
        refine hcount.bind fun _ => ?_
        split
        · exact hevent o
        · exact .pure ()

/-! ## Machines that refuse -/

/-- The machine with host callables whose requests for operations fail at once. -/
def refusing (m : Machine) (programs : String → HostProgram) : Machine :=
  { m with hosts := fun name => programs name m.refuse }

/-- It is of no consequence whom the host callables ask, as long as they are refused while the
machine is running. -/
theorem coupled_refusing (hscripts : HostScripts KeepsRunning programs)
    {again : Operation → Exec Value} (hhosts : ∀ name, m.hosts name = programs name again)
    (hagain : ∀ op, Couples World.InProgress (again op) (m.refuse op)) :
    Coupled World.InProgress m (m.refusing programs) where
  coupling := World.coupling_inProgress
  main_eq := rfl
  maxDepth_eq := rfl
  verbosity_eq := rfl
  observers := by
    show Option.Rel _ m.observer? m.observer?
    cases m.observer? with
    | none => exact .none
    | some o => exact .some ⟨rfl, rfl, fun event _ => couples_report o event⟩
  step := couples_reportStep_self m
  hosts name args keywords i j hij := by
    rw [hhosts name]
    exact (hscripts name args keywords).couples (fun y hy => hy.couples) hagain hij

/-- Machines that are coupled in every world do the same. -/
theorem Coupled.perform_eq (h : Coupled World.InProgress m m') (fuel : Nat) (op : Operation) :
    m.perform fuel op = m'.perform fuel op := by
  funext w
  have hends : EndsAlike (Left World.InProgress w w) (m.perform fuel op w) (m'.perform fuel op w) :=
    h.perform rfl (fun _ => ⟨rfl, rfl⟩) fuel op
  have hsame {u u' : World} (hleft : Left World.InProgress w w u u') : u = u' := by
    cases hleft with
    | untouched => rfl
    | stopped _ hlast => rw [hlast.1]
  generalize m.perform fuel op w = r, m'.perform fuel op w = r' at hends
  cases hends with
  | ok hleft => rw [hsame hleft]
  | error hleft => rw [hsame hleft]

/-- A machine that host callables ask for operations does as if they were refused at once. -/
theorem perform_eq_refusing (hscripts : HostScripts KeepsRunning programs)
    (hhosts : m.HostedBy programs fuel) (op : Operation) :
    m.perform fuel op = (m.refusing programs).perform fuel op :=
  (coupled_refusing hscripts hhosts
    (couples_perform_refuse World.coupling_inProgress rfl fuel)).perform_eq fuel op

/-- All host programs have a machine that calls them and that they ask for operations. -/
theorem exists_hostedBy (hscripts : HostScripts KeepsRunning programs) (m : Machine) (fuel : Nat) :
    ∃ hosts, HostedBy { m with hosts } programs fuel := by
  -- the callables of this machine ask the one that refuses them, which does the same as itself
  let hosts : String → HostFunction := fun name =>
    programs name ((m.refusing programs).perform fuel)
  have hcoupled : Coupled World.InProgress { m with hosts } (m.refusing programs) :=
    coupled_refusing (m := { m with hosts }) hscripts (fun _ => rfl)
      (couples_perform_refuse World.coupling_inProgress rfl fuel)
  refine ⟨hosts, fun name => ?_⟩
  have hsame : Machine.perform { m with hosts } fuel = (m.refusing programs).perform fuel :=
    funext fun op => hcoupled.perform_eq fuel op
  rw [hsame]

/-! ## Sessions -/

/-- A machine that can be asked for the next operation. The next function that it calls gets the
first frame. -/
structure Reusable (m : Machine) (w : World) : Prop where
  idle : w.Idle
  enters : enter w = .ok () w.started
  depth_eq : ∀ c, m.checkDepth c w.started = .ok 1 w.started

/-- An idle machine can be used again. -/
theorem reusable_of_idle (hmax : 1 ≤ m.maxDepth) (hidle : w.Idle) : m.Reusable w where
  idle := hidle
  enters := enter_of_stopped hidle.running_eq
  depth_eq c := by
    have hsites : w.started.sites = [] := hidle.sites_eq
    refine checkDepth_eq_ok_iff.mpr ⟨rfl, ?_, hmax, rfl⟩
    rw [hsites]
    rfl

/-- An operation leaves the machine idle, whatever becomes of it. -/
theorem idle_episode (m : Machine) (fuel : Nat) (op : Operation) (hidle : w.Idle) :
    (m.episode fuel w op).after.Idle := by
  unfold episode
  cases htask : m.task? fuel op with
  | none =>
      rw [perform_eq_throw htask]
      exact hidle
  | some x =>
      rw [perform_eq_whileRunning htask]
      obtain ⟨hok, herror⟩ := idle_whileRunning x hidle
      cases hrun : whileRunning x w with
      | ok v w' => exact hok v w' hrun
      | error e w' => exact herror e w' hrun

/-- So does each one of a session. -/
theorem idle_of_mem_session (hidle : w.Idle) {ops : List Operation} {e : Episode}
    (h : e ∈ m.session fuel w ops) : e.after.Idle := by
  induction ops generalizing w with
  | nil => cases h
  | cons op ops ih =>
      have hnext := idle_episode m fuel op hidle
      rcases List.mem_cons.mp h with rfl | hrest
      · exact hnext
      · exact ih hnext hrest

/-- Machines that perform operations alike have the same sessions. -/
theorem session_congr (h : ∀ op, m.perform fuel op = m'.perform fuel op) (w : World)
    (ops : List Operation) : m.session fuel w ops = m'.session fuel w ops := by
  induction ops generalizing w with
  | nil => rfl
  | cons op ops ih =>
      have hepisode : m.episode fuel w op = m'.episode fuel w op := by
        unfold episode
        rw [h op]
      simp only [session, hepisode, ih]

/-- A machine is always left reusable, and re-entry is harmless. Its host callables may do whatever
does not stop the machine by force, fail in any way, handle failures, and ask the machine itself to
run or to call. After every operation of a session, however it has ended, the machine is idle and
ready for the next one. While it is running, it refuses every operation with an error and changes
nothing. So the session is the same, in all that it does and leaves, as if the requests of the host
callables had failed with that error without reaching the machine. -/
theorem reusable_session (hmax : 1 ≤ m.maxDepth) (hscripts : HostScripts KeepsRunning programs)
    (hhosts : m.HostedBy programs fuel) (hidle : w.Idle) (ops : List Operation) :
    (∀ e ∈ m.session fuel w ops, m.Reusable e.after) ∧
      (∀ op u, u.running = true → m.perform fuel op u = .error (m.refusal op) u) ∧
      m.session fuel w ops = (m.refusing programs).session fuel w ops := by
  refine ⟨fun e he => ?_, fun op u hrunning => ?_, ?_⟩
  · exact reusable_of_idle hmax (idle_of_mem_session hidle he)
  · exact perform_of_running m fuel op hrunning
  · exact session_congr (perform_eq_refusing hscripts hhosts) w ops

/-- A host callable that asks its machine to run and to call a value, and says whether it has been
refused both times. -/
def askingTwice : String → HostProgram := fun _ again _ _ _ => do
  let refused (op : Operation) : Exec Bool := tryCatch (again op >>= fun _ => pure false) fun _ =>
    pure true
  let first ← refused .run
  let second ← refused (.call (.builtin .list) [] [])
  return some (.bool (first && second))

/-- The host does nothing but make requests and handle what becomes of them. -/
theorem scripts_askingTwice : HostScripts KeepsRunning askingTwice := by
  have hpure {α : Type} (a : α) : KeepsRunning (pure a : Exec α) := (confined_pure a).keepsRunning
  have hrefused (op : Operation) : HostScript KeepsRunning fun again _ =>
      tryCatch (again op >>= fun _ => pure false) fun _ => (pure true : Exec Bool) :=
    .handle (.bind (.operate op) fun _ => .own (hpure false)) fun _ => .own (hpure true)
  intro name args keywords
  exact .bind (hrefused _) fun first => .bind (hrefused _) fun second => .own (hpure _)

/-- A machine that returns what its host callable says. -/
def asking : Machine where
  main? := some { name := "main", names := ["ask"], instructions := [101, 0, 131, 0, 83, 0] }

/-- The world in which it starts. -/
def askingWorld : World where
  builtins := [("ask", .host ⟨"ask", .positional⟩)]

/-- What the session would be if the requests were refused without reaching the machine. -/
theorem session_refusing_asking : ∃ w₁ w₂,
    (asking.refusing askingTwice).session 12 askingWorld [.run, .run] =
      [⟨askingWorld, .ok (.bool true), w₁⟩, ⟨w₁, .ok (.bool true), w₂⟩] := by
  refine ⟨?_, ?_, ?_⟩
  rotate_left 2
  · cbv
    rfl

/-- Both runs return that the machine has refused to run and to call a value in the meantime. -/
theorem reusable_session_asking :
    ∃ m : Machine, 1 ≤ m.maxDepth ∧ HostScripts KeepsRunning askingTwice ∧
      m.HostedBy askingTwice 12 ∧ askingWorld.Idle ∧
      ∃ w₁ w₂, m.session 12 askingWorld [.run, .run] =
        [⟨askingWorld, .ok (.bool true), w₁⟩, ⟨w₁, .ok (.bool true), w₂⟩] ∧ m.Reusable w₂ := by
  obtain ⟨hosts, hhosts⟩ := exists_hostedBy scripts_askingTwice asking 12
  have hmax : 1 ≤ Machine.maxDepth { asking with hosts } := Nat.le_add_left 1 999
  have hidle : askingWorld.Idle := ⟨rfl, rfl⟩
  obtain ⟨hreusable, -, hsame⟩ :=
    reusable_session hmax scripts_askingTwice hhosts hidle [.run, .run]
  obtain ⟨w₁, w₂, hsession⟩ := session_refusing_asking
  have hboth := hsame.trans hsession
  refine ⟨_, hmax, scripts_askingTwice, hhosts, hidle, w₁, w₂, hboth, ?_⟩
  exact hreusable ⟨w₁, .ok (.bool true), w₂⟩ (by rw [hboth]; simp)

end Machine

end Wordcode
