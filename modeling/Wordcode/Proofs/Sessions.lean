import Wordcode.Proofs.Coupling
import Mathlib

namespace Wordcode

/-! # Sessions

The embedding program asks a machine to run its main code, and to call values, as often as it
likes. Some of these requests come from its host callables while the machine is running; the machine
refuses them.

* `Operation` is what is asked for, and `Machine.perform` does it.
* `HostScript` is what host callables are made of.
* `Machine.Coupled.perform` compares an operation of two machines that are coupled.
* `Machine.forall₂_session` brings a comparison of operations to whole sessions.
-/

/-! ## Operations -/

/-- What a machine can be asked to do. -/
inductive Operation
  /-- Run the main code. -/
  | run
  | call (f : Value) (args : List Value) (keywords : List Entry)

/-- A world in which an operation has begun. -/
def World.started (w : World) : World := { w with running := true, stepCount := 0 }

/-- A world in which an operation is over. -/
def World.stopped (w : World) : World := { w with running := false, sites := [] }

namespace Machine

variable {m : Machine} {fuel : Nat} {w w' : World} {op : Operation}

def perform (m : Machine) (fuel : Nat) : Operation → Exec Value
  | .run => m.run fuel
  | .call f args keywords => m.call fuel f args keywords

/-- What is to be done while the machine counts as running. There is nothing to run without main
code. -/
def task? (m : Machine) (fuel : Nat) : Operation → Option (Exec Value)
  | .run => m.main?.map fun main => loadMain main >>= m.runMain fuel
  | .call f args keywords => some ((m.surroundings fuel).call f args keywords)

theorem perform_eq_whileRunning {x : Exec Value} (h : m.task? fuel op = some x) :
    m.perform fuel op = whileRunning x := by
  cases op with
  | run =>
      obtain ⟨main, hmain, rfl⟩ := Option.map_eq_some_iff.mp h
      show m.run fuel = _
      unfold run program
      rw [hmain]
      rfl
  | call f args keywords =>
      cases h
      rfl

theorem perform_eq_throw (h : m.task? fuel op = none) :
    m.perform fuel op = throw (.plain "no main code available") := by
  cases op with
  | run =>
      have hmain : m.main? = none := Option.map_eq_none_iff.mp h
      show m.run fuel = _
      unfold run program
      rw [hmain]
      rfl
  | call f args keywords => cases h

/-! ### Operations while the machine is running -/

theorem enter_of_running (h : w.running = true) :
    enter w = .error (.plain "vm is already running") w := by
  unfold enter
  refine (bind_of_ok rfl).trans ?_
  rw [if_pos h]
  rfl

theorem enter_of_stopped (h : w.running = false) : enter w = .ok () w.started := by
  unfold enter
  refine (bind_of_ok rfl).trans ?_
  rw [if_neg (by simp [h])]
  rfl

/-- How a machine that is running refuses an operation. -/
def refusal (m : Machine) : Operation → Failure
  | .run =>
    if m.main?.isSome then .plain "vm is already running" else .plain "no main code available"
  | .call .. => .plain "vm is already running"

/-- Refuses an operation, and does nothing else. -/
def refuse (m : Machine) (op : Operation) : Exec Value := throw (m.refusal op)

/-- A machine that is running refuses every operation, and nothing at all is changed. -/
theorem perform_of_running (m : Machine) (fuel : Nat) (op : Operation) (h : w.running = true) :
    m.perform fuel op w = m.refuse op w := by
  cases htask : m.task? fuel op with
  | some x =>
      have hrefusal : m.refusal op = .plain "vm is already running" := by
        cases op with
        | run =>
            obtain ⟨main, hmain, -⟩ := Option.map_eq_some_iff.mp htask
            simp [refusal, hmain]
        | call f args keywords => rfl
      rw [perform_eq_whileRunning htask, refuse, hrefusal]
      exact bind_of_error (enter_of_running h)
  | none =>
      have hrefusal : m.refusal op = .plain "no main code available" := by
        cases op with
        | run => simp [refusal, Option.map_eq_none_iff.mp htask]
        | call f args keywords => cases htask
      rw [perform_eq_throw htask, refuse, hrefusal]

end Machine

/-! ## Host callables -/

/-- A host callable of a machine that it can ask for operations itself. -/
abbrev HostProgram := (Operation → Exec Value) → HostFunction

/-- What host callables are made of: what they do on their own, failures of any kind, calls, and
operations of the machine, put together with handlers for failures. -/
inductive HostScript (P : ∀ {α : Type}, Exec α → Prop) :
    {α : Type} → ((Operation → Exec Value) → Invoke → Exec α) → Prop
  | own {α : Type} {x : Exec α} : P x → HostScript P fun _ _ => x
  | fail {α : Type} (e : Failure) : HostScript P fun _ _ => (throw e : Exec α)
  | call (f : Value) (args : List Value) (keywords : List Entry) :
    HostScript P fun _ invoke => invoke f args keywords
  | operate (op : Operation) : HostScript P fun again _ => again op
  | bind {α β : Type} {x : (Operation → Exec Value) → Invoke → Exec α}
      {k : α → (Operation → Exec Value) → Invoke → Exec β} :
    HostScript P x → (∀ a, HostScript P (k a)) →
      HostScript P fun again invoke => x again invoke >>= fun a => k a again invoke
  | handle {α : Type} {x : (Operation → Exec Value) → Invoke → Exec α}
      {g : Failure → (Operation → Exec Value) → Invoke → Exec α} :
    HostScript P x → (∀ e, HostScript P (g e)) →
      HostScript P fun again invoke => tryCatch (x again invoke) fun e => g e again invoke

/-- Host programs that are scripts. -/
def HostScripts (P : ∀ {α : Type}, Exec α → Prop) (programs : String → HostProgram) : Prop :=
  ∀ name args keywords, HostScript P fun again invoke => programs name again invoke args keywords

/-- The host callables of a machine ask this machine when they ask for an operation. -/
def Machine.HostedBy (m : Machine) (programs : String → HostProgram) (fuel : Nat) : Prop :=
  ∀ name, m.hosts name = programs name (m.perform fuel)

/-- Host callables end alike if the operations they ask for do. -/
theorem HostScript.couples {P : ∀ {α : Type}, Exec α → Prop} {R : World → World → Prop} {α : Type}
    {x : (Operation → Exec Value) → Invoke → Exec α} (hx : HostScript P x)
    (hown : ∀ {α : Type} (y : Exec α), P y → Couples R y y)
    {again again' : Operation → Exec Value} (hagain : ∀ op, Couples R (again op) (again' op))
    {i j : Invoke} (hcalls : i.Couples R j) : Couples R (x again i) (x again' j) := by
  induction hx with
  | own h => exact hown _ h
  | fail e => exact .throw e
  | call f args keywords => exact hcalls f args keywords
  | operate op => exact hagain op
  | bind _ _ ihx ihk => exact ihx.bind ihk
  | handle _ _ ihx ihg => exact ihx.handle ihg

namespace Machine

variable {R : World → World → Prop} {m m' : Machine} {fuel : Nat} {w w' : World} {op : Operation}

/-! ## Coupled operations -/

/-- Running machines with the same main code refuse the same operations. -/
theorem couples_perform_refuse (hR : Coupling R) {n : Machine} (hn : n.main? = m.main?) (fuel : Nat)
    (op : Operation) : Couples R (n.perform fuel op) (m.refuse op) := by
  intro w w' h
  have hrefusal : n.refusal op = m.refusal op := by
    unfold refusal
    rw [hn]
  rw [perform_of_running n fuel op (hR.running h), refuse, hrefusal]
  exact .error h

theorem couples_perform (hR : Coupling R) (hmain : m'.main? = m.main?) (fuel : Nat)
    (op : Operation) : Couples R (m.perform fuel op) (m'.perform fuel op) := by
  intro w w' h
  have hrunning : w'.running = true := ((hR.alike h).same fun _ => rfl).symm.trans (hR.running h)
  rw [perform_of_running m' fuel op hrunning]
  exact couples_perform_refuse hR hmain.symm fuel op w w' h

/-- How two machines leave the worlds of an operation: untouched if it could not begin, and
otherwise with all that is related while it runs. -/
inductive Left (R : World → World → Prop) (w w' : World) : World → World → Prop
  | untouched : Left R w w' w w'
  | stopped {u u' : World} : w.running = false → R u u' → Left R w w' u.stopped u'.stopped

theorem endsAlike_whileRunning {α : Type} {x y : Exec α} (hxy : Couples R x y)
    (hw : w.running = false) (hw' : w'.running = false) (hstart : R w.started w'.started) :
    EndsAlike (Left R w w') (whileRunning x w) (whileRunning y w') := by
  have hends := hxy _ _ hstart
  generalize hrun : x w.started = r, hrun' : y w'.started = r' at hends
  cases hends with
  | ok hlast =>
      rw [whileRunning_of_ok (enter_of_stopped hw) hrun,
        whileRunning_of_ok (enter_of_stopped hw') hrun']
      exact .ok (.stopped hw hlast)
  | error hlast =>
      rw [whileRunning_of_error (enter_of_stopped hw) hrun,
        whileRunning_of_error (enter_of_stopped hw') hrun']
      exact .error (.stopped hw hlast)

/-- What coupled machines do for an operation is coupled. -/
theorem Coupled.tasks (hm : Coupled R m m') (fuel : Nat) (op : Operation) :
    Option.Rel (Couples R) (m.task? fuel op) (m'.task? fuel op) := by
  cases op with
  | run =>
      unfold task?
      rw [hm.main_eq]
      cases m.main? with
      | none => exact .none
      | some main => exact .some ((couples_loadMain hm.coupling main).bind (hm.runMain fuel))
  | call f args keywords => exact .some ((hm.invoke fuel f args keywords).bind fun v? => .pure _)

/-- The same operation of two coupled machines ends alike. -/
theorem Coupled.perform (hm : Coupled R m m') (hrunning : w'.running = w.running)
    (hstart : w.running = false → R w.started w'.started) (fuel : Nat) (op : Operation) :
    EndsAlike (Left R w w') (m.perform fuel op w) (m'.perform fuel op w') := by
  -- a run in progress refuses every operation, in both sessions
  cases hw : w.running with
  | true =>
      have hrefusal : m'.refusal op = m.refusal op := by
        unfold refusal
        rw [hm.main_eq]
      rw [perform_of_running m fuel op hw, perform_of_running m' fuel op (hrunning.trans hw),
        refuse, refuse, hrefusal]
      exact .error .untouched
  | false =>
      have htasks := hm.tasks fuel op
      generalize htask : m.task? fuel op = x?, htask' : m'.task? fuel op = x'? at htasks
      cases htasks with
      | none =>
          rw [perform_eq_throw htask, perform_eq_throw htask']
          exact .error .untouched
      | some hx =>
          rw [perform_eq_whileRunning htask, perform_eq_whileRunning htask']
          exact endsAlike_whileRunning hx hw (hrunning.trans hw) (hstart hw)

/-! ## Sessions -/

/-- An operation that has been performed: what it has ended with, and between which worlds. -/
structure Episode where
  before : World
  outcome : Except Failure Value
  after : World

/-- The events that were reported. -/
def Episode.events (e : Episode) : List Event := e.after.events.toList.drop e.before.events.size

def episode (m : Machine) (fuel : Nat) (w : World) (op : Operation) : Episode :=
  match m.perform fuel op w with
  | .ok v w' => ⟨w, .ok v, w'⟩
  | .error e w' => ⟨w, .error e, w'⟩

/-- The episodes of one operation after the other. -/
def session (m : Machine) (fuel : Nat) : World → List Operation → List Episode
  | _, [] => []
  | w, op :: ops =>
    let e := m.episode fuel w op
    e :: m.session fuel e.after ops

theorem before_episode (m : Machine) (fuel : Nat) (w : World) (op : Operation) :
    (m.episode fuel w op).before = w := by
  unfold episode
  cases m.perform fuel op w <;> rfl

theorem events_episode {events : List Event}
    (h : (m.episode fuel w op).after.events.toList = w.events.toList ++ events) :
    (m.episode fuel w op).events = events := by
  have hsize : w.events.size = w.events.toList.length := rfl
  rw [Episode.events, before_episode, h, hsize, List.drop_left]

theorem episode_of_endsAlike {S : World → World → Prop}
    (h : EndsAlike S (m.perform fuel op w) (m'.perform fuel op w')) :
    (m'.episode fuel w' op).outcome = (m.episode fuel w op).outcome ∧
      S (m.episode fuel w op).after (m'.episode fuel w' op).after := by
  unfold episode
  generalize m.perform fuel op w = r, m'.perform fuel op w' = r' at h
  cases h with
  | ok h => exact ⟨rfl, h⟩
  | error h => exact ⟨rfl, h⟩

/-- Sessions compare as their operations do, if each of them leaves worlds from which the next one
compares. -/
theorem forall₂_session {S : World → World → Prop} {Q : Episode → Episode → Prop}
    (hstep : ∀ w w' op, S w w' → Q (m.episode fuel w op) (m'.episode fuel w' op) ∧
      S (m.episode fuel w op).after (m'.episode fuel w' op).after)
    (hstart : S w w') (ops : List Operation) :
    List.Forall₂ Q (m.session fuel w ops) (m'.session fuel w' ops) := by
  induction ops generalizing w w' with
  | nil => exact .nil
  | cons op ops ih =>
      obtain ⟨hepisodes, hnext⟩ := hstep w w' op hstart
      exact .cons hepisodes (ih hnext)

end Machine

end Wordcode
