import Wordcode.Proofs.Events
import Wordcode.Proofs.Isolation
import Mathlib

namespace Wordcode

/-! # Finality

A failure ends the run in which it arises. Frames, calls and whatever is called without a frame pass
it on, and nothing that a program could see happens any more.

* `Ends` says that something fails in a certain way, `Machine.Bound` that a frame is bound to.
* `Carries` says that one failure has come out of another one, and that the world is still the same.
* `Makes.ends` brings failures from the calls that a composite makes to the composite.
* `Machine.Stacked.endsWith` brings them from an active frame to the run.
* `Machine.Arises` lists the places of a run where failures arise, `Machine.failures_are_final` is
  about all of them.
-/

/-! ## Passing a failure on -/

/-- What ends with a failure about which something holds. -/
def Ends {α : Type} (C : Failure → World → Prop) (r : EStateM.Result Failure World α) : Prop :=
  ∃ e w, r = .error e w ∧ C e w

/-- What fails in one place fails in another one, with the same failure. -/
def Decides {α β : Type} (r : EStateM.Result Failure World α)
    (r' : EStateM.Result Failure World β) : Prop :=
  ∀ e w, r = .error e w → r' = .error e w

/-- What holds of a failure still holds after a relay. -/
def Relayed (C : Failure → World → Prop) : Prop := ∀ g, Relay g → ∀ e w, C e w → C (g e) w

/-- One failure has come out of another one. It may have been given another text and a place, and
what breaks off the run is the same. The world has changed only in which frames are active, in the
log and in whether the machine counts as running. -/
structure Carries (e : Failure) (w : World) (e' : Failure) (w' : World) : Prop where
  isError_eq : e'.isError = e.isError
  breaks : e.isError = false → e' = e
  world_eq : w' = { w with sites := w'.sites, running := w'.running, log := w'.log }

/-- What ends with a failure that has come out of a certain one. -/
abbrev EndsWith {α : Type} (e : Failure) (w : World) (r : EStateM.Result Failure World α) : Prop :=
  Ends (Carries e w) r

section

variable {α β : Type} {e e₁ e₂ : Failure} {w w₀ w₁ w₂ : World} {x : Exec α}
  {C D : Failure → World → Prop} {r : EStateM.Result Failure World α}
  {r' : EStateM.Result Failure World β}

/-- What has failed is passed on further. -/
theorem Ends.pass (h : Ends C r)
    (hpass : ∀ e w, r = .error e w → C e w → ∃ e' w', r' = .error e' w' ∧ D e' w') :
    Ends D r' := by
  obtain ⟨e, w, hr, hC⟩ := h
  exact hpass e w hr hC

/-- A result decides what another one ends with. -/
theorem Ends.same (h : Ends C r) (hdecides : Decides r r') : Ends C r' :=
  h.pass fun e w hr hC => ⟨e, w, hdecides e w hr, hC⟩

/-- Deciding for what decides. -/
theorem Decides.trans {γ : Type} {r'' : EStateM.Result Failure World γ} (h : Decides r r')
    (h' : Decides r' r'') : Decides r r'' :=
  fun e w hr => h' e w (h e w hr)

/-- The first computation decides if it fails. -/
theorem decides_bind_left (x : Exec α) (k : α → Exec β) (w : World) :
    Decides (x w) ((x >>= k) w) :=
  fun _ _ => bind_of_error

/-- The second one decides if the first has succeeded. -/
theorem decides_bind_right {k : α → Exec β} {a : α} (h : x w = .ok a w₁) :
    Decides (k a w₁) ((x >>= k) w) :=
  fun _ _ hr => (bind_of_ok h).trans hr

/-- A failure is final for what follows. -/
theorem Ends.bind (h : Ends C (x w₀)) (k : α → Exec β) : Ends C ((x >>= k) w₀) :=
  h.same (decides_bind_left x k w₀)

/-- A failure carries itself. -/
theorem Carries.refl (e : Failure) (w : World) : Carries e w e w := ⟨rfl, fun _ => rfl, rfl⟩

/-- A failure is carried on. -/
theorem Carries.trans (h : Carries e w e₁ w₁) (h' : Carries e₁ w₁ e₂ w₂) :
    Carries e w e₂ w₂ where
  isError_eq := h'.isError_eq.trans h.isError_eq
  breaks he := (h'.breaks (h.isError_eq.trans he)).trans (h.breaks he)
  world_eq := by rw [h'.world_eq, h.world_eq]

/-- A failure that is recorded still carries what it did. -/
theorem Carries.relayed (e : Failure) (w : World) : Relayed (Carries e w) :=
  fun _ hg e₁ _ h => h.trans ⟨hg.isError_eq e₁, hg.breaks e₁, rfl⟩

theorem EndsWith.of_error (h : r = .error e w) : EndsWith e w r :=
  ⟨e, w, h, .refl e w⟩

end

/-! ## Composites -/

section

variable {P : ∀ {α : Type}, Exec α → Prop} {α : Type} {relays : Prop} {x : Invoke → Exec α}
  {invoke : Invoke} {q : Request} {w : World} {C : Failure → World → Prop}

/-- A composite that makes a request does the same up to there, and it fails if the request does. -/
theorem Composite.breakAt_cases (hx : Composite relays P x) (hC : relays → Relayed C) (q : Request)
    {b : Failure} (hb : b.isError = false) (w : World) :
    x (invoke.breakAt q b) w = x invoke w ∨ x (invoke.breakAt q b) w = .error b q.world ∧
      (Ends C (invoke.result q) → Ends C (x invoke w)) := by
  -- up to the request both do the same; from there its failure goes through all that is around it
  induction hx generalizing w with
  | own => exact Or.inl rfl
  | call f args keywords =>
      unfold Invoke.breakAt
      by_cases hq : (⟨f, args, keywords, w⟩ : Request) = q
      · subst hq
        exact Or.inr ⟨if_pos rfl, id⟩
      · exact Or.inl (if_neg hq)
  | @bind α β x k _ _ ihx ihk =>
      beta_reduce
      rcases ihx w with hsame | ⟨hbroken, hends⟩
      · cases hrun : x invoke w with
        | error e' w' =>
            refine Or.inl ?_
            rw [bind_of_error hrun, bind_of_error (hsame.trans hrun)]
        | ok a w' =>
            rw [bind_of_ok hrun, bind_of_ok (hsame.trans hrun)]
            exact ihk a w'
      · exact Or.inr ⟨bind_of_error hbroken, fun h => (hends h).bind _⟩
  | @relay α x g hrelays _ hg ih =>
      beta_reduce
      rcases ih w with hsame | ⟨hbroken, hends⟩
      · refine Or.inl ?_
        cases hrun : x invoke w with
        | ok a w' => rw [tryCatch_of_ok hrun, tryCatch_of_ok (hsame.trans hrun)]
        | error e' w' => rw [tryCatch_of_error hrun, tryCatch_of_error (hsame.trans hrun)]
      · refine Or.inr ⟨?_, fun h => (hends h).pass fun e₁ w₁ hrun he₁ => ?_⟩
        · rw [tryCatch_of_error hbroken, hg.breaks b hb]
          rfl
        · exact ⟨g e₁, w₁, tryCatch_of_error hrun, hC hrelays g hg e₁ w₁ he₁⟩

/-- A composite fails if a call that it makes does. Without relays, it fails in the same way. -/
theorem Makes.ends (hmakes : Makes x invoke w q) (hx : Composite relays P x)
    (hC : relays → Relayed C) (h : Ends C (invoke.result q)) : Ends C (x invoke w) := by
  by_contra hno
  refine hmakes.not_omits fun b hb => ?_
  exact (hx.breakAt_cases hC q hb w).resolve_right fun ⟨_, hends⟩ => hno (hends h)

end

/-! ## Frames -/

namespace Failure

/-- Recording a failure does not make an error of it. -/
theorem isError_go (e : Failure) (depth : Int) (trace : List Fault.Site) :
    (record.go depth trace e).isError = e.isError := by
  cases e with
  | fault f cause =>
      unfold record.go
      split <;> rfl
  | plain | within | crash | exhausted => rfl

/-- Recording gives an error a place, and nothing else. -/
theorem isError_record (e : Failure) (depth : Int) (trace : List Fault.Site) :
    (e.record depth trace).isError = e.isError := by
  have herror (he : e.isError = true) :
      (if e.fault?.isSome then record.go depth trace e
        else .fault { kind := .runtime, message := e.text, depth, trace } (some e)).isError =
        e.isError := by
    split
    · exact isError_go e depth trace
    · exact he.symm
  cases e with
  | fault | plain | within => exact herror rfl
  | crash | exhausted => rfl

/-- Recording leaves the failure and the rest of the world. -/
theorem carries_record (e : Failure) (depth : Int) (trace sites : List Fault.Site) (w : World) :
    Carries e w (e.record depth trace) { w with sites } where
  isError_eq := isError_record e depth trace
  breaks he := by
    cases e with
    | fault | plain | within => cases he
    | crash | exhausted => rfl
  world_eq := rfl

end Failure

namespace Machine

variable {m : Machine} {s : Surroundings} {fuel : Nat} {e : Failure} {w w₁ w₂ : World}
  {a b : Activation} {as : List Activation} {C D : Failure → World → Prop}

/-- An active frame is bound to fail in a certain way. -/
def Bound (m : Machine) (a : Activation) (C : Failure → World → Prop) : Prop :=
  Ends C (m.runFrom (m.surroundings a.fuel) (a.steps + 1) a.config.offset a.config.frame
    a.config.world)

/-- A frame is bound by what the turn of its loop ends with. -/
theorem Bound.of_turn {i : Instruction} (hi : a.config.instruction? = some i)
    (h : Ends C (m.turn (m.surroundings a.fuel) a.config.frame i a.config.world)) :
    Bound m a C := by
  have hlookup : a.config.frame.code.listing.lookup? a.config.offset = some i := hi
  unfold Bound runFrom
  rw [hlookup]
  exact h.bind _

/-- What is bound to end in one way is bound to end in any wider one. -/
theorem Bound.mono (h : Bound m a C) (hCD : ∀ e w, C e w → D e w) : Bound m a D :=
  h.pass fun e w hrun hC => ⟨e, w, hrun, hCD e w hC⟩

/-- A frame that fails is bound to fail so. -/
theorem Fails.bound (h : Fails m (m.surroundings a.fuel) a.config e w) (hC : C e w) :
    Bound m a C := by
  obtain ⟨n, steps, c, last⟩ := a
  cases h with
  | strayed hnone =>
      have hlookup : c.frame.code.listing.lookup? c.offset = none := hnone
      unfold Bound runFrom
      rw [hlookup]
      exact ⟨_, _, rfl, hC⟩
  | turn hi hturn => exact .of_turn hi ⟨_, _, hturn, hC⟩

/-- Executing the instruction at hand takes one step. -/
theorem Steps.runFrom_eq {c c' : Config} (h : Steps m s c c') (steps : Nat) :
    m.runFrom s (steps + 1) c.offset c.frame c.world =
      m.runFrom s steps c'.offset c'.frame c'.world := by
  have hlookup {i : Instruction} (hi : c.instruction? = some i) :
      c.frame.code.listing.lookup? c.offset = some i := hi
  cases h with
  | next hi hturn =>
      conv_lhs => unfold runFrom
      rw [hlookup hi]
      exact bind_of_ok hturn
  | jump hi hturn =>
      conv_lhs => unfold runFrom
      rw [hlookup hi]
      exact bind_of_ok hturn

/-- A frame that comes to such a point is bound to fail. -/
theorem Steps.bound {c : Config} (h : Steps m (m.surroundings a.fuel) a.config c)
    (hsteps : 0 < a.steps) (hc : Bound m (a.advance c) C) : Bound m a C := by
  unfold Bound
  rw [h.runFrom_eq a.steps]
  have hleft : a.steps - 1 + 1 = a.steps := Nat.sub_add_cancel hsteps
  exact hleft ▸ hc

/-- The failure of a frame is recorded and passed on. -/
theorem Bound.runFrame {n : Nat} {f : Frame} (h : Bound m (.start n f w) C) (hn : 0 < n)
    (hrecord : ∀ e w', C e w' →
      D (e.record (w.sites.length + 1 : Nat) w'.sites) { w' with sites := w.sites }) :
    Ends D (m.runFrame (m.surroundings n) f w) := by
  have hsteps : n - 1 + 1 = n := Nat.sub_add_cancel hn
  have hframe : Ends C (m.runFrom (m.surroundings n) n 0 f (w.enter f.unfetched)) := hsteps ▸ h
  exact hframe.pass fun e w' hrun hC => ⟨_, _, runFrame_of_error hrun, hrecord e w' hC⟩

/-- A failure that a frame ends with comes out of it. -/
theorem Bound.endsWith_runFrame {n : Nat} {f : Frame} (h : Bound m (.start n f w) (Carries e w₁))
    (hn : 0 < n) : EndsWith e w₁ (m.runFrame (m.surroundings n) f w) :=
  h.runFrame hn fun e₂ w₂ hcarries => hcarries.trans (e₂.carries_record _ _ w.sites w₂)

/-! ## Calls -/

/-- A frame that fails makes its call fail. -/
theorem ends_callFunction {c : Call} {f : Frame} (hopen : m.openFrame c w = .ok f w₂)
    (h : Ends C (m.runFrame s f w₂)) : Ends C (m.callFunction s c w) := by
  unfold callFunction
  rw [bind_of_ok hopen]
  exact h.bind _

/-- An instruction is a composite, apart from what it notes and reports first. -/
theorem composite_turn {relays : Prop} (m : Machine) (fuel : Nat) (f : Frame) (i : Instruction)
    (hrelays : i.op.unpacks → relays) :
    Composite relays (Local World.sites) fun invoke =>
      m.reportStep f i >>= fun _ => (Frame.execute ⟨invoke, fuel⟩ i).run f :=
  .bind (.own (local_reportStep m f i)) fun _ =>
    (Composite.execute fuel i hrelays f).mono fun _ hx => hx.local_sites

/-- An instruction fails if a call that it makes does. Unless it unpacks, it fails in the same
way. -/
theorem ends_turn {f : Frame} {i : Instruction} {q : Request}
    (hmakes : Makes (fun invoke => m.turn ⟨invoke, fuel⟩ f i) (m.invoke fuel) w q)
    (hC : i.op.unpacks → Relayed C) (h : Ends C ((m.invoke fuel).result q)) :
    Ends C (m.turn (m.surroundings fuel) f i w) := by
  have hcomposite : Makes (fun invoke =>
      m.reportStep f i >>= fun _ => (Frame.execute ⟨invoke, fuel⟩ i).run f)
      (m.invoke fuel) (w.atSite (f.siteOf i)) q := hmakes
  exact hcomposite.ends (composite_turn m fuel f i id) hC h

section

variable (hhosts : m.ScriptedHosts)
include hhosts

/-- What is called without a frame of its own fails if a call that it makes does. -/
theorem ends_through {n : Nat} {q q' : Request} (hcallee : ∀ ref, q.callee ≠ .function ref)
    (hmakes : Makes (fun invoke => m.answer ⟨invoke, n⟩ q.callee q.args q.keywords)
      (m.invoke n) q.world q')
    (hC : Relayed C) (h : Ends C ((m.invoke n).result q')) :
    Ends C ((m.invoke (n + 1)).result q) := by
  have hanswer := script_answer m n hcallee q.args q.keywords fun host _ =>
    hhosts host.name q.args q.keywords
  exact hmakes.ends hanswer.composite (fun _ => hC) h

/-- A call fails if the frame that it opens is bound to. -/
theorem Enters.ends {n : Nat} {q : Request} (h : Enters m n q b) (hC : Relayed C)
    (hb : Bound m b D)
    (hrecord : ∀ e w', D e w' →
      C (e.record b.depth w'.sites) { w' with sites := b.config.world.sites.tail }) :
    Ends C ((m.invoke n).result q) := by
  induction h with
  | @function n ref args keywords w₀ w₁ f hn hopen =>
      have hcall : Ends C
          (m.callFunction (m.surroundings n) ⟨w₀.store.closure ref, args, keywords⟩ w₀) :=
        ends_callFunction hopen (hb.runFrame hn hrecord)
      unfold Invoke.result
      rw [m.invoke_function]
      exact hcall.bind fun v => pure (some v)
  | through hcallee hmakes _ ih =>
      exact ends_through hhosts hcallee hmakes hC (ih hb hrecord)

/-- A request that enters a frame ends with what the frame ends with. -/
theorem Enters.endsWith {n : Nat} {q : Request} (h : Enters m n q b)
    (hb : Bound m b (Carries e w)) : EndsWith e w ((m.invoke n).result q) :=
  h.ends hhosts (Carries.relayed e w) hb fun e₂ w₂ hcarries =>
    hcarries.trans (e₂.carries_record _ _ _ w₂)

/-- A frame is bound to fail if a call does that it asks for. -/
theorem Asks.bound {n : Nat} {q : Request} (h : Asks m a n q) (hC : Relayed C)
    (hq : Ends C ((m.invoke n).result q)) : Bound m a C := by
  induction h with
  | instruction hi hmakes => exact .of_turn hi (ends_turn hmakes (fun _ => hC) hq)
  | through _ hcallee hmakes ih => exact ih (ends_through hhosts hcallee hmakes hC hq)

/-- A frame that has asked for a call is bound by how the call ends. -/
theorem Asks.bound_carries {n : Nat} {q : Request} (h : Asks m a n q)
    (hq : EndsWith e w ((m.invoke n).result q)) : Bound m a (Carries e w) :=
  h.bound hhosts (Carries.relayed e w) hq

/-- The same for the call of a function that fails, with or without a frame. -/
theorem Asks.bound_of_callFunction {n ref : Nat} {q : Request}
    (h : Asks m a (n + 1) q) (hcallee : q.callee = .function ref)
    (hcall : m.callFunction (m.surroundings n)
      ⟨q.world.store.closure ref, q.args, q.keywords⟩ q.world = .error e w) :
    Bound m a (Carries e w) := by
  obtain ⟨callee, args, keywords, w₀⟩ := q
  cases hcallee
  have hresult : (m.invoke (n + 1)).result ⟨.function ref, args, keywords, w₀⟩ = .error e w :=
    (m.invoke_function n ref args keywords w₀).trans (bind_of_error hcall)
  exact h.bound_carries hhosts (.of_error hresult)

end

/-! ## Runs -/

/-- A main frame that fails makes the run fail. -/
theorem runMain_of_error {code : Loaded}
    (hlog : m.log (.runStarted w.globals.length) w = .ok () w₁)
    (h : m.runFrame (m.surroundings fuel) { code, locals := .globals } w₁ = .error e w₂) :
    ∃ l, m.runMain fuel code w = .error e { w₂ with log := l } := by
  unfold runMain
  by_cases herror : e.isError = true
  · obtain ⟨l, hfailed⟩ := log_eq m (.runFailed e.text) w₂
    refine ⟨l, (bind_of_ok rfl).trans ((bind_of_ok hlog).trans ?_)⟩
    refine bind_of_error ((tryCatch_of_error h).trans ?_)
    rw [if_pos herror]
    exact (bind_of_ok hfailed).trans rfl
  · refine ⟨w₂.log, (bind_of_ok rfl).trans ((bind_of_ok hlog).trans ?_)⟩
    refine bind_of_error ((tryCatch_of_error h).trans ?_)
    rw [if_neg herror]
    rfl

/-- A run fails if the frame of the main code does. -/
theorem ends_run {code : Loaded} (hloads : m.Loads w code w₁)
    (hlog : m.log (.runStarted w₁.globals.length) w₁ = .ok () w₂)
    (h : Ends C (m.runFrame (m.surroundings fuel) { code, locals := .globals } w₂))
    (hleave : ∀ e w' l, C e w' → D e { w' with log := l, running := false, sites := [] }) :
    Ends D (m.run fuel w) := by
  obtain ⟨main, _, hprogram, hrest⟩ := bind_eq_ok hloads
  obtain ⟨_, _, henter, hload⟩ := bind_eq_ok hrest
  refine h.pass fun e₁ w₃ hframe hC => ?_
  obtain ⟨l, hmain⟩ := runMain_of_error hlog hframe
  have hbody := (bind_of_ok hload).trans hmain
  exact ⟨e₁, _, (bind_of_ok hprogram).trans (whileRunning_of_error henter hbody),
    hleave e₁ w₃ l hC⟩

/-- A run fails if a frame is bound to that is active at some point. -/
theorem Stacked.endsWith (hhosts : m.ScriptedHosts) (h : Stacked m fuel w a as)
    (ha : Bound m a (Carries e w₁)) : EndsWith e w₁ (m.run fuel w) := by
  -- whatever is on top of a frame has been called by it
  induction h with
  | main hfuel hloads hlog =>
      exact ends_run hloads hlog (ha.endsWith_runFrame hfuel) fun e₂ w₂ l hcarries =>
        hcarries.trans ⟨rfl, fun _ => rfl, rfl⟩
  | step _ hsteps hstep ih => exact ih (hstep.bound hsteps ha)
  | call _ hi hmakes henters ih =>
      have hq := henters.endsWith hhosts ha
      exact ih (Bound.of_turn hi (ends_turn hmakes (fun _ => Carries.relayed e w₁) hq))

/-- A failure arises in a run from a world: an active frame fails, or something that is called from
an active frame. An observer that refuses to be told about an instruction makes it fail, and one
that refuses to be told about a call or a return makes that fail. -/
inductive Arises (m : Machine) (fuel : Nat) (w : World) : Failure → World → Prop
  | frame {a : Activation} {as : List Activation} {e : Failure} {w₁ : World} :
    Stacked m fuel w a as → Fails m (m.surroundings a.fuel) a.config e w₁ → Arises m fuel w e w₁
  | opening {a : Activation} {as : List Activation} {n ref : Nat} {q : Request} {e : Failure}
      {w₁ : World} :
    Stacked m fuel w a as → Asks m a (n + 1) q → q.callee = .function ref →
    m.openFrame ⟨q.world.store.closure ref, q.args, q.keywords⟩ q.world = .error e w₁ →
    Arises m fuel w e w₁
  | closing {a : Activation} {as : List Activation} {n ref : Nat} {q : Request}
      {f : Frame} {v : Value} {e : Failure} {w₁ w₂ w₃ : World} :
    Stacked m fuel w a as → Asks m a (n + 1) q → q.callee = .function ref →
    m.openFrame ⟨q.world.store.closure ref, q.args, q.keywords⟩ q.world = .ok f w₂ →
    m.runFrame (m.surroundings n) f w₂ = .ok v w₃ →
    m.closeFrame ⟨q.world.store.closure ref, q.args, q.keywords⟩ v w₃ = .error e w₁ →
    Arises m fuel w e w₁
  | callable {a : Activation} {as : List Activation} {n : Nat} {q : Request} {e : Failure}
      {w₁ : World} :
    Stacked m fuel w a as → Asks m a n q → (∀ ref, q.callee ≠ .function ref) →
    (m.invoke n).result q = .error e w₁ → Arises m fuel w e w₁

/-- Wherever a failure arises, the run ends with it. -/
theorem Arises.endsWith (hhosts : m.ScriptedHosts) (h : Arises m fuel w e w₁) :
    EndsWith e w₁ (m.run fuel w) := by
  cases h with
  | frame hstacked hfails => exact hstacked.endsWith hhosts (hfails.bound (.refl _ _))
  | opening hstacked hasks hcallee hopen =>
      exact hstacked.endsWith hhosts
        (hasks.bound_of_callFunction hhosts hcallee (bind_of_error hopen))
  | @closing a as n ref q f v _ _ w₂ w₃ hstacked hasks hcallee hopen hrun hclose =>
      have hcall : m.callFunction (m.surroundings n)
          ⟨q.world.store.closure ref, q.args, q.keywords⟩ q.world = .error e w₁ :=
        (bind_of_ok hopen).trans ((bind_of_ok hrun).trans (bind_of_error hclose))
      exact hstacked.endsWith hhosts (hasks.bound_of_callFunction hhosts hcallee hcall)
  | callable hstacked hasks _ hresult =>
      exact hstacked.endsWith hhosts (hasks.bound_carries hhosts (.of_error hresult))

/-- Failures are final. Wherever one arises in a run, the run ends with it, and from there on the
events, the globals, the printed text and whatever else a program could change stay as they are. No
instruction is executed any more, since an observer of all instructions would be told about it. All
events that an observer has been told about have been accepted, except that the last one of a run
that fails may have been refused. -/
theorem failures_are_final (hhosts : m.ScriptedHosts) (hidle : w.Idle) (fuel : Nat) :
    (∀ e w₁, Arises m fuel w e w₁ →
      ∃ e' w', m.run fuel w = .error e' w' ∧ Carries e w₁ e' w') ∧
      ∀ o, m.observer? = some o →
        (o.config.mode = .all → TellsSteps m fuel w) ∧
        (∀ v w', m.run fuel w = .ok v w' →
          ∃ events, w'.events.toList = w.events.toList ++ events ∧
            o.AcceptsAll w.counts events) ∧
          ∀ e w', m.run fuel w = .error e w' →
            ∃ events, w'.events.toList = w.events.toList ++ events ∧
              o.AcceptsAll w.counts events.dropLast := by
  refine ⟨fun e w₁ harises => harises.endsWith hhosts, fun o hobserver => ?_⟩
  · obtain ⟨hsuccess, hfailure⟩ := told_run hobserver hhosts hidle fuel
    refine ⟨fun hmode => tellsSteps hobserver hmode hhosts hidle fuel, fun v w' hrun => ?_,
      fun e w' hrun => (hfailure e w' hrun).exists_accepted⟩
    obtain ⟨events, htold⟩ := hsuccess v w' hrun
    exact ⟨events, htold.events_eq, htold.accepted⟩

/-- The machine whose callback fails, with an observer that refuses all calls. -/
def haltedCallback : Machine :=
  { failingCallback with
    observer? := some {
      accepts := fun
        | .call .., _ => false
        | _, _ => true } }

/-- The refused call is the last event. -/
theorem run_haltedCallback :
    ∃ f w', haltedCallback.run 12 callbackWorld = .error (.fault f none) w' ∧
      w'.events.back? = some (.call "f" 0 0 2) := by
  refine ⟨?_, ?_, ?_, ?_⟩
  rotate_left 2
  · cbv
    rfl
  · cbv

/-- Nothing happens after the call back has been refused. -/
theorem failures_are_final_callback :
    haltedCallback.ScriptedHosts ∧ callbackWorld.Idle ∧
      ∃ e w₁ e' w', Arises haltedCallback 12 callbackWorld e w₁ ∧
        haltedCallback.run 12 callbackWorld = .error e' w' ∧ Carries e w₁ e' w' ∧
        w'.events.back? = some (.call "f" 0 0 2) := by
  have hhosts : haltedCallback.ScriptedHosts := fun _ args _ => .call (args.headD .none) [] []
  have hidle : callbackWorld.Idle := ⟨rfl, rfl⟩
  -- what a run prepares does not depend on the observer
  obtain ⟨code, w, hloads⟩ : ∃ code w, haltedCallback.Loads callbackWorld code w :=
    loads_failingCallback
  obtain ⟨f, w', hrun, hlast⟩ := run_haltedCallback
  obtain ⟨w₂, w₃, hlog, hframe⟩ := run_error_cases hloads hrun
  obtain ⟨a, as, hstacked, e, w₁, hfails, -⟩ := located_of_runFrame hhosts.faithful hidle
    (Stacked.main · hloads hlog) (callsLocate hhosts.faithful hidle 12) hframe rfl
  have harises : Arises haltedCallback 12 callbackWorld e w₁ := .frame hstacked hfails
  obtain ⟨e', w₄, hrun', hcarries⟩ := (failures_are_final hhosts hidle 12).1 e w₁ harises
  cases hrun.symm.trans hrun'
  exact ⟨hhosts, hidle, e, w₁, _, w', harises, hrun, hcarries, hlast⟩

end Machine

end Wordcode
