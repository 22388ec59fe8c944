import Wordcode.Proofs.Calls
import Mathlib

namespace Wordcode

/-! # Activations

The frames that are active at some point of a run form a stack: the frame of the main code at the
bottom, and on top of each frame the one that was opened by the call it is making. Such a call may
go through iterators, methods, builtins and host callables first.

* `Machine.Stacked` defines the stacks that occur in a run.
* `Machine.Stacked.nested` says how deep the frames are.
* `Machine.Locates` says what a fault tells about the stack in which it has occurred.
* `Machine.depths_and_traces` puts these together for runs.
-/

/-! ## Recording -/

namespace Failure

/-- Recording fills in the trace of a fault that has none. -/
theorem fault?_go {e : Failure} {f : Fault} {depth : Int} {trace : List Fault.Site}
    (h : e.fault? = some f) :
    (record.go depth trace e).fault? =
      some (if f.trace.isEmpty then { f with depth, trace } else f) := by
  fun_induction Failure.fault? e with
  | case1 g cause =>
      cases h
      unfold record.go
      split <;> rfl
  | case2 label inner ih => exact ih h
  | case3 => cases h

/-- A fault is always recorded. -/
theorem record_of_fault {e : Failure} {f : Fault} (h : e.fault? = some f) (depth : Int)
    (trace : List Fault.Site) : e.record depth trace = record.go depth trace e := by
  unfold record
  split
  · rfl
  · rfl
  · rw [if_pos (by rw [h]; rfl)]

/-- A failure without a trace is given one. -/
theorem fault?_record_of_untraced {e : Failure} (h : e.Untraced) (herror : e.isError = true)
    (depth : Int) (trace : List Fault.Site) :
    ∃ f, (e.record depth trace).fault? = some f ∧ f.depth = depth ∧ f.trace = trace := by
  cases hf : e.fault? with
  | some f =>
      rw [record_of_fault hf, fault?_go hf, h f hf]
      exact ⟨{ f with depth, trace }, rfl, rfl, rfl⟩
  | none =>
      cases e with
      | fault f cause => cases hf
      | plain | within =>
          unfold record
          rw [if_neg (by simp [hf])]
          exact ⟨_, rfl, rfl, rfl⟩
      | crash | exhausted => cases herror

/-- A failure that has a trace keeps it. -/
theorem fault?_record_of_traced {e : Failure} {f : Fault} (h : e.fault? = some f)
    (htrace : f.trace ≠ []) (depth : Int) (trace : List Fault.Site) :
    (e.record depth trace).fault? = some f := by
  rw [record_of_fault h, fault?_go h, if_neg (by simpa using htrace)]

/-- An error that has been recorded has a fault. -/
theorem fault?_record {e : Failure} {depth : Int} {trace : List Fault.Site}
    (h : (e.record depth trace).isError = true) : ∃ f, (e.record depth trace).fault? = some f := by
  by_cases huntraced : e.Untraced
  · have herror : e.isError = true := by
      cases e with
      | crash | exhausted => cases h
      | fault | plain | within => rfl
    obtain ⟨f, hf, -, -⟩ := fault?_record_of_untraced huntraced herror depth trace
    exact ⟨f, hf⟩
  · obtain ⟨f, hf, htrace⟩ : ∃ f, e.fault? = some f ∧ f.trace ≠ [] := by
      simpa [Untraced] using huntraced
    exact ⟨f, fault?_record_of_traced hf htrace depth trace⟩

end Failure

/-! ## The active frames -/

/-- A frame that is running. -/
structure Activation where
  /-- What bounds the calls that the frame makes. -/
  fuel : Nat
  /-- How many instructions the frame may execute after the one at hand. -/
  steps : Nat
  config : Config
  /-- What the frame has fetched last. -/
  last : Fault.Site

namespace Activation

/-- A frame that has just been put on top of the active ones. -/
def start (fuel : Nat) (f : Frame) (w : World) : Activation :=
  ⟨fuel, fuel - 1, ⟨0, f, w.enter f.unfetched⟩, f.unfetched⟩

/-- The frame after it has fetched the instruction at hand, if there is one. -/
def fetch (a : Activation) : Activation :=
  { a with last := (a.config.instruction?.map a.config.frame.siteOf).getD a.last }

/-- The frame after it has executed the instruction at hand. -/
def advance (a : Activation) (c : Config) : Activation := ⟨a.fuel, a.steps - 1, c, a.fetch.last⟩

/-- The depth that the machine computes for the frame: the number of frames up to this one. -/
def depth (a : Activation) : Nat := a.config.world.sites.length

/-- A frame that has fetched an instruction stands there. -/
theorem last_fetch {a : Activation} {i : Instruction} (h : a.config.instruction? = some i) :
    a.fetch.last = a.config.frame.siteOf i := by
  simp [fetch, h]

@[simp]
theorem depth_fetch (a : Activation) : a.fetch.depth = a.depth := rfl

end Activation

/-- A machine that is not running, as it is before and after each run. -/
structure World.Idle (w : World) : Prop where
  running_eq : w.running = false
  sites_eq : w.sites = []

namespace Machine

variable {m : Machine} {fuel : Nat} {w : World} {a b : Activation} {as : List Activation}

/-- A call that is asked for opens a frame. It does so at once if a function is called. Otherwise
what is called makes a call that opens the frame. -/
inductive Enters (m : Machine) : Nat → Request → Activation → Prop
  | function {fuel ref : Nat} {args : List Value} {keywords : List Entry} {w w' : World}
      {f : Frame} :
    0 < fuel → m.openFrame ⟨w.store.closure ref, args, keywords⟩ w = .ok f w' →
    Enters m (fuel + 1) ⟨.function ref, args, keywords, w⟩ (.start fuel f w')
  | through {fuel : Nat} {q q' : Request} {b : Activation} :
    (∀ ref, q.callee ≠ .function ref) →
    Makes (fun invoke => m.answer ⟨invoke, fuel⟩ q.callee q.args q.keywords)
      (m.invoke fuel) q.world q' →
    Enters m fuel q' b → Enters m (fuel + 1) q b

/-- A run from a world prepares the main code. -/
def Loads (m : Machine) (w : World) (code : Loaded) (w' : World) : Prop :=
  (do
    let main ← m.program
    enter
    loadMain main : Exec Loaded) w = .ok code w'

/-- A frame is active in a run from a world, on top of its callers, which are listed from the
innermost one outwards. It may still execute the instruction at hand. -/
inductive Stacked (m : Machine) (fuel : Nat) (w : World) : Activation → List Activation → Prop
  | main {code : Loaded} {w₁ w₂ : World} :
    0 < fuel → m.Loads w code w₁ → m.log (.runStarted w₁.globals.length) w₁ = .ok () w₂ →
    Stacked m fuel w (.start fuel { code, locals := .globals } w₂) []
  | step {a : Activation} {as : List Activation} {c : Config} :
    Stacked m fuel w a as → 0 < a.steps → Steps m (m.surroundings a.fuel) a.config c →
    Stacked m fuel w (a.advance c) as
  | call {a b : Activation} {as : List Activation} {i : Instruction} {q : Request} :
    Stacked m fuel w a as → a.config.instruction? = some i →
    Makes (fun invoke => m.turn ⟨invoke, a.fuel⟩ a.config.frame i)
      (m.invoke a.fuel) a.config.world q →
    Enters m a.fuel q b → Stacked m fuel w b (a.fetch :: as)

/-! ## Sites -/

/-- An instruction is noted before anything else happens. -/
theorem turn_eq (m : Machine) (s : Surroundings) (f : Frame) (i : Instruction) (w : World) :
    m.turn s f i w =
      (m.reportStep f i >>= fun _ => (Frame.execute s i).run f) (w.atSite (f.siteOf i)) :=
  rfl

/-- A turn reports its step and executes the instruction. -/
theorem routine_turn (m : Machine) (fuel : Nat) (f : Frame) (i : Instruction) :
    Routine (fun _ => False) fun invoke =>
      m.reportStep f i >>= fun _ => (Frame.execute ⟨invoke, fuel⟩ i).run f :=
  .bind (.own (local_reportStep m f i)) fun _ => (Script.execute fuel i f).routine

section

variable (hhosts : m.FaithfulHosts)
include hhosts

/-- Executing an instruction replaces the site of the frame. -/
theorem sites_of_turn {f : Frame} {i : Instruction} {p : Flow × Frame} {w' : World}
    (h : m.turn (m.surroundings fuel) f i w = .ok p w') :
    w'.sites = f.siteOf i :: w.sites.tail := by
  rw [turn_eq] at h
  exact ((routine_turn m fuel f i).keepsSites (keepsSites_invoke hhosts fuel) _).1 p w' h

/-- A turn that fails leaves the site of its instruction. -/
theorem sites_of_turn_error {f : Frame} {i : Instruction} {e : Failure} {w' : World}
    (h : m.turn (m.surroundings fuel) f i w = .error e w') :
    w'.sites = f.siteOf i :: w.sites.tail := by
  rw [turn_eq] at h
  exact ((routine_turn m fuel f i).keepsSites (keepsSites_invoke hhosts fuel) _).2 e w' h

/-- The same holds while the instruction makes a call. -/
theorem sites_of_makes {f : Frame} {i : Instruction} {q : Request}
    (h : Makes (fun invoke => m.turn ⟨invoke, fuel⟩ f i) (m.invoke fuel) w q) :
    q.world.sites = f.siteOf i :: w.sites.tail := by
  have hmakes : Makes (fun invoke =>
      m.reportStep f i >>= fun _ => (Frame.execute ⟨invoke, fuel⟩ i).run f)
      (m.invoke fuel) (w.atSite (f.siteOf i)) q := h
  exact hmakes.sites_eq (routine_turn m fuel f i) (keepsSites_invoke hhosts fuel)

/-- A call opens its frame on top of the active ones, and only where there is room for it. -/
theorem Enters.sites {q : Request} (h : Enters m fuel q b) :
    b.config.world.sites = b.last :: q.world.sites ∧ q.world.sites.length + 1 ≤ m.maxDepth := by
  induction h with
  | function _ hopen =>
      obtain ⟨hroom, hsame⟩ := openFrame_cases hopen
      exact ⟨congrArg _ hsame, hroom⟩
  | @through n q q' b hcallee hmakes _ ih =>
      have hroutine := routine_answer hhosts n hcallee q.args q.keywords
      have hsame := hmakes.sites_eq hroutine (keepsSites_invoke hhosts n)
      rwa [hsame] at ih

end

/-! ## Depths -/

/-- Before the program runs there are no active frames. -/
theorem sites_of_loads {code : Loaded} {w' : World} (h : m.Loads w code w') (hidle : w.Idle) :
    w'.sites = [] := by
  have hlocal : Local World.sites (do
      let main ← m.program
      enter
      loadMain main : Exec Loaded) :=
    (local_program m).bind fun main => local_enter.bind fun _ => local_loadMain main
  exact ((hlocal w).1 code w' h).trans hidle.sites_eq

/-- The machine knows the active frames by what they have fetched last. -/
theorem Stacked.sites (hhosts : m.FaithfulHosts) (hidle : w.Idle) (h : Stacked m fuel w a as) :
    a.config.world.sites = a.last :: as.map (·.last) := by
  -- a step replaces the innermost site, and a call does so before it puts a new one on top
  induction h with
  | main _ hloads hlog =>
      obtain ⟨w₂, hlog', hsame⟩ := log_cases m _ _
      cases hlog'.symm.trans hlog
      have hempty := hsame.trans (sites_of_loads hloads hidle)
      exact congrArg (_ :: ·) hempty
  | step _ _ hstep ih =>
      cases hstep with
      | next hi hturn =>
          refine (sites_of_turn hhosts hturn).trans ?_
          rw [ih, Activation.advance, Activation.last_fetch hi]
          rfl
      | jump hi hturn =>
          refine (sites_of_turn hhosts hturn).trans ?_
          rw [ih, Activation.advance, Activation.last_fetch hi]
          rfl
  | call _ hi hmakes henters ih =>
      rw [(henters.sites hhosts).1, sites_of_makes hhosts hmakes, ih, List.map_cons,
        Activation.last_fetch hi]
      rfl

/-- The depths of active frames, listed from the innermost one outwards, count down to 1 and keep to
the limit. -/
structure Nested (m : Machine) (frames : List Activation) : Prop where
  /-- The frame of the main code has depth 1. -/
  main_depth : frames.getLast?.map Activation.depth = some 1
  /-- Every other frame is one deeper than its caller. -/
  caller_depth : frames.IsChain fun a b => a.depth = b.depth + 1
  depth_bounds : ∀ a ∈ frames, 1 ≤ a.depth ∧ a.depth ≤ m.maxDepth

/-- Only depths matter for this. -/
theorem Nested.congr (h : Nested m (a :: as)) (hdepth : b.depth = a.depth) :
    Nested m (b :: as) := by
  constructor
  · cases as with
    | nil => simpa [hdepth] using h.main_depth
    | cons c cs => simpa using h.main_depth
  · cases as with
    | nil => exact .singleton b
    | cons c cs =>
        obtain ⟨hac, hcs⟩ := List.isChain_cons_cons.mp h.caller_depth
        exact List.isChain_cons_cons.mpr ⟨hdepth.trans hac, hcs⟩
  · intro c hc
    rcases List.mem_cons.mp hc with rfl | hc
    · rw [hdepth]
      exact h.depth_bounds a List.mem_cons_self
    · exact h.depth_bounds c (List.mem_cons_of_mem a hc)

/-- A new frame is one deeper than the frame that makes the call. -/
theorem Nested.push (h : Nested m (a :: as)) (hdepth : b.depth = a.depth + 1)
    (hroom : b.depth ≤ m.maxDepth) : Nested m (b :: a :: as) := by
  constructor
  · simpa using h.main_depth
  · exact .cons_cons hdepth h.caller_depth
  · intro c hc
    rcases List.mem_cons.mp hc with rfl | hc
    · exact ⟨by omega, hroom⟩
    · exact h.depth_bounds c hc

/-- The depth of a frame is the number of frames up to it. -/
theorem Stacked.depth_eq (hhosts : m.FaithfulHosts) (hidle : w.Idle)
    (h : Stacked m fuel w a as) : a.depth = as.length + 1 := by
  rw [Activation.depth, h.sites hhosts hidle, List.length_cons, List.length_map]

/-- The active frames of a run are nested. -/
theorem Stacked.nested (hmax : 1 ≤ m.maxDepth) (hhosts : m.FaithfulHosts) (hidle : w.Idle)
    (h : Stacked m fuel w a as) : Nested m (a :: as) := by
  -- by induction on how the frames have come up: a step leaves the depth, and a call adds one
  induction h with
  | main hfuel hloads hlog =>
      have hdepth := (Stacked.main hfuel hloads hlog : Stacked m fuel w _ []).depth_eq hhosts hidle
      constructor
      · exact congrArg some hdepth
      · exact .singleton _
      · intro b hb
        rw [List.mem_singleton.mp hb, hdepth]
        exact ⟨le_refl 1, hmax⟩
  | step hstacked hsteps hstep ih =>
      have hbefore := hstacked.depth_eq hhosts hidle
      have hafter := (hstacked.step hsteps hstep).depth_eq hhosts hidle
      exact ih.congr (hafter.trans hbefore.symm)
  | @call a b as i q hstacked hi hmakes henters ih =>
      have hcaller := hstacked.depth_eq hhosts hidle
      have hcallee := (hstacked.call hi hmakes henters).depth_eq hhosts hidle
      obtain ⟨hsites, hroom⟩ := henters.sites hhosts
      have hfetched : Nested m (a.fetch :: as) := ih.congr a.depth_fetch
      refine hfetched.push ?_ ?_
      · rw [hcallee, List.length_cons, a.depth_fetch, hcaller]
      · rwa [Activation.depth, hsites]

/-- The frame is executing an instruction that makes a call. -/
def InCall (m : Machine) (a : Activation) : Prop :=
  ∃ i q, a.config.instruction? = some i ∧ a.last = a.config.frame.siteOf i ∧
    Makes (fun invoke => m.turn ⟨invoke, a.fuel⟩ a.config.frame i) (m.invoke a.fuel)
      a.config.world q

/-- All frames below the innermost one wait for a call. -/
theorem Stacked.inCall (h : Stacked m fuel w a as) : ∀ b ∈ as, InCall m b := by
  induction h with
  | main => simp
  | step _ _ _ ih => exact ih
  | @call a b as i q _ hi hmakes _ ih =>
      intro c hc
      rcases List.mem_cons.mp hc with rfl | hc
      · exact ⟨i, q, hi, Activation.last_fetch hi, hmakes⟩
      · exact ih c hc

/-! ## Traces -/

/-- A fault tells where it has occurred: the frame fails, with a failure that has no trace yet, and
that is recorded with the depth of the frame and with what it and its callers have fetched last. -/
def Locates (m : Machine) (f : Fault) (a : Activation) (as : List Activation) : Prop :=
  ∃ e w, Fails m (m.surroundings a.fuel) a.config e w ∧ e.Untraced ∧
    f.trace = (a.fetch :: as).map (·.last) ∧ f.depth = a.depth ∧
    (e.record f.depth f.trace).fault? = some f

/-- A frame that is active stays so while it runs. -/
theorem Stacked.after {n : Nat} {c : Config} (h : Stacked m fuel w a as) (hn : n ≤ a.steps)
    (hafter : after m (m.surroundings a.fuel) n a.config = some c) :
    ∃ last, Stacked m fuel w ⟨a.fuel, a.steps - n, c, last⟩ as := by
  induction n generalizing a with
  | zero =>
      cases hafter
      exact ⟨a.last, h⟩
  | succ n ih =>
      obtain ⟨c₁, hstep, hrest⟩ := Option.bind_eq_some_iff.mp hafter
      have hnext := h.step (by omega) (steps_iff_step?_eq.mpr hstep)
      obtain ⟨last, hstacked⟩ := ih hnext (Nat.le_sub_one_of_lt hn) hrest
      have hsteps : a.steps - 1 - n = a.steps - (n + 1) := by omega
      exact ⟨last, hsteps ▸ hstacked⟩

/-- A frame that fails does so at some point that it reaches while it is active. -/
theorem Stacked.exists_fails {e : Failure} {w' : World} (h : Stacked m fuel w a as)
    (hrun : m.runFrom (m.surroundings a.fuel) (a.steps + 1) a.config.offset a.config.frame
      a.config.world = .error e w') :
    e = .exhausted ∨ ∃ n c last, Stacked m fuel w ⟨a.fuel, n, c, last⟩ as ∧
      Fails m (m.surroundings a.fuel) c e w' := by
  refine (runFrom_error_cases (a.steps + 1) hrun).imp id ?_
  rintro ⟨n, c, hn, hafter, hfails⟩
  obtain ⟨last, hstacked⟩ := h.after (Nat.le_of_lt_succ hn) hafter
  exact ⟨_, c, last, hstacked, hfails⟩

section

variable (hhosts : m.FaithfulHosts) (hidle : w.Idle)
include hhosts hidle

/-- When a frame fails, the machine is where the trace says. -/
theorem Stacked.sites_of_fails {e : Failure} {w' : World} (h : Stacked m fuel w a as)
    (hfails : Fails m (m.surroundings a.fuel) a.config e w') :
    w'.sites = (a.fetch :: as).map (·.last) := by
  have hsites := h.sites hhosts hidle
  cases hfails with
  | strayed hnone =>
      rw [hsites]
      simp [Activation.fetch, hnone]
  | turn hi hturn =>
      rw [sites_of_turn_error hhosts hturn, hsites, List.map_cons, Activation.last_fetch hi]
      rfl

omit hhosts hidle in
/-- A fault with a trace that comes out of a call has a place in the run, if the frames that the
call opens are active in it. -/
def CallsLocate (m : Machine) (fuel : Nat) (w : World) (n : Nat) : Prop :=
  ∀ q bs e w' f, (∀ b, Enters m n q b → Stacked m fuel w b bs) →
    (m.invoke n).result q = .error e w' → e.fault? = some f → f.trace ≠ [] →
    ∃ a as, Stacked m fuel w a as ∧ Locates m f a as

/-- A frame that fails is where the fault has occurred, unless a call of it has failed. -/
theorem Stacked.located_of_fails {e : Failure} {w' : World} {f : Fault}
    (h : Stacked m fuel w a as) (hcalls : CallsLocate m fuel w a.fuel)
    (hfails : Fails m (m.surroundings a.fuel) a.config e w')
    (hf : (e.record a.depth w'.sites).fault? = some f) :
    ∃ b bs, Stacked m fuel w b bs ∧ Locates m f b bs := by
  by_cases huntraced : e.Untraced
  · -- the failure starts here
    have herror : e.isError = true := by
      cases e with
      | crash | exhausted => cases hf
      | fault | plain | within => rfl
    obtain ⟨f', hf', hdepth, htrace⟩ :=
      Failure.fault?_record_of_untraced huntraced herror a.depth w'.sites
    obtain rfl := Option.some.inj (hf.symm.trans hf')
    refine ⟨a, as, h, e, w', hfails, huntraced, ?_, hdepth, ?_⟩
    · rw [htrace, h.sites_of_fails hhosts hidle hfails]
    · rwa [hdepth, htrace]
  · -- an inner frame has recorded the fault, which the instruction has passed on
    obtain ⟨f₀, hf₀, htrace⟩ : ∃ f₀, e.fault? = some f₀ ∧ f₀.trace ≠ [] := by
      simpa [Failure.Untraced] using huntraced
    have hkept := Failure.fault?_record_of_traced hf₀ htrace a.depth w'.sites
    obtain rfl := Option.some.inj (hf.symm.trans hkept)
    cases hfails with
    | strayed => exact absurd (untraced_strayed _ _) huntraced
    | @turn i _ _ hi hturn =>
        rw [turn_eq] at hturn
        rcases (routine_turn m a.fuel a.config.frame i).traced_cases hturn hf₀ htrace with
          hno | ⟨q, e₁, w₁, hmakes, hresult, hf₁⟩
        · exact hno.elim
        · exact hcalls q (a.fetch :: as) e₁ w₁ f (fun b henters => h.call hi hmakes henters)
            hresult hf₁ htrace

/-- The same for a frame from its start. -/
theorem located_of_runFrame {n : Nat} {f₀ : Frame} {e : Failure} {w₀ w' : World} {f : Fault}
    (h : 0 < n → Stacked m fuel w (.start n f₀ w₀) as) (hcalls : CallsLocate m fuel w n)
    (hrun : m.runFrame (m.surroundings n) f₀ w₀ = .error e w') (hf : e.fault? = some f) :
    ∃ a as, Stacked m fuel w a as ∧ Locates m f a as := by
  rcases runFrame_cases m (m.surroundings n) f₀ w₀ with ⟨v, w₁, hok, -⟩ | ⟨e₁, w₁, hfrom, herror⟩
  · cases hok.symm.trans hrun
  · cases herror.symm.trans hrun
    cases n with
    | zero =>
        -- the frame may not execute anything
        cases hfrom
        cases hf
    | succ n =>
        have h := h n.succ_pos
        rcases h.exists_fails hfrom with rfl | ⟨k, c, last, hstacked, hfails⟩
        · cases hf
        · refine hstacked.located_of_fails hhosts hidle hcalls hfails ?_
          have hsame := (hstacked.depth_eq hhosts hidle).trans (h.depth_eq hhosts hidle).symm
          rw [hsame]
          exact hf

omit hhosts hidle in
/-- An error that leaves a frame is a fault. -/
theorem fault?_of_runFrame {s : Surroundings} {f₀ : Frame} {e : Failure} {w₀ w' : World}
    (hrun : m.runFrame s f₀ w₀ = .error e w') (herror : e.isError = true) :
    ∃ f, e.fault? = some f := by
  rcases runFrame_cases m s f₀ w₀ with ⟨v, w₁, hok, -⟩ | ⟨e₁, w₁, -, hfailed⟩
  · cases hok.symm.trans hrun
  · cases hfailed.symm.trans hrun
    exact Failure.fault?_record herror

/-- The same for a call of a function, whose frame is active once it is open. -/
theorem located_of_callFunction {n : Nat} {c : Call} {e : Failure} {w₀ w' : World} {f : Fault}
    (hopened : ∀ f₀ w₁, m.openFrame c w₀ = .ok f₀ w₁ → 0 < n →
      Stacked m fuel w (.start n f₀ w₁) as)
    (hcalls : CallsLocate m fuel w n)
    (hcall : m.callFunction (m.surroundings n) c w₀ = .error e w') (hf : e.fault? = some f)
    (htrace : f.trace ≠ []) : ∃ a as, Stacked m fuel w a as ∧ Locates m f a as := by
  cases hopen : m.openFrame c w₀ with
  | error e₁ w₁ =>
      cases (bind_of_error hopen).symm.trans hcall
      -- what fails before the frame is there has no trace yet
      exact absurd ((local_openFrame m c).trace_eq_nil hopen hf) htrace
  | ok f₀ w₁ =>
      have hrest := (bind_of_ok hopen).symm.trans hcall
      cases hrun : m.runFrame (m.surroundings n) f₀ w₁ with
      | error e₁ w₂ =>
          cases (bind_of_error hrun).symm.trans hrest
          exact located_of_runFrame hhosts hidle (hopened f₀ w₁ hopen) hcalls hrun hf
      | ok v w₂ =>
          -- neither has what fails when the frame is closed
          have hclosed := (bind_of_ok hrun).symm.trans hrest
          have hlocal : Local World.sites (do
              m.closeFrame c v
              return v : Exec Value) :=
            (local_closeFrame m c v).bind fun _ => local_pure v
          exact absurd (hlocal.trace_eq_nil hclosed hf) htrace

/-- Every fault that comes out of a call has a place in the run. -/
theorem callsLocate (n : Nat) : CallsLocate m fuel w n := by
  -- a call that is made within another one has less fuel than that
  induction n with
  | zero =>
      intro q bs e w' f _ hresult hf _
      cases hresult
      cases hf
  | succ n ih =>
      intro q bs e w' f hentered hresult hf htrace
      obtain ⟨callee, args, keywords, w₀⟩ := q
      by_cases hcallee : ∃ ref, callee = .function ref
      · obtain ⟨ref, rfl⟩ := hcallee
        have hcall : m.callFunction (m.surroundings n) ⟨w₀.store.closure ref, args, keywords⟩ w₀ =
            .error e w' :=
          map_eq_error ((m.invoke_function n ref args keywords w₀).symm.trans hresult)
        have hopened : ∀ f₀ w₁,
            m.openFrame ⟨w₀.store.closure ref, args, keywords⟩ w₀ = .ok f₀ w₁ →
              0 < n → Stacked m fuel w (.start n f₀ w₁) bs :=
          fun f₀ w₁ hopen hn => hentered _ (.function hn hopen)
        exact located_of_callFunction hhosts hidle hopened ih hcall hf htrace
      · -- what is called has no frame, so that the fault comes out of a call that it makes in turn
        push Not at hcallee
        rcases (routine_answer hhosts n hcallee args keywords).traced_cases hresult hf htrace with
          hno | ⟨q', e₁, w₁, hmakes, hresult', hf₁⟩
        · exact hno.elim
        · refine ih q' bs e₁ w₁ f (fun b henters => ?_) hresult' hf₁ htrace
          exact hentered b (.through hcallee hmakes henters)

end

/-! ## Runs -/

/-- A program that succeeds is no longer running. -/
theorem whileRunning_of_ok {α : Type} {x : Exec α} {w₁ w₂ : World} {v : α}
    (henter : enter w = .ok () w₁) (hx : x w₁ = .ok v w₂) :
    whileRunning x w = .ok v { w₂ with running := false, sites := [] } := by
  unfold whileRunning
  exact (bind_of_ok henter).trans (bind_of_ok (tryCatch_of_ok hx))

/-- Neither is one that fails. -/
theorem whileRunning_of_error {α : Type} {x : Exec α} {w₁ w₂ : World} {e : Failure}
    (henter : enter w = .ok () w₁) (hx : x w₁ = .error e w₂) :
    whileRunning x w = .error e { w₂ with running := false, sites := [] } := by
  unfold whileRunning
  exact (bind_of_ok henter).trans (bind_of_error (tryCatch_of_error hx))

/-- Whatever is done while the machine counts as running leaves it idle. -/
theorem idle_whileRunning {α : Type} (x : Exec α) (hidle : w.Idle) :
    (∀ v w', whileRunning x w = .ok v w' → w'.Idle) ∧
      ∀ e w', whileRunning x w = .error e w' → w'.Idle := by
  -- an idle machine may be entered
  have henter : enter w = .ok () { w with running := true, stepCount := 0 } := by
    unfold enter
    refine (bind_of_ok rfl).trans ?_
    rw [if_neg (by simp [hidle.running_eq])]
    rfl
  cases hx : x { w with running := true, stepCount := 0 } with
  | ok v w₁ =>
      have hrun := whileRunning_of_ok henter hx
      constructor
      · intro v' w' h
        cases hrun.symm.trans h
        exact ⟨rfl, rfl⟩
      · intro e w' h
        cases hrun.symm.trans h
  | error e w₁ =>
      have hrun := whileRunning_of_error henter hx
      constructor
      · intro v w' h
        cases hrun.symm.trans h
      · intro e' w' h
        cases hrun.symm.trans h
        exact ⟨rfl, rfl⟩

/-- Running the main code succeeds or fails as its frame does. -/
theorem runMain_cases (m : Machine) (fuel : Nat) (code : Loaded) (w : World) :
    ∃ w₁, m.log (.runStarted w.globals.length) w = .ok () w₁ ∧
      ((∃ v w', m.runMain fuel code w = .ok v w') ∨
        ∃ e w₂ w', m.runFrame (m.surroundings fuel) { code, locals := .globals } w₁ = .error e w₂ ∧
          m.runMain fuel code w = .error e w') := by
  obtain ⟨w₁, hlog, -⟩ := log_cases m (.runStarted w.globals.length) w
  refine ⟨w₁, hlog, ?_⟩
  unfold runMain
  cases hrun : m.runFrame (m.surroundings fuel) { code, locals := .globals } w₁ with
  | ok v w₂ =>
      obtain ⟨w₃, hfinished, -⟩ := log_cases m (.runFinished v.typeName) w₂
      refine Or.inl ⟨v, w₃, ?_⟩
      refine (bind_of_ok rfl).trans ((bind_of_ok hlog).trans ?_)
      exact (bind_of_ok (tryCatch_of_ok hrun)).trans (bind_of_ok hfinished)
  | error e w₂ =>
      -- only errors are logged; what breaks the run off is passed on as it is
      obtain ⟨w₃, hfailed, -⟩ := log_cases m (.runFailed e.text) w₂
      by_cases herror : e.isError = true
      · refine Or.inr ⟨e, w₂, w₃, rfl, ?_⟩
        refine (bind_of_ok rfl).trans ((bind_of_ok hlog).trans ?_)
        refine bind_of_error ((tryCatch_of_error hrun).trans ?_)
        rw [if_pos herror]
        exact (bind_of_ok hfailed).trans rfl
      · refine Or.inr ⟨e, w₂, w₂, rfl, ?_⟩
        refine (bind_of_ok rfl).trans ((bind_of_ok hlog).trans ?_)
        refine bind_of_error ((tryCatch_of_error hrun).trans ?_)
        rw [if_neg herror]
        rfl

/-- An error of a run comes out of the frame of the main code. -/
theorem run_error_cases {code : Loaded} {w₁ w' : World} {e : Failure} (hloads : m.Loads w code w₁)
    (h : m.run fuel w = .error e w') :
    ∃ w₂ w₃, m.log (.runStarted w₁.globals.length) w₁ = .ok () w₂ ∧
      m.runFrame (m.surroundings fuel) { code, locals := .globals } w₂ = .error e w₃ := by
  obtain ⟨main, _, hprogram, hrest⟩ := bind_eq_ok hloads
  obtain ⟨_, _, henter, hload⟩ := bind_eq_ok hrest
  have hrun := (bind_of_ok hprogram).symm.trans h
  obtain ⟨w₂, hlog, hmain⟩ := runMain_cases m fuel code w₁
  rcases hmain with ⟨v, w₄, hmain⟩ | ⟨e₁, w₃, w₄, hframe, hmain⟩
  · cases (whileRunning_of_ok henter ((bind_of_ok hload).trans hmain)).symm.trans hrun
  · cases (whileRunning_of_error henter ((bind_of_ok hload).trans hmain)).symm.trans hrun
    exact ⟨w₂, w₃, hlog, hframe⟩

/-- The depths and traces of a run are exact. Active frames are nested: the frame of the main code
has depth 1, every other one is one deeper than its caller, which is executing an instruction that
makes a call, and the limit holds. An error that the run ends with after the main code has been
prepared has a fault whose trace lists the active frames at the place where it occurred, from the
one that failed outwards, with what each has fetched last. Its depth is the length of the trace. -/
theorem depths_and_traces (hmax : 1 ≤ m.maxDepth) (hhosts : m.FaithfulHosts) (hidle : w.Idle) :
    (∀ a as, Stacked m fuel w a as → Nested m (a :: as) ∧ ∀ b ∈ as, InCall m b) ∧
      ∀ code w₁ e w', m.Loads w code w₁ → m.run fuel w = .error e w' → e.isError = true →
        ∃ f, e.fault? = some f ∧ f.trace ≠ [] ∧ f.depth = f.trace.length ∧
          1 ≤ f.depth ∧ f.depth ≤ m.maxDepth ∧
          ∃ a as, Stacked m fuel w a as ∧ Locates m f a as := by
  refine ⟨fun a as h => ⟨h.nested hmax hhosts hidle, h.inCall⟩, ?_⟩
  intro code w₁ e w' hloads hrun herror
  obtain ⟨w₂, w₃, hlog, hframe⟩ := run_error_cases hloads hrun
  obtain ⟨f, hf⟩ := fault?_of_runFrame hframe herror
  obtain ⟨a, as, hstacked, hlocates⟩ := located_of_runFrame hhosts hidle
    (Stacked.main · hloads hlog) (callsLocate hhosts hidle fuel) hframe hf
  -- the failure has been located in a frame, and the trace has a site for each frame up to it
  obtain ⟨e₀, w₀, hfails, huntraced, htrace, hdepth, hrecord⟩ := hlocates
  have hlength : f.trace.length = as.length + 1 := by
    rw [htrace, List.length_map, List.length_cons]
  have hexact : f.depth = f.trace.length := by
    rw [hdepth, hstacked.depth_eq hhosts hidle, hlength]
  obtain ⟨hlow, hhigh⟩ := (hstacked.nested hmax hhosts hidle).depth_bounds a List.mem_cons_self
  refine ⟨f, hf, ?_, hexact, ?_, ?_, a, as, hstacked, e₀, w₀, hfails, huntraced, htrace, hdepth,
    hrecord⟩
  · rw [htrace]
    exact List.cons_ne_nil _ _
  · rw [hdepth]
    exact_mod_cast hlow
  · rw [hdepth]
    exact_mod_cast hhigh

/-- A machine that runs `list(map(apply, (f,)))`, where the host callable `apply` calls its argument
and `f` takes a value from an empty stack. -/
def failingCallback : Machine where
  main? := some {
    name := "main"
    names := ["list", "map", "apply"]
    constants := [.code { name := "f", serial := 1, instructions := [1, 0] }]
    instructions := [101, 0, 101, 1, 101, 2, 100, 0, 132, 0, 102, 1, 131, 2, 131, 1, 83, 0] }
  hosts _ invoke args _ := invoke (args.headD .none) [] []

/-- The world in which it starts. -/
def callbackWorld : World where
  builtins := [("list", .builtin .list), ("map", .builtin .map),
    ("apply", .host ⟨"apply", .positional⟩)]

/-- The program is loaded. -/
theorem loads_failingCallback : ∃ code w, failingCallback.Loads callbackWorld code w := by
  refine ⟨?_, ?_, ?_⟩
  rotate_left 2
  · unfold Loads
    cbv
    rfl

/-- The function that the host calls fails, and both frames are in the trace. -/
theorem run_failingCallback :
    ∃ f w', failingCallback.run 12 callbackWorld = .error (.fault f none) w' ∧
      f.trace = [⟨"f", "", 0, "POP_TOP"⟩, ⟨"main", "", 14, "CALL_FUNCTION"⟩] := by
  refine ⟨?_, ?_, ?_, ?_⟩
  rotate_left 2
  · cbv
    rfl
  · rfl

/-- The function called back fails on top of the frame of the main code. -/
theorem depths_and_traces_callback :
    ∃ code w e w', 1 ≤ failingCallback.maxDepth ∧ failingCallback.FaithfulHosts ∧
      World.Idle callbackWorld ∧ failingCallback.Loads callbackWorld code w ∧
      failingCallback.run 12 callbackWorld = .error e w' ∧ e.isError = true ∧
      ∃ f a as, e.fault? = some f ∧ f.depth = 2 ∧
        f.trace = [⟨"f", "", 0, "POP_TOP"⟩, ⟨"main", "", 14, "CALL_FUNCTION"⟩] ∧
        Stacked failingCallback 12 callbackWorld a as ∧ Locates failingCallback f a as := by
  have hmax : 1 ≤ failingCallback.maxDepth := by decide
  have hhosts : failingCallback.FaithfulHosts := fun _ args _ => .call (args.headD .none) [] []
  have hidle : World.Idle callbackWorld := ⟨rfl, rfl⟩
  obtain ⟨code, w, hloads⟩ := loads_failingCallback
  obtain ⟨f, w', hrun, htrace⟩ := run_failingCallback
  obtain ⟨g, hg, -, hdepth, -, -, a, as, hstacked, hlocates⟩ :=
    (depths_and_traces hmax hhosts hidle).2 code w _ w' hloads hrun rfl
  cases hg
  refine ⟨code, w, _, w', hmax, hhosts, hidle, hloads, hrun, rfl, f, a, as, rfl, ?_, htrace,
    hstacked, hlocates⟩
  rw [hdepth, htrace]
  rfl

end Machine

end Wordcode
