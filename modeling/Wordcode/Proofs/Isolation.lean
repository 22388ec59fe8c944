import Wordcode.Proofs.Distribution
import Wordcode.Proofs.Operands
import Wordcode.Proofs.Preservation
import Wordcode.Proofs.TrackedRuns
import Mathlib

namespace Wordcode

/-! # Isolation

A call has variables of its own. It cannot reach the variables of the frames below it, what is on
their stacks, or what a function has captured when it was made.

* `Makes.covered` brings ledgers from computations to the calls that these make.
* `Machine.Asks` says which calls a frame makes, its own and those of what it calls.
* `Machine.Stacked.covered` finds a ledger for each point of a run.
* `Machine.variables_of_openFrame` says which variables a call starts with.
* `Machine.isolates_of_asks` puts these together.
-/

/-! ## Requests -/

/-- The same way to call values, except that one request breaks off and leaves a certain world. -/
noncomputable def Invoke.breakInto (invoke : Invoke) (q : Request) (e : Failure) (w' : World) :
    Invoke :=
  open Classical in fun f args keywords w =>
    if (⟨f, args, keywords, w⟩ : Request) = q then .error e w' else invoke f args keywords w

section

variable {α : Type} {passes : Fault → Prop} {x : Invoke → Exec α} {invoke : Invoke} {q : Request}
  {w w' : World}

/-- A routine does not see into which world a request breaks off. -/
theorem Routine.breakInto_cases (h : Routine passes x) (q : Request) (w' : World) {e : Failure}
    (he : e.isError = false) (w : World) :
    (x (invoke.breakAt q e) w = x invoke w ∧ x (invoke.breakInto q e w') w = x invoke w) ∨
      (x (invoke.breakAt q e) w = .error e q.world ∧
        x (invoke.breakInto q e w') w = .error e w') := by
  -- up to the request nothing is different, and nothing comes after it
  induction h generalizing w with
  | own | pass => exact Or.inl ⟨rfl, rfl⟩
  | call f args keywords =>
      unfold Invoke.breakAt Invoke.breakInto
      by_cases hq : (⟨f, args, keywords, w⟩ : Request) = q
      · subst hq
        exact Or.inr ⟨if_pos rfl, if_pos rfl⟩
      · exact Or.inl ⟨if_neg hq, if_neg hq⟩
  | @bind α β passes x k _ _ ihx ihk =>
      beta_reduce
      rcases ihx w with ⟨hsame, hsame'⟩ | ⟨hbroken, hbroken'⟩
      · cases hrun : x invoke w with
        | error e' w₁ =>
            refine Or.inl ⟨?_, ?_⟩
            · rw [bind_of_error hrun, bind_of_error (hsame.trans hrun)]
            · rw [bind_of_error hrun, bind_of_error (hsame'.trans hrun)]
        | ok a w₁ =>
            rw [bind_of_ok hrun, bind_of_ok (hsame.trans hrun), bind_of_ok (hsame'.trans hrun)]
            exact ihk a w₁
      · exact Or.inr ⟨bind_of_error hbroken, bind_of_error hbroken'⟩
  | @handle α passes x h _ _ hpass ihx ihh =>
      beta_reduce
      rcases ihx w with ⟨hsame, hsame'⟩ | ⟨hbroken, hbroken'⟩
      · cases hrun : x invoke w with
        | ok a w₁ =>
            refine Or.inl ⟨?_, ?_⟩
            · rw [tryCatch_of_ok hrun, tryCatch_of_ok (hsame.trans hrun)]
            · rw [tryCatch_of_ok hrun, tryCatch_of_ok (hsame'.trans hrun)]
        | error e' w₁ =>
            rw [tryCatch_of_error hrun, tryCatch_of_error (hsame.trans hrun),
              tryCatch_of_error (hsame'.trans hrun)]
            exact ihh e' w₁
      · refine Or.inr ⟨?_, ?_⟩
        · rw [tryCatch_of_error hbroken, hpass e he]
          rfl
        · rw [tryCatch_of_error hbroken', hpass e he]
          rfl

/-- Whatever a request leaves behind when it breaks off is left behind. -/
theorem Makes.breakInto (hmakes : Makes x invoke w q) (hx : Routine passes x) (w' : World) :
    ∃ e, x (invoke.breakInto q e w') w = .error e w' := by
  rcases hx.breakInto_cases q w' (e := .crash) rfl w with ⟨hsame, -⟩ | ⟨-, hbroken⟩
  · rcases hx.breakInto_cases q w' (e := .exhausted) rfl w with ⟨hsame', -⟩ | ⟨-, hbroken⟩
    · -- the routine alone cannot fail in both ways
      have hcrash := hsame.symm.trans (hmakes .crash rfl)
      have hexhausted := hsame'.symm.trans (hmakes .exhausted rfl)
      cases hcrash.symm.trans hexhausted
    · exact ⟨.exhausted, hbroken⟩
  · exact ⟨.crash, hbroken⟩

/-- A world that refers to a dict that it does not have. -/
def World.forged : World := { globals := [("", .dict 0)] }

theorem not_covers_forged (S : Ledger) : ¬S.Covers World.forged := by
  intro h
  have hcount : (0 : Nat) = S.dicts.length := h.keeps.dictCount
  have hopen : S.dicts[0]? = some none :=
    h.known (.dict 0) (Or.inr (Or.inl ⟨_, List.mem_cons_self, Or.inr .dict⟩))
  rw [List.eq_nil_of_length_eq_zero hcount.symm] at hopen
  cases hopen

instance : HasReferences Request where
  Occurs r q := Occurs r q.world ∨ Occurs r q.callee ∨ Occurs r q.args ∨ Occurs r q.keywords

instance : HasStore Request := ⟨fun q => q.world.store, fun q => some q.world.builtins⟩

@[simp]
theorem known_request {S : Ledger} : Known S q ↔
    Known S q.world ∧ Known S q.callee ∧ Known S q.args ∧ Known S q.keywords := by
  simp only [Known, Occurs, or_imp, forall_and]

/-- A tracked computation only makes requests that a later ledger covers. -/
theorem Makes.covered [HasReferences α] {S : Ledger} (hmakes : Makes x invoke w q)
    (hx : Routine passes x) (htracks : ∀ invoke, invoke.Tracked S → Tracks S (x invoke))
    (hinvoke : invoke.Tracked S) (hw : S.Covers w) : ∃ T, S.Extends T ∧ T.Covers q := by
  -- otherwise the request could break off into any world whatever, with calls still tracked
  by_contra hno
  push Not at hno
  obtain ⟨e, hbroken⟩ := hmakes.breakInto hx World.forged
  have htracked : (invoke.breakInto q e World.forged).Tracked S := by
    intro T f args keywords hST hf hargs hkeywords w₁ hw₁
    unfold Invoke.breakInto
    by_cases hq : (⟨f, args, keywords, w₁⟩ : Request) = q
    · subst hq
      exact absurd ⟨known_request.mpr ⟨hw₁.known, hf, hargs, hkeywords⟩, hw₁.keeps, hw₁.builtins⟩
        (hno T hST)
    · rw [if_neg hq]
      exact hinvoke T f args keywords hST hf hargs hkeywords w₁ hw₁
  obtain ⟨T, -, hforged⟩ := (htracks _ htracked w hw).2 e World.forged hbroken
  exact not_covers_forged T hforged

theorem Ledger.Covers.of_request {S : Ledger} (h : S.Covers q) : S.Covers q.world :=
  ⟨(known_request.mp h.known).1, h.keeps, h.builtins⟩

end

/-! ## Active frames -/

namespace Machine

variable {m : Machine} {fuel : Nat} {w : World} {a b : Activation} {as : List Activation}
  {S : Ledger}

/-- A call that a run makes: the instruction of a frame asks for it, or something that is called
without a frame of its own. -/
inductive Asks (m : Machine) (a : Activation) : Nat → Request → Prop
  | instruction {i : Instruction} {q : Request} :
    a.config.instruction? = some i →
    Makes (fun invoke => m.turn ⟨invoke, a.fuel⟩ a.config.frame i)
      (m.invoke a.fuel) a.config.world q →
    Asks m a a.fuel q
  | through {n : Nat} {q q' : Request} :
    Asks m a (n + 1) q → (∀ ref, q.callee ≠ .function ref) →
    Makes (fun invoke => m.answer ⟨invoke, n⟩ q.callee q.args q.keywords)
      (m.invoke n) q.world q' →
    Asks m a n q'

/-- A call that opens a frame goes down to a call of a function. -/
theorem Enters.exists_asks {n : Nat} {q : Request} (h : Enters m n q b) (hq : Asks m a n q) :
    ∃ k q' ref, Asks m a k q' ∧ q'.callee = .function ref := by
  induction h with
  | function => exact ⟨_, _, _, hq, rfl⟩
  | through hcallee hmakes _ ih => exact ih (hq.through hcallee hmakes)

/-- A frame on top of another one belongs to a call of a function that the other one asks for. -/
theorem Stacked.exists_asks (h : Stacked m fuel w a (b :: as)) :
    ∃ b₀ n q ref, Stacked m fuel w b₀ as ∧ Asks m b₀ n q ∧ q.callee = .function ref := by
  generalize hbs : b :: as = bs at h
  induction h with
  | main => cases hbs
  | step _ _ _ ih => exact ih hbs
  | @call b₀ _ _ i q hstacked hi hmakes henters =>
      cases hbs
      obtain ⟨n, q', ref, hq', hcallee⟩ := henters.exists_asks (.instruction hi hmakes)
      exact ⟨b₀, n, q', ref, hstacked, hq', hcallee⟩

section

variable (hhosts : m.FaithfulHosts) (hhonest : m.HonestHosts)
include hhonest

theorem covers_of_turn {f f' : Frame} {i : Instruction} {flow : Flow} {w w' : World}
    (hf : Known S f) (hw : S.Covers w)
    (h : m.turn (m.surroundings fuel) f i w = .ok (flow, f') w') :
    ∃ T, S.Extends T ∧ T.Covers w' ∧ Known T f' := by
  have htracked := tracked_invoke (S := S) fuel hhonest
  obtain ⟨T, hST, hw', hp⟩ := (tracks_turn htracked fuel hf i w hw).1 _ _ h
  exact ⟨T, hST, hw', ((known_pair _ _).mp hp).2⟩

/-- What an instruction asks for. -/
theorem covers_of_instruction {f : Frame} {i : Instruction} {q : Request} (hf : Known S f)
    (hw : S.Covers w)
    (h : Makes (fun invoke => m.turn ⟨invoke, fuel⟩ f i) (m.invoke fuel) w q) :
    ∃ T, S.Extends T ∧ T.Covers q := by
  have hmakes : Makes (fun invoke =>
      m.reportStep f i >>= fun _ => (Frame.execute ⟨invoke, fuel⟩ i).run f)
      (m.invoke fuel) (w.atSite (f.siteOf i)) q := h
  refine hmakes.covered (routine_turn m fuel f i) (fun invoke hinvoke => ?_)
    (tracked_invoke fuel hhonest) (hw.congr rfl rfl rfl rfl)
  exact (m.safe_reportStep f i).andThen fun _ _ => (Tracks.execute hinvoke fuel i).run hf

include hhosts

/-- What is called without a frame of its own asks for something. -/
theorem covers_of_answer {q q' : Request} (hq : S.Covers q)
    (hcallee : ∀ ref, q.callee ≠ .function ref)
    (h : Makes (fun invoke => m.answer ⟨invoke, fuel⟩ q.callee q.args q.keywords)
      (m.invoke fuel) q.world q') : ∃ T, S.Extends T ∧ T.Covers q' := by
  obtain ⟨-, hf, hargs, hkeywords⟩ := known_request.mp hq.known
  refine h.covered (routine_answer hhosts fuel hcallee q.args q.keywords) (fun invoke hinvoke => ?_)
    (tracked_invoke fuel hhonest) hq.of_request
  exact tracks_answer hinvoke fuel hhonest hf hargs hkeywords

/-- A call that opens a frame. -/
theorem Enters.covered {n : Nat} {q : Request} (h : Enters m n q b) (hq : S.Covers q) :
    ∃ T, S.Extends T ∧ T.Covers b.config.world ∧ Known T b.config.frame := by
  induction h generalizing S with
  | @function n ref args keywords w w' f _ hopen =>
      obtain ⟨hworld, -, hargs, hkeywords⟩ := known_request.mp hq.known
      have hclosure := (known_world.mp hworld).1.closure ref
      have hcall : Known S (⟨w.store.closure ref, args, keywords⟩ : Call) :=
        known_call.mpr ⟨hclosure, hargs, hkeywords⟩
      obtain ⟨T, hST, hw', hframe⟩ := (m.tracks_openFrame hcall w hq.of_request).1 f w' hopen
      exact ⟨T, hST, hw'.congr rfl rfl rfl rfl, hframe⟩
  | through hcallee hmakes _ ih =>
      obtain ⟨T, hST, hq'⟩ := covers_of_answer hhosts hhonest hq hcallee hmakes
      obtain ⟨U, hTU, hb⟩ := ih hq'
      exact ⟨U, hST.trans hTU, hb⟩

/-- Calls that are asked for in turn. -/
theorem Asks.covered {n : Nat} {q : Request} (h : Asks m a n q)
    (ha : Known S a.config.frame) (hw : S.Covers a.config.world) :
    ∃ T, S.Extends T ∧ T.Covers q := by
  induction h with
  | instruction _ hmakes => exact covers_of_instruction hhonest ha hw hmakes
  | through _ hcallee hmakes ih =>
      obtain ⟨T, hST, hq⟩ := ih
      obtain ⟨U, hTU, hq'⟩ := covers_of_answer hhosts hhonest hq hcallee hmakes
      exact ⟨U, hST.trans hTU, hq'⟩

/-- At any point of a run, a ledger covers the world, and each active frame may change its own
variables. -/
theorem Stacked.covered (hstarts : w.Starts) (h : Stacked m fuel w a as) :
    ∃ S : Ledger, S.Covers a.config.world ∧ ∀ b ∈ a :: as, Known S b.config.frame := by
  -- a step changes only the innermost frame, and a call puts another one on top of it
  induction h with
  | @main code w₁ w₂ _ hloads hlog =>
      have hload : Safe hstarts.ledger (do
          let main ← m.program
          enter
          loadMain main : Exec Loaded) :=
        m.safe_program.bind fun main _ => safe_enter.bind fun _ _ => safe_loadMain main
      obtain ⟨hw₁, hcode⟩ := (hload w hstarts.covers).1 code w₁ hloads
      obtain ⟨hw₂, -⟩ := (m.safe_log _ w₁ hw₁).1 () w₂ hlog
      refine ⟨_, hw₂.congr rfl rfl rfl rfl, fun b hb => ?_⟩
      obtain rfl := List.mem_singleton.mp hb
      exact known_frame.mpr ⟨known_nil, known_globals, hcode⟩
  | @step a as c _ _ hstep ih =>
      obtain ⟨S, hw, hframes⟩ := ih
      have hframe := hframes a List.mem_cons_self
      obtain ⟨T, hST, hw', hframe'⟩ :
          ∃ T, S.Extends T ∧ T.Covers c.world ∧ Known T c.frame := by
        cases hstep with
        | next _ hturn => exact covers_of_turn hhonest hframe hw hturn
        | jump _ hturn => exact covers_of_turn hhonest hframe hw hturn
      refine ⟨T, hw', fun b hb => ?_⟩
      rcases List.mem_cons.mp hb with rfl | hb
      · exact hframe'
      · exact (hframes b (List.mem_cons_of_mem a hb)).mono hST
  | @call a b as i q _ _ hmakes henters ih =>
      obtain ⟨S, hw, hframes⟩ := ih
      have hframe := hframes a List.mem_cons_self
      obtain ⟨T, hST, hq⟩ := covers_of_instruction hhonest hframe hw hmakes
      obtain ⟨U, hTU, hw', hb⟩ := henters.covered hhosts hhonest hq
      have hSU := hST.trans hTU
      refine ⟨U, hw', fun d hd => ?_⟩
      rcases List.mem_cons.mp hd with rfl | hd
      · exact hb
      · rcases List.mem_cons.mp hd with rfl | hd
        · exact hframe.mono hSU
        · exact (hframes d (List.mem_cons_of_mem a hd)).mono hSU

end

/-! ## First variables -/

/-- Announcing a call leaves the store alone. -/
theorem keepsStore_announce (m : Machine) (c : Call) (depth : Nat) :
    Local World.store (m.announce c depth) := by
  have hlog (message : LogMessage) : Local World.store (m.log message) :=
    leaves_log (fun _ _ => rfl) m message
  have hreport (o : Observer) (event : Event) : Local World.store (report o event) := by
    unfold report
    refine local_get.bind fun w => Local.bind (local_modify fun _ => rfl) fun _ => ?_
    split
    · exact local_throw (Failure.untraced_raise _ _)
    · exact local_pure ()
  unfold announce
  grind

theorem store_of_lift {α : Type} {x : Op α} {v : α} {w' : World}
    (h : (liftM x : Exec α) w = .ok v w') : x w.store = .ok v w'.store := by
  change Exec.lift x w = .ok v w' at h
  unfold Exec.lift at h
  cases hrun : x w.store with
  | ok v' s =>
      simp only [hrun] at h
      cases h
      rfl
  | error e s =>
      simp only [hrun] at h
      cases h

/-- Binding makes variables from a plan. -/
theorem variables_of_bind {c : Call} {locals : Bindings} {s s' : Store}
    (h : c.bind s = .ok locals s') :
    ∃ bound values, c.plan = .ok bound ∧ locals = Assoc.setAll c.function.snapshot values ∧
      List.Forall₂ (fun b (value : String × Value) => value.1 = b.1 ∧ b.2.Holds s' value.2)
        bound values := by
  unfold Call.bind at h
  obtain ⟨bound, s₁, hplanned, h⟩ := bind_eq_ok h
  obtain ⟨values, s₂, hvalues, h⟩ := bind_eq_ok h
  cases h
  -- the plan is worked out first and changes nothing
  have hplan : c.plan = .ok bound := by
    cases hplan : c.plan with
    | error e =>
        rw [hplan] at hplanned
        cases hplanned
    | ok bound' =>
        rw [hplan] at hplanned
        cases hplanned
        rfl
  obtain ⟨values', s₃, hvalues', -, hholds⟩ := exists_values bound s₁
  cases hvalues.symm.trans hvalues'
  exact ⟨bound, values, hplan, rfl, hholds⟩

/-- The variables with which a call starts are those that the function has captured, overridden by
what the arguments and defaults say. -/
theorem variables_of_openFrame {c : Call} {f : Frame} {w' : World}
    (h : m.openFrame c w = .ok f w') :
    f.stack = [] ∧ ∃ scope bound values, f.locals = .own scope ∧ c.plan = .ok bound ∧
      w'.store.scope scope = Assoc.setAll c.function.snapshot values ∧
      List.Forall₂ (fun b (value : String × Value) =>
        value.1 = b.1 ∧ b.2.Holds w'.store value.2) bound values := by
  unfold openFrame at h
  obtain ⟨depth, w₁, -, h⟩ := bind_eq_ok h
  obtain ⟨code, w₂, -, h⟩ := bind_eq_ok h
  obtain ⟨scope, w₃, hscope, h⟩ := bind_eq_ok h
  obtain ⟨_, w₄, hannounce, h⟩ := bind_eq_ok h
  cases h
  obtain ⟨locals, s, hbind, hnew⟩ := bind_eq_ok (store_of_lift hscope)
  obtain ⟨bound, values, hplan, rfl, hvalues⟩ := variables_of_bind hbind
  -- the announcement of the call leaves the store alone
  have hstore : w'.store = w₃.store := (keepsStore_announce m c depth w₃).1 () w' hannounce
  obtain ⟨rfl, hpush⟩ : scope = s.scopes.size ∧
      w'.store = { s with scopes := s.scopes.push (Assoc.setAll c.function.snapshot values) } := by
    injection hnew with hscope hs
    exact ⟨hscope.symm, hstore.trans hs.symm⟩
  refine ⟨rfl, _, bound, values, rfl, hplan, ?_, ?_⟩
  · simp [hpush, Store.scope]
  · refine hvalues.imp fun b value hvalue => ⟨hvalue.1, hvalue.2.extend ?_⟩
    rw [hpush]
    exact ⟨rfl, List.prefix_rfl, rfl⟩

/-! ## Calls leave alone what is not theirs -/

/-- What a call that is made while some frames are active does not change from one world to
another: the variables of these frames, what the functions that there are hold, and the builtins.
The variables of the main code are the globals, which any frame may change. -/
structure Spared (frames : List Activation) (w w' : World) : Prop where
  scope : ∀ b ∈ frames, ∀ ref, b.config.frame.locals = .own ref →
    w'.store.scope ref = w.store.scope ref
  closure : ∀ ref < w.store.functions.size, w'.store.closure ref = w.store.closure ref
  builtins : w'.builtins = w.builtins

/-- How a call is isolated that is made while some frames are active. -/
structure Isolates (m : Machine) (frames : List Activation) (n : Nat) (q : Request) : Prop where
  /-- However the call ends, it spares what is not its own. -/
  spared : (∀ v? w', (m.invoke n).result q = .ok v? w' → Spared frames q.world w') ∧
    ∀ e w', (m.invoke n).result q = .error e w' → Spared frames q.world w'
  /-- When a frame is done with the instruction that it is executing, its variables are where they
  were before, and so are the values below the operands of the instruction. -/
  frame : ∀ b ∈ frames, ∀ i, b.config.instruction? = some i → ∀ flow f' w',
    m.turn (m.surroundings b.fuel) b.config.frame i b.config.world = .ok (flow, f') w' →
      f'.locals = b.config.frame.locals ∧ b.config.frame.stack.drop i.operands <:+ f'.stack
  /-- In any world, a call of the same function with the same arguments starts with the variables
  that the function has captured, overridden by what the arguments and defaults say. -/
  start : ∀ ref, q.callee = .function ref → ∀ w f w',
    m.openFrame ⟨w.store.closure ref, q.args, q.keywords⟩ w = .ok f w' → f.stack = [] ∧
      ∃ scope bound values, f.locals = .own scope ∧
        (⟨w.store.closure ref, q.args, q.keywords⟩ : Call).plan = .ok bound ∧
        w'.store.scope scope = Assoc.setAll (w.store.closure ref).snapshot values ∧
        List.Forall₂ (fun b (value : String × Value) =>
          value.1 = b.1 ∧ b.2.Holds w'.store value.2) bound values

/-- A later world spares what a ledger keeps. -/
theorem Spared.of_covers {frames : List Activation} {T U : Ledger} {w w' : World}
    (hframes : ∀ b ∈ frames, Known T b.config.frame) (hw : T.Covers w)
    (hTU : (T.closing hw.keeps).Extends U) (hw' : U.Covers w') : Spared frames w w' where
  scope b hb ref hlocals := by
    have hopen : T.Open (.scope ref) :=
      known_own.mp (hlocals ▸ (known_frame.mp (hframes b hb)).2.1)
    have hlt : ref < w.store.scopes.size :=
      hw.keeps.scopeCount ▸ (List.getElem?_eq_some_iff.mp hopen).1
    exact hTU.scope_eq hw.closing.keeps hw'.keeps (Ledger.kept_closing hw.keeps hlt)
  closure ref href := hTU.closure_eq hw.closing.keeps hw'.keeps href
  builtins := by
    rw [hw'.builtins _ rfl, hTU.builtins, hw.closing.builtins _ rfl]

/-- The frame that asks for a call is executing an instruction that makes one. -/
theorem Asks.exists_makes {n : Nat} {q : Request} (h : Asks m a n q) :
    ∃ i q', a.config.instruction? = some i ∧
      Makes (fun invoke => m.turn ⟨invoke, a.fuel⟩ a.config.frame i)
        (m.invoke a.fuel) a.config.world q' := by
  induction h with
  | instruction hi hmakes => exact ⟨_, _, hi, hmakes⟩
  | through _ _ _ ih => exact ih

/-- Frames and functions are isolated. A call that is made during a run leaves alone the variables
and the lower stacks of all active frames, everything that a function has captured and the builtins,
whether it succeeds or fails. It starts with variables that earlier calls have no part in. -/
theorem isolates_of_asks (hhosts : m.FaithfulHosts) (hhonest : m.HonestHosts) (hstarts : w.Starts)
    (h : Stacked m fuel w a as) {n : Nat} {q : Request} (hq : Asks m a n q) :
    Isolates m (a :: as) n q := by
  obtain ⟨S, hw, hframes⟩ := h.covered hhosts hhonest hstarts
  obtain ⟨T, hST, hcovers⟩ := hq.covered hhosts hhonest (hframes a List.mem_cons_self) hw
  have hframes' : ∀ b ∈ a :: as, Known T b.config.frame := fun b hb => (hframes b hb).mono hST
  obtain ⟨-, hcallee, hargs, hkeywords⟩ := known_request.mp hcovers.known
  constructor
  case spared =>
    -- no scope of an active frame is passed to the call, so the call runs as well if all are kept
    have hworld := hcovers.of_request
    have hinvoke := tracked_invoke n hhonest (T.closing hworld.keeps) q.callee q.args q.keywords
      (.refl _) (Ledger.known_closing _ hcallee) (Ledger.known_closing _ hargs)
      (Ledger.known_closing _ hkeywords) q.world hworld.closing
    constructor
    · intro v? w' hresult
      obtain ⟨U, hTU, hw', -⟩ := hinvoke.1 v? w' hresult
      exact .of_covers hframes' hworld hTU hw'
    · intro e w' hresult
      obtain ⟨U, hTU, hw'⟩ := hinvoke.2 e w' hresult
      exact .of_covers hframes' hworld hTU hw'
  case frame =>
    intro b hb i hi flow f' w' hturn
    -- the innermost frame asks for the call, and each other one for the call that it waits for
    obtain ⟨i', q', hi', hmakes⟩ : ∃ i' q', b.config.instruction? = some i' ∧
        Makes (fun invoke => m.turn ⟨invoke, b.fuel⟩ b.config.frame i')
          (m.invoke b.fuel) b.config.world q' := by
      rcases List.mem_cons.mp hb with rfl | hb
      · exact hq.exists_makes
      · obtain ⟨i', q', hi', -, hmakes⟩ := h.inCall b hb
        exact ⟨i', q', hi', hmakes⟩
    obtain rfl := Option.some.inj (hi.symm.trans hi')
    exact keeps_of_turn hmakes hturn
  case start =>
    intro ref _ w f w' hopen
    exact variables_of_openFrame hopen

/-- The function that is called back leaves alone what is not its own. -/
theorem isolates_of_asks_callback :
    ∃ a as n q ref, failingCallback.FaithfulHosts ∧ failingCallback.HonestHosts ∧
      callbackWorld.Starts ∧ Stacked failingCallback 12 callbackWorld a as ∧
      Asks failingCallback a n q ∧ q.callee = .function ref ∧
      Isolates failingCallback (a :: as) n q := by
  have hhosts : failingCallback.FaithfulHosts := fun _ args _ => .call (args.headD .none) [] []
  have hhonest : failingCallback.HonestHosts := fun S _ _ _ _ hinvoke hargs _ =>
    hinvoke S _ [] [] (.refl S) (hargs.headD (known_atom trivial)) known_nil known_nil
  have hstarts : callbackWorld.Starts := by
    have hatom {S : Ledger} {v : Value} (hv : v.IsAtom) : Known S v := known_atom hv
    refine .of_known (fun S => ?_) rfl
    simpa [callbackWorld, known_array] using ⟨hatom trivial, hatom trivial, hatom trivial⟩
  obtain ⟨code, w, hloads⟩ := loads_failingCallback
  obtain ⟨f, w', hrun, htrace⟩ := run_failingCallback
  obtain ⟨w₂, w₃, hlog, hframe⟩ := run_error_cases hloads hrun
  obtain ⟨a, as, hstacked, _, _, -, -, hsites, -⟩ := located_of_runFrame hhosts ⟨rfl, rfl⟩
    (Stacked.main · hloads hlog) (callsLocate hhosts ⟨rfl, rfl⟩ 12) hframe rfl
  -- the trace has two sites, so the callback has its caller below it
  cases as with
  | nil => simp [htrace] at hsites
  | cons b as =>
      obtain ⟨b₀, n, q, ref, hstacked', hq, hcallee⟩ := hstacked.exists_asks
      exact ⟨b₀, as, n, q, ref, hhosts, hhonest, hstarts, hstacked', hq, hcallee,
        isolates_of_asks hhosts hhonest hstarts hstacked' hq⟩

end Machine

end Wordcode
