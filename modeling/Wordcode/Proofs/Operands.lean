import Wordcode.Proofs.Activations
import Mathlib

namespace Wordcode

/-! # Operands

An instruction that may make calls takes its operands off the stack and pushes results. It leaves
the variables of its frame and the values below its operands alone, whatever the calls do.

* `Act.Takes` says this of a part of an instruction, with one rule for each part.
* `Frame.takes_execute`: such an instruction takes no more than its operands.
* `Machine.mayCall_of_makes`: all other instructions make no calls.
-/

/-- The instructions that may make calls. -/
def Opcode.mayCall : Opcode → Bool
  | .inplaceOp | .containsOp | .storeSubscr | .unpackSequence | .listExtend | .forIter
  | .callFunction | .callMethod | .callFunctionKw | .callFunctionEx => true
  | _ => false

/-- The number of operands of an instruction that may make calls. A call takes what is called, the
arguments, and the names of those that are passed by keyword. -/
def Instruction.operands (i : Instruction) : Nat :=
  match i.op with
  | .unpackSequence | .listExtend | .forIter => 1
  | .inplaceOp | .containsOp => 2
  | .storeSubscr => 3
  | .callFunction | .callMethod => i.arg + 1
  | .callFunctionKw => i.arg + 2
  | .callFunctionEx => if Opcode.callsWithKeywords i.arg then 3 else 2
  | _ => 0

/-- A part of an instruction that takes no more than so many values off the stack. It leaves the
variables and the values below as they are. -/
def Act.Takes {α : Type} (n : Nat) (x : Act α) : Prop :=
  ∀ f w a f' w', x.run f w = .ok (a, f') w' →
    f'.locals = f.locals ∧ f.stack.drop n <:+ f'.stack

namespace Act

variable {α β : Type} {n k : Nat}

/-! ## Rules -/

/-- What takes some operands takes at most more. -/
theorem Takes.mono {x : Act α} (h : x.Takes n) (hnk : n ≤ k) : x.Takes k := by
  intro f w a f' w' hrun
  obtain ⟨hvariables, hbelow⟩ := h f w a f' w' hrun
  exact ⟨hvariables, (List.drop_suffix_drop_left f.stack hnk).trans hbelow⟩

/-- The values below what one part takes are above what the next one leaves alone. -/
theorem drop_suffix_drop {s t : List α} (h : s <:+ t) (k : Nat) : s.drop k <:+ t.drop k := by
  obtain ⟨above, rfl⟩ := h
  rw [List.drop_append]
  exact (List.drop_suffix_drop_left s (Nat.sub_le k above.length)).trans (List.suffix_append _ _)

/-- Two actions after each other take the operands of both. -/
theorem Takes.bind {x : Act α} {y : α → Act β} (hx : x.Takes n) (hy : ∀ a, (y a).Takes k) :
    (x >>= y).Takes (n + k) := by
  intro f w b f' w' hrun
  obtain ⟨a, f₁, w₁, hfirst, hrest⟩ := run_bind_eq_ok hrun
  obtain ⟨hvariables, hbelow⟩ := hx f w a f₁ w₁ hfirst
  obtain ⟨hvariables', hbelow'⟩ := hy a f₁ w₁ b f' w' hrest
  refine ⟨hvariables'.trans hvariables, ?_⟩
  rw [← List.drop_drop]
  exact (drop_suffix_drop hbelow k).trans hbelow'

/-- A part that leaves the frame as it is. -/
theorem takes_of_eq {x : Act α} (h : ∀ f w a f' w', x.run f w = .ok (a, f') w' → f' = f) :
    x.Takes 0 := by
  intro f w a f' w' hrun
  obtain rfl := h f w a f' w' hrun
  exact ⟨rfl, List.suffix_refl _⟩

theorem takes_pure (a : α) : (pure a : Act α).Takes 0 := by
  refine takes_of_eq fun f w a f' w' hrun => ?_
  cases hrun
  rfl

theorem takes_throw (e : Failure) : (throw e : Act α).Takes 0 := by
  refine takes_of_eq fun f w a f' w' hrun => ?_
  cases hrun

theorem takes_raise (kind : Fault.Kind) (message : String) :
    (raise kind message : Act α).Takes 0 :=
  takes_throw _

/-- Looking at the frame takes nothing. -/
theorem takes_get : (get : Act Frame).Takes 0 := by
  refine takes_of_eq fun f w a f' w' hrun => ?_
  cases hrun
  rfl

/-- The machine has no access to the frame, and so calls have none. -/
theorem takes_exec (x : Exec α) : (liftM x : Act α).Takes 0 := by
  refine takes_of_eq fun f w a f' w' hrun => ?_
  obtain ⟨a₁, w₁, -, hpure⟩ := bind_eq_ok (k := fun a => pure (a, f)) hrun
  cases hpure
  rfl

/-- What happens in the store takes nothing from the stack. -/
theorem takes_op (x : Op α) : (liftM x : Act α).Takes 0 := takes_exec (Exec.lift x)

/-- Neither does going through a list, if no step takes anything. -/
theorem takes_foldlM {f : β → α → Act β} (h : ∀ b a, (f b a).Takes 0) (as : List α) (b : β) :
    (as.foldlM f b).Takes 0 := by
  induction as generalizing b with
  | nil => exact takes_pure b
  | cons a as ih =>
      rw [List.foldlM_cons]
      exact (h b a).bind ih

/-! ## The stack -/

theorem takes_push (v : Value) : (push v).Takes 0 := by
  intro f w a f' w' hrun
  cases hrun
  exact ⟨rfl, List.suffix_cons v f.stack⟩

theorem takes_pushAll (vs : List Value) : (pushAll vs).Takes 0 := by
  intro f w a f' w' hrun
  cases hrun
  exact ⟨rfl, List.suffix_append _ f.stack⟩

theorem takes_pop : pop.Takes 1 := by
  intro f w v f' w' hrun
  obtain ⟨rest, hpop, rfl⟩ := run_take (x := Stack.pop) hrun
  refine ⟨rfl, ?_⟩
  cases hstack : f.stack with
  | nil => simp [hstack, Stack.pop, Stack.underflow] at hpop
  | cons v s =>
      rw [hstack] at hpop
      cases hpop
      exact List.suffix_refl _

/-- Taking several operands takes as many. -/
theorem takes_popMany (count : Nat) : (popMany count).Takes count := by
  intro f w vs f' w' hrun
  obtain ⟨rest, hpop, rfl⟩ := run_take (x := fun s => s.popMany count) hrun
  refine ⟨rfl, ?_⟩
  unfold Stack.popMany at hpop
  split at hpop
  · cases hpop
    exact List.suffix_refl _
  · cases hpop

theorem takes_popTwo : popTwo.Takes 2 := by
  refine (takes_popMany 2).bind (k := 0) fun vs => ?_
  split
  · exact takes_pure _
  · exact takes_throw _

/-- Looking at an operand leaves it where it is. -/
theorem takes_peek (depth : Int) : (peek depth).Takes 0 :=
  takes_get.bind fun _ => takes_exec _

theorem takes_provided (a? : Option α) : (provided a?).Takes 0 := by
  cases a? with
  | none => exact takes_throw _
  | some a => exact takes_pure a

theorem takes_listAt (depth : Nat) : (listAt depth).Takes 0 := by
  refine (takes_peek _).bind (k := 0) fun v => ?_
  split
  · exact takes_pure _
  · exact takes_raise _ _

theorem takes_expectItems (count : Nat) (items : List Value) :
    (expectItems count items).Takes 0 := by
  unfold expectItems
  split
  · exact takes_raise _ _
  · split
    · exact takes_raise _ _
    · exact takes_pure ()

/-! ## Calls -/

/-- A mapping of keyword arguments is taken only if the flag says that there is one. -/
theorem takes_popMapping (flags : Nat) :
    (popMapping flags).Takes (if Opcode.callsWithKeywords flags then 1 else 0) := by
  unfold popMapping
  split
  · refine takes_pop.bind (k := 0) fun v => ?_
    split
    · exact takes_pure _
    · exact takes_raise _ _
  · exact takes_pure none

theorem takes_pairKeywords (names values : List Value) : (pairKeywords names values).Takes 0 := by
  refine takes_foldlM ?_ _ _
  rintro entries ⟨name, v⟩
  dsimp only
  split
  · split
    · exact takes_raise _ _
    · exact (takes_op _).bind fun key => takes_pure _
  · exact takes_raise _ _

/-! ## Control -/

theorem takes_jump (i : Instruction) : (Frame.jump i).Takes 0 := by
  unfold Frame.jump
  split
  · exact takes_pure _
  · exact takes_get.bind fun f => takes_throw _

theorem takes_result (v : Value) : (Frame.result v).Takes 0 := by
  unfold Frame.result
  exact (takes_push v).bind fun _ => takes_pure _

end Act

/-! ## Instructions -/

namespace Frame

open Act

/-- An instruction that may make calls takes no more than its operands. -/
theorem takes_execute (s : Surroundings) {i : Instruction} (hcalls : i.op.mayCall = true) :
    (execute s i).Takes i.operands := by
  unfold execute Instruction.operands
  cases hop : i.op
  case inplaceOp =>
    exact takes_popTwo.bind fun p => (takes_provided _).bind fun o =>
      (takes_exec _).bind fun v => takes_result v
  case containsOp =>
    exact takes_popTwo.bind fun p => (takes_exec _).bind fun b => takes_result _
  case storeSubscr =>
    refine (takes_popMany 3).bind (k := 0) fun vs => ?_
    split
    · exact (takes_exec _).bind fun _ => takes_pure _
    · exact takes_throw _
  case unpackSequence =>
    exact takes_pop.bind fun v => (takes_exec _).bind fun vs =>
      (takes_expectItems _ vs).bind fun _ => (takes_pushAll _).bind fun _ => takes_pure _
  case listExtend =>
    exact takes_pop.bind fun v => (takes_listAt _).bind fun ref =>
      (takes_exec _).bind fun _ => takes_pure _
  case forIter =>
    -- the iterator stays, unless it is exhausted
    refine (takes_peek 0).bind (k := 1) fun v => ?_
    split
    · refine (takes_exec _).bind (k := 1) fun v? => ?_
      cases v? with
      | some v => exact (takes_result v).mono (Nat.zero_le 1)
      | none => exact takes_pop.bind fun _ => takes_jump i
    · exact (takes_raise _ _).mono (Nat.zero_le 1)
  case callFunction | callMethod =>
    exact (takes_popMany i.arg).bind fun args => takes_pop.bind fun f =>
      (takes_exec _).bind fun v => takes_result v
  case callFunctionKw =>
    -- the names are on top, then the values, and what is called is below them
    refine (takes_pop.bind (k := i.arg + 1) fun v => ?_).mono (Nat.le_of_eq (Nat.add_comm 1 _))
    split
    · split
      · exact (takes_raise _ _).mono (Nat.zero_le _)
      · exact (takes_popMany i.arg).bind fun values => takes_pop.bind fun f =>
          (takes_pairKeywords _ _).bind fun keywords => (takes_exec _).bind fun v => takes_result v
    · exact (takes_raise _ _).mono (Nat.zero_le _)
  case callFunctionEx =>
    -- the mapping is there only if the argument says so
    refine ((takes_popMapping i.arg).bind (k := 2) fun mapping? => takes_pop.bind (k := 1) fun v =>
      (takes_exec _).bind (k := 1) fun args => takes_pop.bind (k := 0) fun f =>
      (takes_exec _).bind fun v => takes_result v).mono ?_
    dsimp only
    split <;> omega
  all_goals
    rw [hop] at hcalls
    cases hcalls

/-- All other instructions do not use the way to call values. -/
theorem execute_eq_of_not_mayCall {i : Instruction} (hcalls : i.op.mayCall = false)
    (invoke invoke' : Invoke) (fuel : Nat) :
    execute ⟨invoke, fuel⟩ i = execute ⟨invoke', fuel⟩ i := by
  unfold execute
  cases hop : i.op
  case inplaceOp | containsOp | storeSubscr | unpackSequence | listExtend | forIter | callFunction |
      callMethod | callFunctionKw | callFunctionEx =>
    rw [hop] at hcalls
    cases hcalls
  all_goals rfl

end Frame

namespace Machine

variable {m : Machine} {fuel : Nat} {w w' : World} {f f' : Frame} {i : Instruction}

/-- Only an instruction that may make calls asks for one. -/
theorem mayCall_of_makes {invoke : Invoke} {q : Request}
    (h : Makes (fun invoke => m.turn ⟨invoke, fuel⟩ f i) invoke w q) :
    i.op.mayCall = true := by
  by_contra hno
  rw [Bool.not_eq_true] at hno
  -- otherwise it does not see how a request breaks off
  have hsame : m.turn ⟨invoke.breakAt q .crash, fuel⟩ f i =
      m.turn ⟨invoke.breakAt q .exhausted, fuel⟩ f i := by
    unfold turn
    rw [Frame.execute_eq_of_not_mayCall hno]
  have hcrash := h .crash rfl
  have hexhausted := h .exhausted rfl
  cases hcrash.symm.trans ((congrFun hsame w).trans hexhausted)

/-- An instruction that asks for calls leaves the variables of its frame and the values below its
operands as they were, whatever the calls do. -/
theorem keeps_of_turn {invoke : Invoke} {q : Request} {flow : Flow} {s : Surroundings}
    (hmakes : Makes (fun invoke => m.turn ⟨invoke, fuel⟩ f i) invoke w q)
    (h : m.turn s f i w = .ok (flow, f') w') :
    f'.locals = f.locals ∧ f.stack.drop i.operands <:+ f'.stack := by
  obtain ⟨w₁, hexecute⟩ := execute_of_turn h
  exact Frame.takes_execute s (mayCall_of_makes hmakes) f w₁ flow f' w' hexecute

end Machine

end Wordcode
