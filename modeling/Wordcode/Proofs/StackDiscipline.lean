import Wordcode.Machine.Frame
import Wordcode.Proofs.Sequence
import Mathlib

namespace Wordcode

/-! # The stack discipline

Instructions keep to the published stack effects. The proof goes through the parts that instructions
are built from: each part is described by its result and by the change of the stack depth.

* `Act.Ensures` is such a description, with one rule for each part.
* `Frame.obeys_buildMap` and its like describe one handler each: where it may send control, and that
  the depth changes by its stack effect. `Frame.execute_ensures` puts them together.
* `Frame.stackEffect?_of_execute` is the same as a statement about the published table.
-/

/-- What holds when a part of an instruction succeeds: the frame runs the same code as before, and
the result goes with the change of the stack depth. -/
def Act.Ensures {α : Type} (x : Act α) (P : α → Int → Prop) : Prop :=
  ∀ f w a f' w', x.run f w = .ok (a, f') w' →
    f'.code = f.code ∧ P a ((f'.stack.length : Int) - f.stack.length)

namespace Act

variable {α β : Type}

/-! ## Rules -/

/-- What an effect ensures, it ensures less exactly. -/
theorem Ensures.mono {x : Act α} {P Q : α → Int → Prop} (h : x.Ensures P)
    (hPQ : ∀ a d, P a d → Q a d) : x.Ensures Q := by
  intro f w a f' w' hrun
  obtain ⟨hcode, hP⟩ := h f w a f' w' hrun
  exact ⟨hcode, hPQ a _ hP⟩

theorem ensures_pure {a : α} {P : α → Int → Prop} (h : P a 0) : (pure a : Act α).Ensures P := by
  intro f w a' f' w' hrun
  cases hrun
  exact ⟨rfl, by simpa using h⟩

theorem ensures_throw {e : Failure} {P : α → Int → Prop} : (throw e : Act α).Ensures P := by
  intro f w a f' w' hrun
  cases hrun

theorem ensures_raise {kind : Fault.Kind} {message : String} {P : α → Int → Prop} :
    (raise kind message : Act α).Ensures P :=
  ensures_throw

/-- An effect that succeeds is one effect after another one, both of which succeed. -/
theorem run_bind_eq_ok {x : Act α} {k : α → Act β} {f : Frame} {w : World} {b : β} {f' : Frame}
    {w' : World} (h : (x >>= k).run f w = .ok (b, f') w') :
    ∃ a f₁ w₁, x.run f w = .ok (a, f₁) w₁ ∧ (k a).run f₁ w₁ = .ok (b, f') w' := by
  obtain ⟨⟨a, f₁⟩, w₁, hx, hk⟩ := bind_eq_ok h
  exact ⟨a, f₁, w₁, hx, hk⟩

/-- The changes of two effects after each other add up. -/
theorem Ensures.bind {x : Act α} {k : α → Act β} {P : α → Int → Prop} {Q : β → Int → Prop}
    (hx : x.Ensures P) (hk : ∀ a d, P a d → (k a).Ensures fun b e => Q b (d + e)) :
    (x >>= k).Ensures Q := by
  intro f w b f' w' hrun
  obtain ⟨a, f₁, w₁, hfirst, hrest⟩ := run_bind_eq_ok hrun
  obtain ⟨hcode, hP⟩ := hx f w a f₁ w₁ hfirst
  obtain ⟨hcode', hQ⟩ := hk a _ hP f₁ w₁ b f' w' hrest
  refine ⟨hcode'.trans hcode, ?_⟩
  have hsum : ((f₁.stack.length : Int) - f.stack.length) + (f'.stack.length - f₁.stack.length) =
      f'.stack.length - f.stack.length := by omega
  rwa [hsum] at hQ

/-- A part that leaves the frame as it is. -/
abbrev Neutral (x : Act α) : Prop := x.Ensures fun _ d => d = 0

/-- An effect that leaves the height of the stack can be skipped. -/
theorem Neutral.bind {x : Act α} {k : α → Act β} {Q : β → Int → Prop} (hx : x.Neutral)
    (hk : ∀ a, (k a).Ensures Q) : (x >>= k).Ensures Q := by
  refine Ensures.bind hx ?_
  rintro a _ rfl
  simpa using hk a

/-- Machine operations have no access to the frame. -/
theorem neutral_exec (x : Exec α) : Neutral (liftM x : Act α) := by
  intro f w a f' w' hrun
  obtain ⟨a₁, w₁, -, hpure⟩ := bind_eq_ok (k := fun a => pure (a, f)) hrun
  cases hpure
  simp

/-- Value operations have no access to the frame. -/
theorem neutral_op (x : Op α) : Neutral (liftM x : Act α) :=
  neutral_exec (Exec.lift x)

theorem neutral_get : Neutral (get : Act Frame) := by
  intro f w a f' w' hrun
  cases hrun
  simp

theorem neutral_provided (a? : Option α) : Neutral (provided a?) := by
  cases a? with
  | none => exact ensures_throw
  | some a => exact ensures_pure rfl

/-! ## Stack operations -/

theorem ensures_push (v : Value) : (push v).Ensures fun _ d => d = 1 := by
  intro f w a f' w' hrun
  cases hrun
  simp only [List.length_cons, true_and]
  omega

/-- Pushing several values. -/
theorem ensures_pushAll (vs : List Value) :
    (pushAll vs).Ensures fun _ d => d = (vs.length : Int) := by
  intro f w a f' w' hrun
  cases hrun
  exact ⟨rfl, by simp [Stack.pushAll]⟩

/-- Taking values off the stack of a frame. -/
theorem run_take {x : Stack → Except Failure (α × Stack)} {f f' : Frame} {w w' : World} {a : α}
    (h : (do
      let f ← get
      let (a, stack) ← Exec.ofExcept (x f.stack)
      set { f with stack }
      return a : Act α).run f w = .ok (a, f') w') :
    ∃ rest, x f.stack = .ok (a, rest) ∧ f' = { f with stack := rest } := by
  obtain ⟨f₀, f₁, w₁, hget, hrest⟩ := run_bind_eq_ok h
  cases hget
  obtain ⟨⟨b, stack⟩, f₁, w₁, htake, hset⟩ := run_bind_eq_ok hrest
  -- the world is not touched, so only the stack differs
  cases hx : x f.stack with
  | error e =>
      rw [hx] at htake
      cases htake
  | ok p =>
      rw [hx] at htake
      cases htake
      cases hset
      exact ⟨_, rfl, rfl⟩

theorem ensures_pop : pop.Ensures fun _ d => d = -1 := by
  intro f w a f' w' hrun
  obtain ⟨rest, hpop, rfl⟩ := run_take (x := Stack.pop) hrun
  refine ⟨rfl, ?_⟩
  cases hstack : f.stack with
  | nil => simp [hstack, Stack.pop, Stack.underflow] at hpop
  | cons v s =>
      rw [hstack] at hpop
      cases hpop
      simp only [List.length_cons]
      omega

/-- Popping several values, of which there are as many. -/
theorem ensures_popMany (n : Int) :
    (popMany n).Ensures fun vs d => d = -n ∧ (vs.length : Int) = n := by
  intro f w vs f' w' hrun
  obtain ⟨rest, hpop, rfl⟩ := run_take (x := fun s => s.popMany n) hrun
  refine ⟨rfl, ?_⟩
  unfold Stack.popMany at hpop
  split at hpop
  · rename_i hrange
    simp only [Bool.and_eq_true, decide_eq_true_eq] at hrange
    cases hpop
    simp only [List.length_reverse, List.length_take, List.length_drop]
    omega
  · cases hpop

theorem ensures_popTwo : popTwo.Ensures fun _ d => d = -2 := by
  refine (ensures_popMany 2).bind ?_
  rintro vs _ ⟨rfl, -⟩
  split
  · exact ensures_pure rfl
  · exact ensures_throw

/-- Looking at the stack leaves it. -/
theorem neutral_peek (depth : Int) : Neutral (peek depth) :=
  Neutral.bind neutral_get fun _ => neutral_exec _

/-! ## Variables -/

theorem neutral_setVariables (bs : Bindings) : Neutral (setVariables bs) := by
  unfold setVariables
  refine Neutral.bind neutral_get fun f => ?_
  split <;> exact neutral_exec _

/-- Reading the world leaves the stack. -/
theorem neutral_world {k : World → Act α} (h : ∀ w, Neutral (k w)) :
    Neutral (getThe World >>= k) :=
  Neutral.bind (neutral_exec _) h

theorem neutral_localBindings : Neutral localBindings := by
  refine Neutral.bind neutral_get fun f => ?_
  split
  · exact neutral_exec _
  · exact neutral_world fun w => ensures_pure rfl

theorem neutral_globals : Neutral globals :=
  neutral_world fun _ => ensures_pure rfl

theorem neutral_undefinedName (name : String) : Neutral (undefinedName name : Act α) :=
  ensures_raise

theorem neutral_unboundVariable (name : String) : Neutral (unboundVariable name : Act α) :=
  ensures_raise

theorem neutral_builtins : Neutral builtins :=
  neutral_world fun _ => ensures_pure rfl

/-- Looking up a name leaves the stack, whether or not the name is found. -/
theorem neutral_loadName (name : String) : Neutral (loadName name) := by
  refine neutral_localBindings.bind fun vs => neutral_builtins.bind fun bs =>
    neutral_globals.bind fun gs => ?_
  split
  · exact ensures_pure rfl
  · exact neutral_undefinedName name

theorem neutral_loadVariable (name : String) : Neutral (loadVariable name) := by
  refine neutral_localBindings.bind fun vs => ?_
  split
  · exact ensures_pure rfl
  · exact neutral_unboundVariable name

theorem neutral_loadGlobal (name : String) : Neutral (loadGlobal name) := by
  refine neutral_globals.bind fun gs => neutral_builtins.bind fun bs => ?_
  split
  · exact ensures_pure rfl
  · exact neutral_undefinedName name

theorem neutral_storeVariable (name : String) (v : Value) : Neutral (storeVariable name v) :=
  neutral_localBindings.bind fun _ => neutral_setVariables _

theorem neutral_storeGlobal (name : String) (v : Value) : Neutral (storeGlobal name v) :=
  neutral_globals.bind fun _ => neutral_exec _

theorem neutral_deleteVariable {name : String} {missing : String → Act Unit}
    (hmissing : Neutral (missing name)) : Neutral (deleteVariable name missing) := by
  refine neutral_localBindings.bind fun vs => ?_
  split
  · exact neutral_setVariables _
  · exact hmissing

theorem neutral_deleteGlobal (name : String) : Neutral (deleteGlobal name) := by
  refine neutral_globals.bind fun gs => ?_
  split
  · exact neutral_exec _
  · exact neutral_undefinedName name

/-! ## Building values -/

/-- A dict is pushed. -/
theorem ensures_buildDict (pairs : List (Value × Value)) :
    (buildDict pairs).Ensures fun _ d => d = 1 :=
  (neutral_op _).bind fun v => ensures_push v

theorem neutral_listAt (depth : Nat) : Neutral (listAt depth) := by
  refine (neutral_peek _).bind fun v => ?_
  split
  · exact ensures_pure rfl
  · exact ensures_raise

/-- Taking a value off the stack if a flag says so. -/
theorem ensures_popIf {flag : Bool} {k : Value → Act α} {a : α} (hk : ∀ v, Neutral (k v)) :
    (if flag then pop >>= k else pure a).Ensures fun _ d => d = if flag then -1 else 0 := by
  cases flag with
  | true =>
      refine ensures_pop.bind ?_
      rintro v _ rfl
      exact (hk v).mono fun _ d hd => by simp [hd]
  | false => exact ensures_pure rfl

/-- Formatting takes the value, and the specification if there is one. -/
theorem ensures_formatted (arg : Nat) :
    (formatted arg).Ensures fun _ d => d = (if Opcode.formatsWithSpec arg then -1 else 0) - 1 := by
  refine (ensures_popIf fun v => neutral_op _).bind ?_
  rintro spec _ rfl
  refine ensures_pop.bind ?_
  rintro v _ rfl
  have hconverted : Neutral (converted arg v) := by
    unfold converted
    split
    · exact ensures_pure rfl
    · exact neutral_op _
    · exact neutral_op _
    · exact ensures_raise
  refine hconverted.bind fun v => (neutral_op _).bind fun text => (neutral_op _).mono ?_
  rintro _ _ rfl
  omega

theorem ensures_popKeys (count : Nat) : (popKeys count).Ensures fun _ d => d = -1 := by
  refine ensures_pop.bind ?_
  rintro top _ rfl
  dsimp only
  split
  · exact ensures_pure rfl
  · exact (neutral_op _).bind fun text => ensures_raise

/-- When the number of items is as expected, the stack is left. -/
theorem ensures_expectItems (count : Nat) (items : List Value) :
    (expectItems count items).Ensures fun _ d => d = 0 ∧ items.length = count := by
  unfold expectItems
  split
  · exact ensures_raise
  · split
    · exact ensures_raise
    · exact ensures_pure ⟨rfl, by omega⟩

/-! ## Functions -/

theorem ensures_popCode : popCode.Ensures fun _ d => d = -1 := by
  refine ensures_pop.bind ?_
  rintro v _ rfl
  split
  · exact ensures_pure rfl
  · exact ensures_raise

theorem ensures_popKeywordDefaults (flags : Nat) : (popKeywordDefaults flags).Ensures fun _ d =>
    d = if Opcode.makesKeywordDefaults flags then -1 else 0 := by
  refine ensures_popIf fun v => ?_
  split
  · exact (neutral_op _).bind fun ref => ensures_pure rfl
  · exact ensures_raise

theorem ensures_popDefaults (flags : Nat) : (popDefaults flags).Ensures fun _ d =>
    d = if Opcode.makesDefaults flags then -1 else 0 := by
  refine ensures_popIf fun v => ?_
  split
  · exact ensures_pure rfl
  · exact ensures_raise

theorem neutral_snapshot : Neutral snapshot :=
  neutral_localBindings.bind fun _ => neutral_op _

/-- Making a function takes its code, and its defaults if there are any. -/
theorem ensures_makeFunction (flags : Nat) : (makeFunction flags).Ensures fun _ d =>
    d = (if Opcode.makesDefaults flags then -1 else 0) +
      (if Opcode.makesKeywordDefaults flags then -1 else 0) - 1 := by
  unfold makeFunction
  split
  · exact neutral_get.bind fun f => ensures_raise
  · refine ensures_popCode.bind ?_
    rintro code _ rfl
    refine (ensures_popKeywordDefaults flags).bind ?_
    rintro keywordDefaults _ rfl
    refine (ensures_popDefaults flags).bind ?_
    rintro defaults _ rfl
    refine neutral_snapshot.bind fun captured => (neutral_op _).mono ?_
    rintro _ _ rfl
    omega

/-- A mapping of keyword arguments is taken only if there is one. -/
theorem ensures_popMapping (flags : Nat) : (popMapping flags).Ensures fun _ d =>
    d = if Opcode.callsWithKeywords flags then -1 else 0 := by
  refine ensures_popIf fun v => ?_
  split
  · exact ensures_pure rfl
  · exact ensures_raise

/-- Going through a list with steps that leave the stack. -/
theorem neutral_foldlM {g : β → α → Act β} (hg : ∀ b a, Neutral (g b a)) (as : List α) (b : β) :
    Neutral (as.foldlM g b) := by
  induction as generalizing b with
  | nil => exact ensures_pure rfl
  | cons a as ih =>
      rw [List.foldlM_cons]
      exact (hg b a).bind ih

theorem neutral_mapM {g : α → Act β} (hg : ∀ a, Neutral (g a)) (as : List α) :
    Neutral (as.mapM g) := by
  induction as with
  | nil => exact ensures_pure rfl
  | cons a as ih =>
      rw [List.mapM_cons]
      exact (hg a).bind fun b => ih.bind fun bs => ensures_pure rfl

theorem neutral_pairKeywords (names values : List Value) : Neutral (pairKeywords names values) := by
  refine neutral_foldlM (fun entries p => ?_) _ _
  obtain ⟨name, v⟩ := p
  cases name with
  | str s id =>
      show Neutral (if entries.any (·.hash == .str s) then _ else _)
      split
      · exact ensures_raise
      · exact (neutral_op _).bind fun v => ensures_pure rfl
  | _ => exact ensures_raise

end Act

/-! ## Instructions -/

/-- Where an instruction may send control. -/
def Flow.Follows (i : Instruction) : Flow → Prop
  | .next => i.op ≠ .returnValue
  | .jump target => i.op.isJump = true ∧ i.target? = some target
  | .leave _ => i.op = .returnValue

/-- What an instruction does to control and to the depth of the stack. -/
def Instruction.Effect (i : Instruction) (flow : Flow) (d : Int) : Prop :=
  flow.Follows i ∧ d = i.op.stackEffect i.arg flow.isJump

namespace Frame

open Act

/-- A handler that ends by pushing a value. -/
theorem ensures_result {v : Value} {P : Flow → Int → Prop} (h : P .next 1) :
    (result v).Ensures P := by
  refine (ensures_push v).bind ?_
  rintro _ _ rfl
  exact ensures_pure h

/-- A handler that ends with a jump. -/
theorem ensures_jump {i : Instruction} {P : Flow → Int → Prop}
    (h : ∀ target, i.target? = some target → P (.jump target) 0) : (jump i).Ensures P := by
  unfold jump
  cases htarget : i.target? with
  | none => exact neutral_get.bind fun f => ensures_throw
  | some target => exact ensures_pure (h target htarget)

/-- Rotating takes values and pushes them again. -/
theorem ensures_rotate (n : Nat) {P : Flow → Int → Prop} (h : P .next 0) :
    (rotate n).Ensures P := by
  refine (ensures_popMany n).bind ?_
  rintro vs _ ⟨rfl, hlength⟩
  refine (ensures_pushAll _).bind ?_
  rintro _ _ rfl
  refine ensures_pure ?_
  have hzero : -(n : Int) + ((vs.drop (n - 1) ++ vs.take (n - 1)).length + 0) = 0 := by
    simp only [List.length_append, List.length_drop, List.length_take]
    omega
  rwa [hzero]

/-- The instructions of an operation keep to its stack effect. The proofs follow the handlers part
by part, and what remains is the sum of the changes. -/
def Obeys (s : Surroundings) (op : Opcode) : Prop :=
  ∀ i : Instruction, i.op = op → (execute s i).Ensures i.Effect

/-! ### Parts that handlers share -/

/-- Replacing the top of the stack. -/
theorem ensures_onTop {α : Type} {x : Value → Op α} {g : α → Value} {P : Flow → Int → Prop}
    (h : P .next 0) : (do result (g (← (x (← pop) : Op α))) : Act Flow).Ensures P := by
  refine ensures_pop.bind ?_
  rintro v _ rfl
  exact (neutral_op _).bind fun r => ensures_result h

/-- Making one value of several. -/
theorem ensures_gather {n : Nat} {x : List Value → Op Value} {P : Flow → Int → Prop}
    (h : P .next (1 - n)) : (do result (← (x (← popMany n) : Op Value)) : Act Flow).Ensures P := by
  refine (ensures_popMany n).bind ?_
  rintro vs _ ⟨rfl, -⟩
  refine (neutral_op _).bind fun r => ensures_result ?_
  rwa [Int.add_comm, ← Int.sub_eq_add_neg]

/-- Setting a variable to the top of the stack. -/
theorem ensures_store {name? : Option String} {P : Flow → Int → Prop} (h : P .next (-1)) :
    (do
      let v ← pop
      storeVariable (← provided name?) v
      return .next : Act Flow).Ensures P := by
  refine ensures_pop.bind ?_
  rintro v _ rfl
  exact (neutral_provided _).bind fun name => (neutral_storeVariable name v).bind fun _ =>
    ensures_pure h

/-- Calling a value with the arguments above it. -/
theorem ensures_callValue {s : Surroundings} {n : Nat} {P : Flow → Int → Prop}
    (h : P .next (-n)) :
    (do
      let args ← popMany n
      let f ← pop
      result (← (s.call f args [] : Exec Value)) : Act Flow).Ensures P := by
  refine (ensures_popMany n).bind ?_
  rintro args _ ⟨rfl, -⟩
  refine ensures_pop.bind ?_
  rintro f _ rfl
  refine (neutral_exec _).bind fun v => ensures_result ?_
  have hsum : -(n : Int) + (-1 + 1) = -n := by omega
  rwa [hsum]

section

variable (s : Surroundings)

/-! ### Values on the stack -/

theorem obeys_nop : Obeys s .nop := by
  rintro ⟨⟨_, arg, offset, size⟩, operand⟩ rfl
  exact ensures_pure ⟨nofun, rfl⟩

theorem obeys_popTop : Obeys s .popTop := by
  rintro ⟨⟨_, arg, offset, size⟩, operand⟩ rfl
  refine ensures_pop.bind ?_
  rintro _ _ rfl
  exact ensures_pure ⟨nofun, rfl⟩

/-- A copy of the top is pushed. -/
theorem obeys_dupTop : Obeys s .dupTop := by
  rintro ⟨⟨_, arg, offset, size⟩, operand⟩ rfl
  exact (neutral_peek 0).bind fun v => ensures_result ⟨nofun, rfl⟩

/-- Copies of the two topmost values are pushed. -/
theorem obeys_dupTopTwo : Obeys s .dupTopTwo := by
  rintro ⟨⟨_, arg, offset, size⟩, operand⟩ rfl
  refine (neutral_peek 1).bind fun second => (neutral_peek 0).bind fun first => ?_
  refine (ensures_pushAll _).bind ?_
  rintro _ _ rfl
  exact ensures_pure ⟨nofun, rfl⟩

/-! ### Operators and items -/

/-- Two operands are taken, and the result is pushed. -/
theorem obeys_binaryOp : Obeys s .binaryOp := by
  rintro ⟨⟨_, arg, offset, size⟩, operand⟩ rfl
  refine ensures_popTwo.bind ?_
  rintro ⟨a, b⟩ _ rfl
  refine (neutral_provided _).bind fun o => (neutral_op _).bind fun r => ?_
  exact ensures_result ⟨nofun, rfl⟩

theorem obeys_inplaceOp : Obeys s .inplaceOp := by
  rintro ⟨⟨_, arg, offset, size⟩, operand⟩ rfl
  refine ensures_popTwo.bind ?_
  rintro ⟨a, b⟩ _ rfl
  refine (neutral_provided _).bind fun o => (neutral_exec _).bind fun r => ?_
  exact ensures_result ⟨nofun, rfl⟩

theorem obeys_compareOp : Obeys s .compareOp := by
  rintro ⟨⟨_, arg, offset, size⟩, operand⟩ rfl
  refine ensures_popTwo.bind ?_
  rintro ⟨a, b⟩ _ rfl
  refine (neutral_provided _).bind fun c => (neutral_op _).bind fun r => ?_
  exact ensures_result ⟨nofun, rfl⟩

theorem obeys_isOp : Obeys s .isOp := by
  rintro ⟨⟨_, arg, offset, size⟩, operand⟩ rfl
  refine ensures_popTwo.bind ?_
  rintro ⟨a, b⟩ _ rfl
  exact (neutral_op _).bind fun r => ensures_result ⟨nofun, rfl⟩

theorem obeys_containsOp : Obeys s .containsOp := by
  rintro ⟨⟨_, arg, offset, size⟩, operand⟩ rfl
  refine ensures_popTwo.bind ?_
  rintro ⟨item, container⟩ _ rfl
  exact (neutral_exec _).bind fun found => ensures_result ⟨nofun, rfl⟩

theorem obeys_binarySubscr : Obeys s .binarySubscr := by
  rintro ⟨⟨_, arg, offset, size⟩, operand⟩ rfl
  refine ensures_popTwo.bind ?_
  rintro ⟨a, b⟩ _ rfl
  exact (neutral_op _).bind fun r => ensures_result ⟨nofun, rfl⟩

/-- The value, the container and the key are taken. -/
theorem obeys_storeSubscr : Obeys s .storeSubscr := by
  rintro ⟨⟨_, arg, offset, size⟩, operand⟩ rfl
  refine (ensures_popMany 3).bind ?_
  rintro vs _ ⟨rfl, -⟩
  split
  · exact (neutral_exec _).bind fun _ => ensures_pure ⟨nofun, rfl⟩
  · exact ensures_throw

/-- The container and the key are taken. -/
theorem obeys_deleteSubscr : Obeys s .deleteSubscr := by
  rintro ⟨⟨_, arg, offset, size⟩, operand⟩ rfl
  refine ensures_popTwo.bind ?_
  rintro ⟨container, key⟩ _ rfl
  exact (neutral_op _).bind fun _ => ensures_pure ⟨nofun, rfl⟩

/-! ### Building values -/

/-- Keys and values are taken in pairs, and a dict is pushed. -/
theorem obeys_buildMap : Obeys s .buildMap := by
  rintro ⟨⟨_, arg, offset, size⟩, operand⟩ rfl
  refine (ensures_popMany (2 * arg)).bind ?_
  rintro vs _ ⟨rfl, -⟩
  refine (ensures_buildDict _).bind ?_
  rintro _ _ rfl
  refine ensures_pure ⟨nofun, ?_⟩
  show -(2 * (arg : Int)) + (1 + 0) = 1 - 2 * arg
  omega

/-- The keys are taken with the values, in one tuple. -/
theorem obeys_buildConstKeyMap : Obeys s .buildConstKeyMap := by
  rintro ⟨⟨_, arg, offset, size⟩, operand⟩ rfl
  refine (ensures_popKeys arg).bind ?_
  rintro keys _ rfl
  refine (ensures_popMany arg).bind ?_
  rintro vs _ ⟨rfl, -⟩
  refine (ensures_buildDict _).bind ?_
  rintro _ _ rfl
  refine ensures_pure ⟨nofun, ?_⟩
  show -1 + (-(arg : Int) + (1 + 0)) = -arg
  omega

/-- Several strings are taken, and one is pushed. -/
theorem obeys_buildString : Obeys s .buildString := by
  rintro ⟨⟨_, arg, offset, size⟩, operand⟩ rfl
  refine (ensures_popMany arg).bind ?_
  rintro vs _ ⟨rfl, -⟩
  refine (neutral_mapM (fun v => neutral_op _) vs).bind fun texts => ?_
  refine (neutral_op _).bind fun r => ensures_result ⟨nofun, ?_⟩
  show -(arg : Int) + 1 = 1 - arg
  omega

/-- A slice has two or three bounds. -/
theorem obeys_buildSlice : Obeys s .buildSlice := by
  rintro ⟨⟨_, arg, offset, size⟩, operand⟩ rfl
  show (if _ then _ else _ : Act Flow).Ensures _
  split
  · exact ensures_raise
  · refine (ensures_popMany arg).bind ?_
    rintro vs _ ⟨rfl, -⟩
    refine (neutral_op _).bind fun r => ensures_result ⟨nofun, ?_⟩
    show -(arg : Int) + 1 = 1 - arg
    omega

/-! ### Sequences -/

/-- The sequence is taken and its items are pushed, of which there must be as many as the argument
says. -/
theorem obeys_unpackSequence : Obeys s .unpackSequence := by
  rintro ⟨⟨_, arg, offset, size⟩, operand⟩ rfl
  refine ensures_pop.bind ?_
  rintro v _ rfl
  refine (neutral_exec _).bind fun items => ?_
  refine (ensures_expectItems arg items).bind ?_
  rintro _ _ ⟨rfl, hlength⟩
  refine (ensures_pushAll _).bind ?_
  rintro _ _ rfl
  refine ensures_pure ⟨nofun, ?_⟩
  rw [List.length_reverse, hlength]
  show -1 + (0 + ((arg : Int) + 0)) = arg - 1
  omega

/-- The item is taken. The list stays where it is. -/
theorem obeys_listAppend : Obeys s .listAppend := by
  rintro ⟨⟨_, arg, offset, size⟩, operand⟩ rfl
  refine ensures_pop.bind ?_
  rintro v _ rfl
  exact (neutral_listAt arg).bind fun ref => (neutral_op _).bind fun _ =>
    ensures_pure ⟨nofun, rfl⟩

/-- The items are taken. The list stays where it is. -/
theorem obeys_listExtend : Obeys s .listExtend := by
  rintro ⟨⟨_, arg, offset, size⟩, operand⟩ rfl
  refine ensures_pop.bind ?_
  rintro iterable _ rfl
  exact (neutral_listAt arg).bind fun ref => (neutral_exec _).bind fun _ =>
    ensures_pure ⟨nofun, rfl⟩

/-- The value is taken, with a specification if the argument says so, and a string is pushed. -/
theorem obeys_formatValue : Obeys s .formatValue := by
  rintro ⟨⟨_, arg, offset, size⟩, operand⟩ rfl
  refine (ensures_formatted arg).bind ?_
  rintro v _ rfl
  refine ensures_result ⟨nofun, ?_⟩
  exact Int.sub_add_cancel _ 1

/-! ### Constants and names -/

/-- A constant is pushed. -/
theorem obeys_loadConst : Obeys s .loadConst := by
  rintro ⟨⟨_, arg, offset, size⟩, operand⟩ rfl
  exact neutral_get.bind fun f => (neutral_provided _).bind fun v =>
    ensures_result ⟨nofun, rfl⟩

theorem obeys_loadName : Obeys s .loadName := by
  rintro ⟨⟨_, arg, offset, size⟩, operand⟩ rfl
  exact (neutral_provided _).bind fun name => (neutral_loadName name).bind fun v =>
    ensures_result ⟨nofun, rfl⟩

theorem obeys_loadFast : Obeys s .loadFast := by
  rintro ⟨⟨_, arg, offset, size⟩, operand⟩ rfl
  exact (neutral_provided _).bind fun name => (neutral_loadVariable name).bind fun v =>
    ensures_result ⟨nofun, rfl⟩

theorem obeys_loadGlobal : Obeys s .loadGlobal := by
  rintro ⟨⟨_, arg, offset, size⟩, operand⟩ rfl
  exact (neutral_provided _).bind fun name => (neutral_loadGlobal name).bind fun v =>
    ensures_result ⟨nofun, rfl⟩

theorem obeys_storeGlobal : Obeys s .storeGlobal := by
  rintro ⟨⟨_, arg, offset, size⟩, operand⟩ rfl
  refine ensures_pop.bind ?_
  rintro v _ rfl
  exact (neutral_provided _).bind fun name => (neutral_storeGlobal name v).bind fun _ =>
    ensures_pure ⟨nofun, rfl⟩

theorem obeys_deleteName : Obeys s .deleteName := by
  rintro ⟨⟨_, arg, offset, size⟩, operand⟩ rfl
  refine (neutral_provided _).bind fun name => ?_
  exact (neutral_deleteVariable (neutral_undefinedName name)).bind fun _ =>
    ensures_pure ⟨nofun, rfl⟩

theorem obeys_deleteFast : Obeys s .deleteFast := by
  rintro ⟨⟨_, arg, offset, size⟩, operand⟩ rfl
  refine (neutral_provided _).bind fun name => ?_
  exact (neutral_deleteVariable (neutral_unboundVariable name)).bind fun _ =>
    ensures_pure ⟨nofun, rfl⟩

theorem obeys_deleteGlobal : Obeys s .deleteGlobal := by
  rintro ⟨⟨_, arg, offset, size⟩, operand⟩ rfl
  exact (neutral_provided _).bind fun name => (neutral_deleteGlobal name).bind fun _ =>
    ensures_pure ⟨nofun, rfl⟩

/-! ### Jumps -/

/-- The condition is taken, whether or not the jump is made. -/
theorem obeys_popJumpIfTrue : Obeys s .popJumpIfTrue := by
  rintro ⟨⟨_, arg, offset, size⟩, operand⟩ rfl
  refine ensures_pop.bind ?_
  rintro v _ rfl
  refine (neutral_op _).bind fun b => ?_
  split
  · exact ensures_jump fun target htarget => ⟨⟨rfl, htarget⟩, rfl⟩
  · exact ensures_pure ⟨nofun, rfl⟩

/-- So is it here. -/
theorem obeys_popJumpIfFalse : Obeys s .popJumpIfFalse := by
  rintro ⟨⟨_, arg, offset, size⟩, operand⟩ rfl
  refine ensures_pop.bind ?_
  rintro v _ rfl
  refine (neutral_op _).bind fun b => ?_
  split
  · exact ensures_pure ⟨nofun, rfl⟩
  · exact ensures_jump fun target htarget => ⟨⟨rfl, htarget⟩, rfl⟩

/-- The condition stays for the jump, and is taken otherwise. -/
theorem obeys_jumpIfTrueOrPop : Obeys s .jumpIfTrueOrPop := by
  rintro ⟨⟨_, arg, offset, size⟩, operand⟩ rfl
  refine (neutral_peek 0).bind fun v => (neutral_op _).bind fun b => ?_
  split
  · exact ensures_jump fun target htarget => ⟨⟨rfl, htarget⟩, rfl⟩
  · refine ensures_pop.bind ?_
    rintro _ _ rfl
    exact ensures_pure ⟨nofun, rfl⟩

/-- So it is here. -/
theorem obeys_jumpIfFalseOrPop : Obeys s .jumpIfFalseOrPop := by
  rintro ⟨⟨_, arg, offset, size⟩, operand⟩ rfl
  refine (neutral_peek 0).bind fun v => (neutral_op _).bind fun b => ?_
  split
  · refine ensures_pop.bind ?_
    rintro _ _ rfl
    exact ensures_pure ⟨nofun, rfl⟩
  · exact ensures_jump fun target htarget => ⟨⟨rfl, htarget⟩, rfl⟩

/-- The next item is pushed on top of the iterator. At its end the iterator is taken, and the jump
is made. -/
theorem obeys_forIter : Obeys s .forIter := by
  rintro ⟨⟨_, arg, offset, size⟩, operand⟩ rfl
  refine (neutral_peek 0).bind fun v => ?_
  split
  · refine (neutral_exec _).bind fun item? => ?_
    split
    · exact ensures_result ⟨nofun, rfl⟩
    · refine ensures_pop.bind ?_
      rintro _ _ rfl
      exact ensures_jump fun target htarget => ⟨⟨rfl, htarget⟩, rfl⟩
  · exact ensures_raise

/-- The value is taken, and control leaves the frame. -/
theorem obeys_returnValue : Obeys s .returnValue := by
  rintro ⟨⟨_, arg, offset, size⟩, operand⟩ rfl
  refine ensures_pop.bind ?_
  rintro v _ rfl
  exact ensures_pure ⟨rfl, rfl⟩

/-! ### Functions and calls -/

/-- The code and the defaults are taken, and a function is pushed. -/
theorem obeys_makeFunction : Obeys s .makeFunction := by
  rintro ⟨⟨_, arg, offset, size⟩, operand⟩ rfl
  refine (ensures_makeFunction arg).bind ?_
  rintro v _ rfl
  refine ensures_result ⟨nofun, ?_⟩
  exact Int.sub_add_cancel _ 1

/-- The callee, the arguments and the tuple of names are taken, and the result is pushed. -/
theorem obeys_callFunctionKw : Obeys s .callFunctionKw := by
  rintro ⟨⟨_, arg, offset, size⟩, operand⟩ rfl
  refine ensures_pop.bind ?_
  rintro names _ rfl
  split
  · split
    · exact ensures_raise
    · refine (ensures_popMany arg).bind ?_
      rintro values _ ⟨rfl, -⟩
      refine ensures_pop.bind ?_
      rintro f _ rfl
      refine (neutral_pairKeywords _ _).bind fun keywords => ?_
      refine (neutral_exec _).bind fun v => ensures_result ⟨nofun, ?_⟩
      show -1 + (-(arg : Int) + (-1 + 1)) = -arg - 1
      omega
  · exact ensures_raise

/-- The callee and the packed arguments are taken, with a mapping if the argument says so. -/
theorem obeys_callFunctionEx : Obeys s .callFunctionEx := by
  rintro ⟨⟨_, arg, offset, size⟩, operand⟩ rfl
  refine (ensures_popMapping arg).bind ?_
  rintro mapping? _ rfl
  refine ensures_pop.bind ?_
  rintro iterable _ rfl
  refine (neutral_exec _).bind fun args => ?_
  refine ensures_pop.bind ?_
  rintro f _ rfl
  refine (neutral_exec _).bind fun v => ensures_result ⟨nofun, ?_⟩
  show (if Opcode.callsWithKeywords arg then (-1 : Int) else 0) + (-1 + (-1 + 1)) =
    if Opcode.callsWithKeywords arg then -2 else -1
  split <;> omega

/-- The object is replaced by its method. -/
theorem obeys_loadMethod : Obeys s .loadMethod := by
  rintro ⟨⟨_, arg, offset, size⟩, operand⟩ rfl
  refine ensures_pop.bind ?_
  rintro receiver _ rfl
  exact (neutral_provided _).bind fun name => (neutral_op _).bind fun v =>
    ensures_result ⟨nofun, rfl⟩

/-- There is no handler for prefixes. -/
theorem obeys_extendedArg : Obeys s .extendedArg := by
  rintro ⟨⟨_, arg, offset, size⟩, operand⟩ rfl
  exact neutral_get.bind fun f => ensures_throw

end

/-- Every instruction keeps to its stack effect. -/
theorem execute_ensures (s : Surroundings) (i : Instruction) :
    (execute s i).Ensures i.Effect := by
  -- one lemma for each handler; a family shares the lemma of its common body
  cases hop : i.op with
  | nop => exact obeys_nop s i hop
  | popTop => exact obeys_popTop s i hop
  | rotTwo | rotThree | rotFour =>
      obtain ⟨⟨_, arg, offset, size⟩, operand⟩ := i
      cases hop
      exact ensures_rotate _ ⟨nofun, rfl⟩
  | dupTop => exact obeys_dupTop s i hop
  | dupTopTwo => exact obeys_dupTopTwo s i hop
  | unaryPositive | unaryNegative | unaryInvert | unaryNot | getIter =>
      obtain ⟨⟨_, arg, offset, size⟩, operand⟩ := i
      cases hop
      exact ensures_onTop ⟨nofun, rfl⟩
  | binaryOp => exact obeys_binaryOp s i hop
  | inplaceOp => exact obeys_inplaceOp s i hop
  | compareOp => exact obeys_compareOp s i hop
  | isOp => exact obeys_isOp s i hop
  | binarySubscr => exact obeys_binarySubscr s i hop
  | containsOp => exact obeys_containsOp s i hop
  | storeSubscr => exact obeys_storeSubscr s i hop
  | deleteSubscr => exact obeys_deleteSubscr s i hop
  | buildTuple | buildList =>
      obtain ⟨⟨_, arg, offset, size⟩, operand⟩ := i
      cases hop
      exact ensures_gather ⟨nofun, rfl⟩
  | buildMap => exact obeys_buildMap s i hop
  | buildConstKeyMap => exact obeys_buildConstKeyMap s i hop
  | buildString => exact obeys_buildString s i hop
  | buildSlice => exact obeys_buildSlice s i hop
  | unpackSequence => exact obeys_unpackSequence s i hop
  | listAppend => exact obeys_listAppend s i hop
  | listExtend => exact obeys_listExtend s i hop
  | formatValue => exact obeys_formatValue s i hop
  | loadConst => exact obeys_loadConst s i hop
  | loadName => exact obeys_loadName s i hop
  | loadFast => exact obeys_loadFast s i hop
  | loadGlobal => exact obeys_loadGlobal s i hop
  | storeName | storeFast =>
      obtain ⟨⟨_, arg, offset, size⟩, operand⟩ := i
      cases hop
      exact ensures_store ⟨nofun, rfl⟩
  | storeGlobal => exact obeys_storeGlobal s i hop
  | deleteName => exact obeys_deleteName s i hop
  | deleteFast => exact obeys_deleteFast s i hop
  | deleteGlobal => exact obeys_deleteGlobal s i hop
  | jumpForward | jumpAbsolute =>
      obtain ⟨⟨_, arg, offset, size⟩, operand⟩ := i
      cases hop
      exact ensures_jump fun target htarget => ⟨⟨rfl, htarget⟩, rfl⟩
  | popJumpIfTrue => exact obeys_popJumpIfTrue s i hop
  | popJumpIfFalse => exact obeys_popJumpIfFalse s i hop
  | jumpIfTrueOrPop => exact obeys_jumpIfTrueOrPop s i hop
  | jumpIfFalseOrPop => exact obeys_jumpIfFalseOrPop s i hop
  | forIter => exact obeys_forIter s i hop
  | returnValue => exact obeys_returnValue s i hop
  | makeFunction => exact obeys_makeFunction s i hop
  | callFunction | callMethod =>
      obtain ⟨⟨_, arg, offset, size⟩, operand⟩ := i
      cases hop
      exact ensures_callValue ⟨nofun, rfl⟩
  | callFunctionKw => exact obeys_callFunctionKw s i hop
  | callFunctionEx => exact obeys_callFunctionEx s i hop
  | loadMethod => exact obeys_loadMethod s i hop
  | extendedArg => exact obeys_extendedArg s i hop

/-- An instruction that succeeds, in any frame and whatever the calls it makes do, changes the depth
of the stack by the published stack effect. The effect is that of a jump exactly when control goes
to the target. -/
theorem stackEffect?_of_execute {s : Surroundings} {i : Instruction} {f f' : Frame} {w w' : World}
    {flow : Flow} (h : (execute s i).run f w = .ok (flow, f') w') :
    Opcode.stackEffect? i.op.number i.arg flow.isJump =
        some ((f'.stack.length : Int) - f.stack.length) ∧
      ∀ target, flow = .jump target → i.target? = some target := by
  obtain ⟨-, hfollows, hdepth⟩ := execute_ensures s i f w flow f' w' h
  constructor
  · rw [Opcode.stackEffect?, Opcode.ofNumber?_number, Option.map_some, hdepth]
  · rintro target rfl
    exact hfollows.2

/-- A conditional jump that is taken. -/
theorem stackEffect?_of_taken_jump :
    let s : Surroundings := ⟨fun _ _ _ => throw .crash, 0⟩
    let i : Instruction := ⟨⟨.popJumpIfTrue, 6, 2, 2⟩, .target 6⟩
    let f : Frame := { code := default, locals := .globals, stack := [.bool true, .none] }
    (execute s i).run f {} = .ok (.jump 6, { f with stack := [.none] }) {} ∧
      Opcode.stackEffect? i.op.number i.arg true = some (1 - 2) ∧
      ∀ target, Flow.jump 6 = .jump target → i.target? = some target := by
  intro s i f
  have hrun : (execute s i).run f {} = .ok (.jump 6, { f with stack := [.none] }) {} := rfl
  exact ⟨hrun, stackEffect?_of_execute hrun⟩

end Frame

end Wordcode
