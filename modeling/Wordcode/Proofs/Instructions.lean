import Wordcode.Proofs.Callbacks
import Mathlib

namespace Wordcode

/-! # Instructions

What an instruction does is a script: apart from the calls that it makes, it is confined.

* `Act.Confined` says this of an effect that makes no calls, with the rules of computations.
* `Composite.execute` goes through the instructions. Only those that unpack need relays.
-/

/-! ## Effects that make no calls -/

namespace Act

variable {α β : Type}

/-- An effect that is confined in whatever frame it happens. -/
def Confined (x : Act α) : Prop := ∀ f, Wordcode.Confined (x.run f)

@[grind ←]
theorem confined_pure (a : α) : Confined (pure a) := fun f => Wordcode.confined_pure (a, f)

@[grind ←]
theorem confined_throw {e : Failure} (h : e.Untraced) : Confined (throw e : Act α) :=
  fun _ => Wordcode.confined_throw h

/-- One confined effect after another one. -/
@[grind ←]
theorem Confined.bind {x : Act α} {k : α → Act β} (hx : Confined x) (hk : ∀ a, Confined (k a)) :
    Confined (x >>= k) :=
  fun f => (hx f).bind fun p => hk p.1 p.2

@[grind ←]
theorem confined_get : Confined (get : Act Frame) := fun f => Wordcode.confined_pure (f, f)

@[grind ←]
theorem confined_set (f : Frame) : Confined (set f : Act PUnit) :=
  fun _ => Wordcode.confined_pure (PUnit.unit, f)

@[grind ←]
theorem confined_modify (g : Frame → Frame) : Confined (modify g : Act PUnit) :=
  fun f => Wordcode.confined_pure (PUnit.unit, g f)

/-- What is confined in the world is confined in a frame. -/
@[grind ←]
theorem confined_liftExec {x : Exec α} (hx : Wordcode.Confined x) :
    Confined (liftM x : Act α) :=
  fun f => hx.bind fun a => Wordcode.confined_pure (a, f)

@[grind ←]
theorem confined_liftOp {x : Op α} (hx : Local Store.fixed x) : Confined (liftM x : Act α) :=
  confined_liftExec (Exec.confined_lift hx)

/-- A change that goes by no more than the part of the world that programs reach. -/
theorem confined_modifyWorld {g : World → World} (h : ∀ w r, g (w.within r) = (g w).within r) :
    Confined (modifyThe World g : Act PUnit) :=
  confined_liftExec (Exec.confined_modify h)

theorem confined_foldlM {f : β → α → Act β} (h : ∀ b a, Confined (f b a)) (as : List α) (b : β) :
    Confined (as.foldlM f b) := by
  induction as generalizing b with
  | nil => exact confined_pure b
  | cons a as ih =>
      rw [List.foldlM_cons]
      exact (h b a).bind ih

@[grind ←]
theorem confined_mapM {f : α → Act β} (h : ∀ a, Confined (f a)) (as : List α) :
    Confined (as.mapM f) := by
  induction as with
  | nil => exact confined_pure []
  | cons a as ih =>
      rw [List.mapM_cons]
      exact (h a).bind fun b => ih.bind fun bs => confined_pure (b :: bs)

@[grind ←]
theorem confined_raise (kind : Fault.Kind) (message : String) :
    Confined (raise kind message : Act α) :=
  confined_throw (Failure.untraced_raise kind message)

@[grind ←]
theorem confined_provided (a? : Option α) : Confined (provided a?) := by
  unfold provided
  grind

/-! ### The stack -/

@[grind ←]
theorem confined_push (v : Value) : Confined (push v) := by
  unfold push
  grind

@[grind ←]
theorem confined_pushAll (vs : List Value) : Confined (pushAll vs) := by
  unfold pushAll
  grind

@[grind ←]
theorem confined_pop : Confined pop := by
  unfold pop
  grind

@[grind ←]
theorem confined_popMany (count : Int) : Confined (popMany count) := by
  unfold popMany
  grind

@[grind ←]
theorem confined_popTwo : Confined popTwo := by
  unfold popTwo
  grind

@[grind ←]
theorem confined_peek (depth : Int) : Confined (peek depth) := by
  unfold peek
  grind

/-! ### Names -/

@[grind ←]
theorem confined_globals : Confined globals :=
  confined_liftExec (Exec.confined_gets (f := World.globals) fun _ _ => rfl)

@[grind ←]
theorem confined_builtins : Confined builtins :=
  confined_liftExec (Exec.confined_gets (f := World.builtins) fun _ _ => rfl)

@[grind ←]
theorem confined_localBindings : Confined localBindings := by
  unfold localBindings
  refine confined_get.bind fun f => ?_
  cases f.locals with
  | own scope => exact confined_liftOp (Op.local_scope scope)
  | globals => exact confined_globals

@[grind ←]
theorem confined_setGlobals (bs : Bindings) : Confined (setGlobals bs) :=
  confined_modifyWorld fun _ _ => rfl

@[grind ←]
theorem confined_setVariables (bs : Bindings) : Confined (setVariables bs) := by
  unfold setVariables
  grind

@[grind ←]
theorem confined_undefinedName (name : String) : Confined (undefinedName name : Act α) :=
  confined_raise _ _

@[grind ←]
theorem confined_unboundVariable (name : String) : Confined (unboundVariable name : Act α) :=
  confined_raise _ _

@[grind ←]
theorem confined_loadName (name : String) : Confined (loadName name) := by
  unfold loadName
  grind

@[grind ←]
theorem confined_loadVariable (name : String) : Confined (loadVariable name) := by
  unfold loadVariable
  grind

@[grind ←]
theorem confined_loadGlobal (name : String) : Confined (loadGlobal name) := by
  unfold loadGlobal
  grind

@[grind ←]
theorem confined_storeVariable (name : String) (v : Value) : Confined (storeVariable name v) := by
  unfold storeVariable
  grind

@[grind ←]
theorem confined_storeGlobal (name : String) (v : Value) : Confined (storeGlobal name v) := by
  unfold storeGlobal
  grind

@[grind ←]
theorem confined_deleteVariable (name : String) {missing : String → Act Unit}
    (h : ∀ name, Confined (missing name)) : Confined (deleteVariable name missing) := by
  unfold deleteVariable
  grind

@[grind ←]
theorem confined_deleteGlobal (name : String) : Confined (deleteGlobal name) := by
  unfold deleteGlobal
  grind

/-! ### Building values -/

@[grind ←]
theorem confined_buildDict (pairs : List (Value × Value)) : Confined (buildDict pairs) := by
  unfold buildDict
  grind

@[grind ←]
theorem confined_listAt (depth : Nat) : Confined (listAt depth) := by
  unfold listAt
  grind

@[grind ←]
theorem confined_popSpecification (arg : Nat) : Confined (popSpecification arg) := by
  unfold popSpecification
  grind

@[grind ←]
theorem confined_converted (arg : Nat) (v : Value) : Confined (converted arg v) := by
  unfold converted
  grind

@[grind ←]
theorem confined_formatted (arg : Nat) : Confined (formatted arg) := by
  unfold formatted
  grind

@[grind ←]
theorem confined_popKeys (count : Nat) : Confined (popKeys count) := by
  unfold popKeys
  grind

@[grind ←]
theorem confined_expectItems (count : Nat) (items : List Value) :
    Confined (expectItems count items) := by
  unfold expectItems
  grind

/-! ### Functions and arguments -/

@[grind ←]
theorem confined_popCode : Confined popCode := by
  unfold popCode
  grind

@[grind ←]
theorem confined_popKeywordDefaults (flags : Nat) : Confined (popKeywordDefaults flags) := by
  unfold popKeywordDefaults
  grind

@[grind ←]
theorem confined_popDefaults (flags : Nat) : Confined (popDefaults flags) := by
  unfold popDefaults
  grind

@[grind ←]
theorem confined_snapshot : Confined snapshot := by
  unfold snapshot
  grind

@[grind ←]
theorem confined_makeFunction (flags : Nat) : Confined (makeFunction flags) := by
  unfold makeFunction
  grind

@[grind ←]
theorem confined_popMapping (flags : Nat) : Confined (popMapping flags) := by
  unfold popMapping
  grind

@[grind ←]
theorem confined_pairKeywords (names values : List Value) :
    Confined (pairKeywords names values) := by
  unfold pairKeywords
  refine confined_foldlM ?_ _ _
  rintro entries ⟨name, v⟩
  grind

/-! ### Control -/

@[grind ←]
theorem confined_jump (i : Instruction) : Confined (Frame.jump i) := by
  unfold Frame.jump
  grind

@[grind ←]
theorem confined_result (v : Value) : Confined (Frame.result v) := by
  unfold Frame.result
  grind

@[grind ←]
theorem confined_rotate (n : Nat) : Confined (Frame.rotate n) := by
  unfold Frame.rotate
  grind

end Act

/-! ## Effects that make calls -/

/-- An effect that is a routine in whatever frame it happens. -/
def Act.Script {α : Type} (x : Invoke → Act α) : Prop :=
  ∀ f, Wordcode.Script Wordcode.Confined fun invoke => (x invoke).run f

/-- An effect that is put together from confined ones in whatever frame it happens. -/
def Act.Composite {α : Type} (relays : Prop) (x : Invoke → Act α) : Prop :=
  ∀ f, Wordcode.Composite relays Wordcode.Confined fun invoke => (x invoke).run f

namespace Act.Composite

variable {α β : Type} {relays : Prop}

/-- An effect of the frame's own makes no calls. -/
theorem own {x : Act α} (hx : Act.Confined x) : Act.Composite relays fun _ => x :=
  fun f => .own (hx f)

/-- One effect after another one. -/
theorem bind {x : Invoke → Act α} {k : α → Invoke → Act β} (hx : Act.Composite relays x)
    (hk : ∀ a, Act.Composite relays (k a)) :
    Act.Composite relays fun invoke => x invoke >>= fun a => k a invoke :=
  fun f => .bind (hx f) fun p => hk p.1 p.2

/-- Calls that are made in the world. -/
theorem lift {x : Invoke → Exec α} (hx : Wordcode.Composite relays Wordcode.Confined x) :
    Act.Composite relays fun invoke => (liftM (x invoke) : Act α) :=
  fun f => .bind hx fun a => .pure (a, f)

end Act.Composite

/-- An instruction that unpacks an iterable. -/
def Opcode.unpacks (op : Opcode) : Prop := op = .unpackSequence ∨ op = .callFunctionEx

namespace Composite

variable {relays : Prop} (fuel : Nat)

/-- Calls from iterators and key functions. -/
theorem callback (f : Value) (args : List Value) :
    Composite relays Confined fun invoke =>
      (⟨invoke, fuel⟩ : Surroundings).callback f args :=
  .call f args []

/-- Calls from instructions. -/
theorem callValue (f : Value) (args : List Value) (keywords : List Entry) :
    Composite relays Confined fun invoke =>
      (⟨invoke, fuel⟩ : Surroundings).call f args keywords := by
  unfold Surroundings.call
  exact .bind (.call f args keywords) fun v? => .pure _

/-- Merging a mapping last makes no calls. -/
theorem callWith (f : Value) (args : List Value) (mapping? : Option Nat) :
    Composite relays Confined fun invoke =>
      (⟨invoke, fuel⟩ : Surroundings).callWith f args mapping? := by
  have hmerge (ref mapping : Nat) : Composite relays Confined fun invoke =>
      Exec.update (⟨invoke, fuel⟩ : Surroundings).callback fuel ref (.dict mapping) := by
    have hlocal : Confined (do Op.dictMerge ref (← Op.entries mapping) : Exec Unit) := by grind
    exact .own hlocal
  cases mapping? with
  | none => exact callValue fuel f args []
  | some mapping =>
      unfold Surroundings.callWith
      dsimp only
      -- `dict` and `update` get the mapping merged, all others get its entries
      split
      · refine .bind (callValue fuel _ args []) fun v => ?_
        split
        · exact .bind (hmerge _ _) fun _ => .pure _
        · exact .bind (.own (confined_throw Failure.untraced_crash)) fun _ => .pure v
      · refine .bind (callValue fuel _ args []) fun v => ?_
        exact .bind (hmerge _ _) fun _ => .pure v
      · refine .bind (.own (Exec.confined_lift (Op.local_entries mapping))) fun keywords => ?_
        exact callValue fuel f args keywords

/-- Executing an instruction is a routine, and failures come out of it as they are unless it
unpacks. -/
theorem execute (i : Instruction) (hrelays : i.op.unpacks → relays) :
    Act.Composite relays fun invoke => Frame.execute ⟨invoke, fuel⟩ i := by
  have hcall : ∀ f args, Composite relays Confined fun invoke =>
      (⟨invoke, fuel⟩ : Surroundings).callback f args := callback fuel
  unfold Frame.execute
  -- the instructions that iterate, test for membership or call may call back; all others are local
  cases hop : i.op with
  | inplaceOp =>
      refine .bind (.own (by grind)) fun p => .bind (.own (by grind)) fun o => ?_
      exact .bind (.lift (inplace hcall fuel o p.1 p.2)) fun v => .own (by grind)
  | containsOp =>
      refine .bind (.own (by grind)) fun p => ?_
      exact .bind (.lift (contains hcall fuel p.2 p.1)) fun b => .own (by grind)
  | storeSubscr =>
      refine .bind (.own (by grind)) fun vs => ?_
      split
      · exact .bind (.lift (setItem hcall fuel _ _ _)) fun _ => .own (by grind)
      · exact .own (by grind)
  | unpackSequence =>
      have hadmitted : relays := hrelays (Or.inl hop)
      refine .bind (.own (by grind)) fun v => ?_
      refine .bind (.lift (.orError hadmitted (collect hcall fuel v) (Failure.untraced_raise _ _)
        rfl)) fun vs => .own (by grind)
  | listExtend =>
      refine .bind (.own (by grind)) fun v => .bind (.own (by grind)) fun ref => ?_
      exact .bind (.lift (extend hcall fuel ref v)) fun _ => .own (by grind)
  | forIter =>
      refine .bind (.own (by grind)) fun v => ?_
      split
      · exact .bind (.lift (next hcall fuel _)) fun v? => .own (by grind)
      · exact .own (by grind)
  | callFunction | callMethod =>
      refine .bind (.own (by grind)) fun args => .bind (.own (by grind)) fun f => ?_
      exact .bind (.lift (callValue fuel f args [])) fun v => .own (by grind)
  | callFunctionKw =>
      refine .bind (.own (by grind)) fun v => ?_
      split
      · split
        · exact .own (by grind)
        · refine .bind (.own (by grind)) fun values => .bind (.own (by grind)) fun f => ?_
          refine .bind (.own (by grind)) fun keywords => ?_
          exact .bind (.lift (callValue fuel f _ keywords)) fun v => .own (by grind)
      · exact .own (by grind)
  | callFunctionEx =>
      have hadmitted : relays := hrelays (Or.inr hop)
      refine .bind (.own (by grind)) fun mapping? => .bind (.own (by grind)) fun v => ?_
      refine .bind (.lift (.orError hadmitted (collect hcall fuel v) (Failure.untraced_raise _ _)
        rfl)) fun args => .bind (.own (by grind)) fun f => ?_
      exact .bind (.lift (callWith fuel f args mapping?)) fun v => .own (by grind)
  | _ =>
      dsimp only
      exact .own (by grind)

end Composite

/-- Executing an instruction is a routine. -/
theorem Script.execute (fuel : Nat) (i : Instruction) :
    Act.Script fun invoke => Frame.execute ⟨invoke, fuel⟩ i :=
  fun f => (Composite.execute fuel i (fun _ => True.intro) f).script

end Wordcode
