import Wordcode.Machine
import Wordcode.Proofs.Scripts
import Wordcode.Proofs.Sorting
import Mathlib

namespace Wordcode

/-! # Updates of lists that fail

An update of a list first finds out everything that can go wrong: it takes the items of its operand,
resolves positions, calls the key function and compares the keys. It writes once, at the end, and
that does not fail. So an update that fails has left the items of the list as they were, unless the
program changed them while it was called for the operand or for the keys.

* `Leaves` is a run that leaves a part of the state alone, and `Spares` is one that does so if it
  fails.
* `ListCommand` are the updates, and `ListCommand.Undisturbed` says that the program does not reach
  the list while one is under way.
* `ListCommand.items_eq_of_error` is the result.
-/

/-! ## Runs that leave a part of the state alone -/

section

variable {ε σ κ α β : Type} {part : σ → κ} {x : EStateM ε σ α} {k : α → EStateM ε σ β} {s : σ}

/-- Whatever its outcome, a run leaves a part of the state as it is. -/
def Leaves (part : σ → κ) (x : EStateM ε σ α) (s : σ) : Prop :=
  (∀ a s', x s = .ok a s' → part s' = part s) ∧ ∀ e s', x s = .error e s' → part s' = part s

/-- A run that fails leaves a part of the state as it is. -/
def Spares (part : σ → κ) (x : EStateM ε σ α) (s : σ) : Prop :=
  ∀ e s', x s = .error e s' → part s' = part s

/-- What leaves a part alone in any case spares it when it fails. -/
theorem Leaves.spares (h : Leaves part x s) : Spares part x s := h.2

/-- What is local leaves the part alone in every state. -/
theorem Local.leaves {x : EStateM Failure σ α} (h : Local part x) (s : σ) : Leaves part x s :=
  ⟨(h s).1, fun e s' hrun => ((h s).2 e s' hrun).1⟩

/-- A success that leaves the part. -/
theorem leaves_of_ok {a : α} {s' : σ} (h : x s = .ok a s') (hpart : part s' = part s) :
    Leaves part x s := by
  refine ⟨fun b s₁ hrun => ?_, fun e s₁ hrun => ?_⟩
  · rw [h] at hrun
    cases hrun
    exact hpart
  · rw [h] at hrun
    cases hrun

/-- A failure that leaves the part. -/
theorem leaves_of_error {e : ε} {s' : σ} (h : x s = .error e s') (hpart : part s' = part s) :
    Leaves part x s := by
  refine ⟨fun a s₁ hrun => ?_, fun e₁ s₁ hrun => ?_⟩
  · rw [h] at hrun
    cases hrun
  · rw [h] at hrun
    cases hrun
    exact hpart

theorem leaves_pure (a : α) : Leaves part (pure a : EStateM ε σ α) s := leaves_of_ok rfl rfl

theorem leaves_throw (e : ε) : Leaves part (throw e : EStateM ε σ α) s := leaves_of_error rfl rfl

/-- What comes before the last step must leave the part alone, and the last step must do so if it
fails. -/
theorem Spares.bind (hx : Leaves part x s) (hk : ∀ a s', x s = .ok a s' → Spares part (k a) s') :
    Spares part (x >>= k) s := by
  intro e s' h
  obtain hfirst | ⟨a, s₁, hfirst, hlast⟩ := bind_eq_error h
  · exact hx.2 e s' hfirst
  · exact (hk a s₁ hfirst e s' hlast).trans (hx.1 a s₁ hfirst)

/-- A last step that does not fail makes no difference. -/
theorem Spares.then_ok (hx : Spares part x s) (hk : ∀ a s₁, ∃ b s', k a s₁ = .ok b s') :
    Spares part (x >>= k) s := by
  intro e s' h
  obtain hfirst | ⟨a, s₁, -, hlast⟩ := bind_eq_error h
  · exact hx e s' hfirst
  · obtain ⟨b, s₂, hok⟩ := hk a s₁
    rw [hok] at hlast
    cases hlast

/-- A run that does not fail. -/
theorem spares_of_ok {a : α} {s' : σ} (h : x s = .ok a s') : Spares part x s := by
  intro e s₁ hrun
  rw [h] at hrun
  cases hrun

end

/-- The items of a list in the state of a machine. -/
def World.items (ref : Nat) (w : World) : List Value := w.store.items ref

namespace Exec

variable {α : Type} {call : Callback} {fuel ref : Nat} {w : World}

/-- What is local to the items of a list in the store is so in the world. -/
theorem local_liftItems {x : Op α} (hx : Local (fun s => s.items ref) x) :
    Local (World.items ref) (liftM x : Exec α) :=
  local_liftPart hx

/-- What spares them in the store spares them in the world. -/
theorem spares_lift {x : Op α} (hx : Spares (fun s => s.items ref) x w.store) :
    Spares (World.items ref) (liftM x : Exec α) w := by
  intro e w' h
  cases hrun : x w.store with
  | ok a s =>
      rw [lift_of_ok hrun] at h
      cases h
  | error e₁ s =>
      rw [lift_of_error hrun] at h
      cases h
      exact hx _ _ hrun

theorem leaves_items : Leaves (World.items ref) (liftM (Op.items ref) : Exec (List Value)) w :=
  (local_liftItems (Op.local_items ref)).leaves w

theorem leaves_ofExcept (x : Except Failure α) : Leaves (World.items ref) (ofExcept x) w := by
  cases x with
  | ok a => exact leaves_pure a
  | error e => exact leaves_throw e

/-! ## Assignment, deletion and extension -/

/-- A failed assignment. Only collecting the items for a slice can have called something. -/
theorem spares_setItem {key value : Value}
    (h : ∀ a b c id, key = .slice a b c id → Leaves (World.items ref) (collect call fuel value) w) :
    Spares (World.items ref) (setItem call fuel (.list ref) key value) w := by
  cases key with
  | slice a b c id =>
      refine Spares.bind (h a b c id rfl) fun values w₁ _ => ?_
      refine Spares.bind leaves_items fun xs w₂ _ => ?_
      refine Spares.bind (leaves_ofExcept _) fun ys w₃ _ => ?_
      split <;> exact spares_of_ok rfl
  | _ =>
      refine Spares.bind leaves_items fun xs w₁ _ => ?_
      refine Spares.bind (leaves_ofExcept _) fun index w₂ _ => ?_
      exact Spares.bind (leaves_ofExcept _) fun i w₃ _ => spares_of_ok rfl

/-- A failed extension. -/
theorem spares_extend {operand : Value}
    (h : Leaves (World.items ref) (collect call fuel operand) w) :
    Spares (World.items ref) (extend call fuel ref operand) w := by
  refine Spares.bind h fun new w₁ _ => ?_
  exact Spares.bind leaves_items fun xs w₂ _ => spares_of_ok rfl

/-- A failed deletion. -/
theorem spares_delItem (key : Value) :
    Spares (World.items ref) (liftM (Op.delItem (.list ref) key) : Exec Unit) w := by
  have hitems (s : Store) : Leaves (fun s => s.items ref) (Op.items ref) s :=
    (Op.local_items ref).leaves s
  have hofExcept {β : Type} (x : Except Failure β) (s : Store) :
      Leaves (fun s => s.items ref) (Op.ofExcept x) s := by
    cases x with
    | ok a => exact leaves_pure a
    | error e => exact leaves_throw e
  refine spares_lift ?_
  -- the items are written last, once nothing can fail any more
  cases key with
  | slice a b c id =>
      refine Spares.bind (hitems _) fun xs s₁ _ => ?_
      exact Spares.bind (hofExcept _ _) fun ys s₂ _ => spares_of_ok rfl
  | _ =>
      refine Spares.bind (hitems _) fun xs s₁ _ => ?_
      refine Spares.bind (hofExcept _ _) fun index s₂ _ => ?_
      exact Spares.bind (hofExcept _ _) fun i s₃ _ => spares_of_ok rfl

/-! ## Sorting -/

/-- Reading sorting options leaves lists alone. -/
theorem local_sortOptions (name : String) (keywords : List Entry) :
    Local (World.items ref) (sortOptions name keywords) := by
  unfold sortOptions
  refine local_foldlM (fun options e => ?_) keywords _
  repeat' split
  all_goals grind [local_liftItems]

/-- Making a block for a list leaves the list alone. -/
theorem leaves_blockOf : Leaves (World.items ref) (liftM (Op.blockOf ref) : Exec Nat) w := by
  cases hblock : Op.blockOf ref w.store with
  | ok block s =>
      obtain ⟨-, blocks, rfl⟩ := Store.list?_of_blockOf hblock
      exact leaves_of_ok (lift_of_ok hblock) rfl
  | error e s => cases hblock

/-- The list is only written to in the end, when nothing can fail any more. -/
theorem spares_sortList {options : SortOptions}
    (h : ∀ block w₁, (liftM (Op.blockOf ref) : Exec Nat) w = .ok block w₁ →
      Leaves (World.items ref) (cellKeys call options.key? block (w.store.items ref).length) w₁) :
    Spares (World.items ref) (sortList call options ref) w := by
  refine Spares.bind leaves_items fun xs w₁ hxs => ?_
  cases hxs
  refine Spares.bind leaves_blockOf fun block w₂ hblock => ?_
  refine Spares.bind (h block w₂ hblock) fun keyed w₃ _ => ?_
  refine Spares.bind (Local.leaves (local_liftItems (Op.local_inOrder _ _)) _) fun order w₄ _ => ?_
  refine Spares.bind (Local.leaves (local_liftItems (Op.local_cells _)) _) fun cells w₅ _ => ?_
  exact spares_of_ok rfl

/-! ## Methods -/

/-- A failed method, one case for each. -/
theorem spares_listMethod (m : ListMethod) (args : List Value) (keywords : List Entry)
    (hextend : m = .extend → Leaves (World.items ref) (collect call fuel (args.headD .none)) w)
    (hsort : m = .sort → ∀ options w₁, sortOptions "list.sort" keywords w = .ok options w₁ →
      ∀ block w₂, (liftM (Op.blockOf ref) : Exec Nat) w₁ = .ok block w₂ →
        Leaves (World.items ref) (cellKeys call options.key? block (w.store.items ref).length)
          w₂) :
    Spares (World.items ref) (listMethod call fuel ref m args keywords) w := by
  have hleaves {β : Type} {x : Op β} (hx : Local (fun s => s.items ref) x) {w : World} :
      Leaves (World.items ref) (liftM x : Exec β) w :=
    (local_liftItems hx).leaves w
  refine Spares.bind leaves_items fun xs w₁ hxs => ?_
  cases hxs
  -- whatever can fail comes before the list is changed
  cases m with
  | append | clear | copy | reverse => exact spares_of_ok rfl
  | count =>
      exact Spares.bind (hleaves (Op.local_countOf _ _)) fun n w₂ _ => spares_of_ok rfl
  | extend => exact (spares_extend (hextend rfl)).then_ok fun _ _ => ⟨_, _, rfl⟩
  | index =>
      refine Spares.bind (hleaves (Op.local_indexOf? _ _)) fun i? w₂ _ => ?_
      cases i? with
      | some i => exact spares_of_ok rfl
      | none =>
          refine Spares.bind (hleaves (Op.local_repr _)) fun text w₃ _ => (leaves_throw _).spares
  | insert => exact Spares.bind (leaves_ofExcept _) fun index w₂ _ => spares_of_ok rfl
  | pop =>
      dsimp only
      split <;> refine Spares.bind ?_ fun index w₂ _ => ?_
      case h_1.refine_1 => exact leaves_pure _
      case h_2.refine_1 => exact leaves_ofExcept _
      all_goals
        split
        · refine Spares.bind (leaves_throw _) fun _ _ h => ?_
          cases h
        · refine Spares.bind (leaves_ofExcept _) fun i w₃ _ => ?_
          split
          · exact spares_of_ok rfl
          · exact (leaves_throw _).spares
  | remove =>
      refine Spares.bind (hleaves (Op.local_indexOf? _ _)) fun i? w₂ _ => ?_
      cases i? with
      | some i => exact spares_of_ok rfl
      | none => exact (leaves_throw _).spares
  | sort =>
      refine Spares.bind ((local_sortOptions _ _).leaves _) fun options w₂ hoptions => ?_
      have hitems : w₂.store.items ref = w.store.items ref :=
        ((local_sortOptions _ _).leaves _).1 options w₂ hoptions
      refine (spares_sortList ?_).then_ok fun _ _ => ⟨_, _, rfl⟩
      rw [hitems]
      exact hsort rfl options w₂ hoptions

/-- The same with arguments that are checked first. -/
theorem spares_callMethod (m : ListMethod) (args : List Value) (keywords : List Entry)
    (hextend : m = .extend → Leaves (World.items ref) (collect call fuel (args.headD .none)) w)
    (hsort : m = .sort → ∀ options w₁, sortOptions "list.sort" keywords w = .ok options w₁ →
      ∀ block w₂, (liftM (Op.blockOf ref) : Exec Nat) w₁ = .ok block w₂ →
        Leaves (World.items ref) (cellKeys call options.key? block (w.store.items ref).length)
          w₂) :
    Spares (World.items ref) (callMethod call fuel (.list ref) (.list m) args keywords) w := by
  have hthrow {α : Type} (e : Failure) (k : α → Exec Value) :
      Spares (World.items ref) ((throw e : Exec α) >>= k) w :=
    (leaves_of_error rfl rfl).spares
  unfold callMethod
  dsimp only
  split
  · exact hthrow _ _
  · split
    · exact hthrow _ _
    · exact spares_listMethod m args keywords hextend hsort

end Exec

/-! ## Updates -/

/-- What can be done to a list. -/
inductive ListCommand
  | setItem (key value : Value)
  | delItem (key : Value)
  | addInPlace (operand : Value)
  | call (m : ListMethod) (args : List Value) (keywords : List Entry)

namespace ListCommand

variable {call : Callback} {fuel ref : Nat} {w w' : World} {cmd : ListCommand} {e : Failure}

def run (call : Callback) (fuel ref : Nat) : ListCommand → Exec Value
  | setItem key value => do
    Exec.setItem call fuel (.list ref) key value
    return .none
  | delItem key => do
    Op.delItem (.list ref) key
    return .none
  | addInPlace operand => Exec.inplace call fuel .add (.list ref) operand
  | .call m args keywords => Exec.callMethod call fuel (.list ref) (.list m) args keywords

/-- What the program does while it is called for the items of an operand, or for the keys to sort
by, leaves the list alone. -/
def Undisturbed (call : Callback) (fuel ref : Nat) (w : World) : ListCommand → Prop
  | setItem (.slice ..) operand | addInPlace operand =>
    Leaves (World.items ref) (Exec.collect call fuel operand) w
  | .call .extend args _ => Leaves (World.items ref) (Exec.collect call fuel (args.headD .none)) w
  | .call .sort _ keywords =>
    ∀ options w₁, Exec.sortOptions "list.sort" keywords w = .ok options w₁ →
      ∀ block w₂, (liftM (Op.blockOf ref) : Exec Nat) w₁ = .ok block w₂ →
        Leaves (World.items ref)
          (Exec.cellKeys call options.key? block (w.store.items ref).length) w₂
  | _ => True

/-- An update that fails leaves the items of the list as they were. -/
theorem items_eq_of_error (h : cmd.Undisturbed call fuel ref w)
    (hrun : cmd.run call fuel ref w = .error e w') : w'.store.items ref = w.store.items ref := by
  have hspares : Spares (World.items ref) (cmd.run call fuel ref) w := by
    cases cmd with
    | setItem key value =>
        refine (Exec.spares_setItem fun a b c id hkey => ?_).then_ok fun _ _ => ⟨_, _, rfl⟩
        subst hkey
        exact h
    | delItem key => exact (Exec.spares_delItem key).then_ok fun _ _ => ⟨_, _, rfl⟩
    | addInPlace operand => exact (Exec.spares_extend h).then_ok fun _ _ => ⟨_, _, rfl⟩
    | call m args keywords =>
        refine Exec.spares_callMethod m args keywords (fun hm => ?_) fun hm => ?_ <;> subst hm <;>
          exact h
  exact hspares e w' hrun

/-- A list, and an iterator that maps a function over the rest of a tuple. -/
def mapped (rest : List Value) : World where
  store := {
    lists := #[[.int 1, .int 2, .int 3]]
    iterators := #[{ cursor := .map (.builtin .abs) [1] },
      { cursor := .items "tuple_iterator" rest }] }

/-- The operand fails at its second item, when the first one has been taken from it. -/
theorem items_eq_of_error_midway :
    let call := (Machine.surroundings {} 2).callback
    let cmd : ListCommand := .setItem (.slice (.int 0) (.int 2) .none 1) (.iterator 0)
    let w := mapped [.int (-4), .str "x" 0, .int 5]
    cmd.Undisturbed call 5 0 w ∧
      ∃ e, cmd.run call 5 0 w = .error e (mapped [.int 5]) ∧
        (mapped [.int 5]).store.items 0 = w.store.items 0 := by
  intro call cmd w
  -- the first item can be had, the second one fails
  have hfirst : Exec.next call 3 0 w = .ok (some (.int 4)) (mapped [.str "x" 0, .int 5]) := by
    cbv
  obtain ⟨e, hsecond⟩ : ∃ e, Exec.next call 2 0 (mapped [.str "x" 0, .int 5]) =
      .error e (mapped [.int 5]) := by
    refine ⟨?_, ?_⟩
    rotate_left 1
    · cbv
      rfl
  have hcollect : Exec.collect call 5 (.iterator 0) w = .error e (mapped [.int 5]) := by
    have hcursor : (liftM (Op.cursorOf (.iterator 0)) : Exec Nat) w = .ok 0 w := Exec.lift_of_ok rfl
    refine (bind_of_ok hcursor).trans ?_
    rw [Exec.drain, Exec.drain.go, bind_of_ok hfirst]
    dsimp only
    rw [Exec.drain.go, bind_of_error hsecond]
  have hundisturbed : cmd.Undisturbed call 5 0 w := leaves_of_error hcollect rfl
  have hfail : cmd.run call 5 0 w = .error e (mapped [.int 5]) := by
    rw [run]
    exact bind_of_error (bind_of_error hcollect)
  exact ⟨hundisturbed, e, hfail, items_eq_of_error hundisturbed hfail⟩

end ListCommand

end Wordcode
