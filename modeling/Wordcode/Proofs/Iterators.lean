import Wordcode.Machine.Iteration
import Mathlib

namespace Wordcode

/-! # Computations that iterate

Asking an iterator for its next item is a recursion over the iterators that it is made of, with
calls in between. What holds of the operations on single iterators and of the calls, and is kept
when computations follow one another, holds of the whole recursion.

* `Iterates` are such properties of computations, which may depend on how values are called.
* `Iterates.next` is the recursion, and `Iterates.collect` goes on to the last item.
-/

/-- A property of computations that is kept when they follow one another, and that the operations on
single iterators have. The computations may depend on an index, such as a way to call values. -/
structure Iterates {ι : Type} (P : {α : Type} → (ι → Exec α) → Prop) : Prop where
  pure {α : Type} (a : α) : P fun _ => Pure.pure a
  exhausted {α : Type} : P (α := α) fun _ => throw .exhausted
  crash {α : Type} : P (α := α) fun _ => throw .crash
  bind {α β : Type} {x : ι → Exec α} {k : α → ι → Exec β} (hx : P x) (hk : ∀ a, P (k a)) :
    P fun i => x i >>= fun a => k a i
  iterator (ref : Nat) : P fun _ => (liftM (Op.iterator ref) : Exec Iteration)
  newTuple (vs : List Value) : P fun _ => (liftM (Op.newTuple vs) : Exec Value)
  setCursor (ref : Nat) (cursor : Cursor) :
    P fun _ => (liftM (Op.setCursor ref cursor) : Exec Unit)
  setDone (ref : Nat) : P fun _ => (liftM (Op.setDone ref) : Exec Unit)
  truthy (v : Value) : P fun _ => (liftM (Op.truthy v) : Exec Bool)
  advance (ref : Nat) (cursor : Cursor) :
    P fun _ => (liftM (Op.advance ref cursor) : Exec (Option Value))

namespace Iterates

variable {ι : Type} {P : {α : Type} → (ι → Exec α) → Prop} (h : Iterates P)
include h

/-- Asking several iterators for an item each. -/
theorem nextAll {next : ι → Nat → Exec (Option Value)} (hnext : ∀ ref, P fun i => next i ref)
    (sources : List Nat) : P fun i => Exec.nextAll (next i) sources := by
  induction sources with
  | nil => exact h.pure (some [])
  | cons source rest ih =>
      refine h.bind (hnext source) fun v? => ?_
      cases v? with
      | none => exact h.pure none
      | some v =>
          refine h.bind ih fun vs? => ?_
          cases vs? with
          | none => exact h.pure none
          | some vs => exact h.pure (some (v :: vs))

variable (call : ι → Callback) (hcall : ∀ f args, P fun i => call i f args)
include hcall

/-- A call for a value breaks the run off when there is none. -/
theorem value (f : Value) (args : List Value) : P fun i => (call i).value f args := by
  unfold Callback.value
  refine h.bind (hcall f args) fun v? => ?_
  cases v? with
  | none => exact h.crash
  | some v => exact h.pure v

/-- Asking an iterator for its next item, by induction on the fuel: only `map` and `filter` make
calls of their own. -/
theorem next (fuel ref : Nat) : P fun i => Exec.next (call i) fuel ref := by
  induction fuel generalizing ref with
  | zero => exact h.exhausted
  | succ fuel ih =>
      -- whatever the item comes from, an iterator without one is marked as exhausted
      have hend (item : Option Value) : P fun _ => (do
          if item.isNone then Op.setDone ref
          return item : Exec (Option Value)) := by
        cases item with
        | none => exact h.bind (h.setDone ref) fun _ => h.pure none
        | some v => exact h.pure (some v)
      unfold Exec.next
      refine h.bind (h.iterator ref) fun it => ?_
      by_cases hdone : it.done = true
      · simp only [hdone, if_true]
        exact h.pure none
      · simp only [hdone]
        cases it.cursor with
        | enumerate source count =>
            refine h.bind (ih source) fun v? => ?_
            cases v? with
            | none => exact hend none
            | some v =>
                refine h.bind (h.iterator ref) fun it => h.bind (h.newTuple _) fun pair => ?_
                exact h.bind (h.setCursor ref _) fun _ => hend (some pair)
        | zip sources =>
            by_cases hempty : sources.isEmpty = true
            · simp only [hempty, if_true]
              exact hend none
            · simp only [hempty]
              refine h.bind (h.nextAll ih sources) fun vs? => ?_
              cases vs? with
              | none => exact hend none
              | some vs => exact h.bind (h.newTuple vs) fun v => hend (some v)
        | map f sources =>
            refine h.bind (h.nextAll ih sources) fun vs? => ?_
            cases vs? with
            | none => exact hend none
            | some vs => exact h.bind (h.value call hcall f vs) fun v => hend (some v)
        | filter f? source =>
            refine h.bind (ih source) fun v? => ?_
            cases v? with
            | none => exact hend none
            | some v =>
                have hdecide (decision : Value) : P fun i => (do
                    let item ← if ← Op.truthy decision then Pure.pure (some v)
                      else Exec.next (call i) fuel ref
                    if item.isNone then Op.setDone ref
                    return item : Exec (Option Value)) := by
                  refine h.bind (h.truthy decision) fun b => ?_
                  cases b with
                  | true => exact hend (some v)
                  | false => exact h.bind (ih ref) hend
                cases f? with
                | none => exact hdecide v
                | some f => exact h.bind (h.value call hcall f [v]) hdecide
        | items | chars | list | range | keys => exact h.bind (h.advance ref _) hend

/-- Taking the items that are left. -/
theorem drain (fuel ref : Nat) : P fun i => Exec.drain (call i) fuel ref := by
  have hgo (fuel : Nat) (seen : Array Value) :
      P fun i => Exec.drain.go (call i) fuel ref seen := by
    induction fuel generalizing seen with
    | zero => exact h.exhausted
    | succ fuel ih =>
        refine h.bind (h.next call hcall fuel ref) fun v? => ?_
        cases v? with
        | none => exact h.pure seen.toList
        | some v => exact ih (seen.push v)
  cases fuel with
  | zero => exact h.exhausted
  | succ fuel => exact hgo fuel #[]

/-- Collecting items. Those of a list or a tuple are at hand, and other values are drained through
an iterator. -/
theorem collect (hitems : ∀ ref, P fun _ => (liftM (Op.items ref) : Exec (List Value)))
    (hcursor : ∀ v, P fun _ => (liftM (Op.cursorOf v) : Exec Nat)) (fuel : Nat) (v : Value) :
    P fun i => Exec.collect (call i) fuel v := by
  unfold Exec.collect
  split
  next ref => exact hitems ref
  next items id => exact h.pure items
  next => exact h.bind (hcursor v) fun ref => h.drain call hcall fuel ref

end Iterates

end Wordcode
