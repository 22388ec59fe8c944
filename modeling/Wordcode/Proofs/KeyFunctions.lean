import Wordcode.Proofs.CallForms
import Mathlib

namespace Wordcode

/-! # Functions that are called for each item

Lazy iterators and key functions call their function in a way of their own. They get the value that
a call instruction pushes for the same arguments, except for a callable of the embedding program
that returns nothing: the instruction pushes `None` for it, and the others go on without a value
until they need one, which breaks the run off.

* `Machine.Gives` are values that never return nothing; `Machine.gives_of_not_host` says which do.
* `Machine.key_calls_agree` is the result.
* `Machine.key_calls_differ` is about a callable that returns nothing.
-/

/-- The calls that the call instruction makes, without keyword arguments. They always give a
value. -/
def Surroundings.plainly (s : Surroundings) : Callback := fun f args => some <$> s.call f args []

/-! ## Items of iterators -/

namespace Exec

variable {f : Value} {sources : List Nat} {source ref : Nat} {w : World}

/-- What comes from a `map`: the function is called with an item of each source. -/
theorem next_map (call : Callback) (fuel : Nat)
    (h : w.store.iterator ref = { cursor := .map f sources }) :
    next call (fuel + 1) ref w = (do
      match ← nextAll (next call fuel) sources with
      | none =>
        Op.setDone ref
        return none
      | some vs => return some (← call.value f vs) : Exec (Option Value)) w := by
  have hit : (liftM (Op.iterator ref) : Exec Iteration) w = .ok { cursor := .map f sources } w :=
    congrArg (EStateM.Result.ok · w) h
  rw [next]
  refine (bind_of_ok hit).trans ?_
  rw [if_neg Bool.false_ne_true]
  refine congrFun (bind_congr fun vs? => ?_) w
  cases vs? with
  | none => rfl
  | some vs => exact bind_congr fun v => rfl

/-- What comes from a `filter`: the function is called with an item, and decides about it. -/
theorem next_filter (call : Callback) (fuel : Nat)
    (h : w.store.iterator ref = { cursor := .filter (some f) source }) :
    next call (fuel + 1) ref w = (do
      match ← next call fuel source with
      | none =>
        Op.setDone ref
        return none
      | some v =>
        if ← Op.truthy (← call.value f [v]) then return some v
        else
          let item ← next call fuel ref
          if item.isNone then Op.setDone ref
          return item : Exec (Option Value)) w := by
  have hit : (liftM (Op.iterator ref) : Exec Iteration) w =
      .ok { cursor := .filter (some f) source } w := congrArg (EStateM.Result.ok · w) h
  rw [next]
  refine (bind_of_ok hit).trans ?_
  rw [if_neg Bool.false_ne_true]
  refine congrFun (bind_congr fun v? => ?_) w
  cases v? with
  | none => rfl
  | some v =>
      refine bind_congr fun decision => bind_congr fun passes => ?_
      cases passes with
      | true => rfl
      | false => rfl

end Exec

namespace Machine

variable {m : Machine} {fuel : Nat} {f : Value} {args : List Value} {w w' : World}

/-! ## Values that are given -/

/-- A value that never returns nothing when it is called with positional arguments. -/
def Gives (m : Machine) (fuel : Nat) (f : Value) : Prop :=
  ∀ args w w', m.invoke fuel f args [] w ≠ .ok none w'

/-- Functions, methods and builtins always return a value. -/
theorem gives_of_not_host (m : Machine) (fuel : Nat) (hhost : ∀ h, f ≠ .host h) :
    m.Gives fuel f := by
  -- what returns without a value is never one of these
  have hsome {x : Exec Value} {w w' : World} : (some <$> x) w ≠ .ok none w' := by
    intro h
    obtain ⟨v, w₁, -, hpure⟩ := bind_eq_ok (k := fun v => pure (some v)) h
    cases hpure
  intro args w w' h
  cases fuel with
  | zero => cases h
  | succ fuel =>
      unfold invoke answer at h
      cases f with
      | host host => exact hhost host rfl
      | function ref =>
          obtain ⟨c, w₁, -, hcall⟩ := bind_eq_ok h
          exact hsome hcall
      | method receiver method id => exact hsome h
      | builtin b => exact hsome h
      | _ => cases h

/-- A call that gives a value gives it to the call instruction, too. -/
theorem Gives.call_cases (h : m.Gives fuel f) (args : List Value) (w : World) :
    (∃ v w', (m.surroundings fuel).callback f args w = .ok (some v) w' ∧
        (m.surroundings fuel).call f args [] w = .ok v w') ∨
      ∃ e w', (m.surroundings fuel).callback f args w = .error e w' ∧
        (m.surroundings fuel).call f args [] w = .error e w' := by
  cases hcall : m.invoke fuel f args [] w with
  | error e w' => exact .inr ⟨e, w', hcall, bind_of_error hcall⟩
  | ok v? w' =>
      cases v? with
      | none => exact absurd hcall (h args w w')
      | some v => exact .inl ⟨v, w', hcall, bind_of_ok hcall⟩

/-- Calls for a value that is given are the calls of the call instruction. -/
theorem value_eq_call (h : m.Gives fuel f) (args : List Value) :
    (m.surroundings fuel).callback.value f args = (m.surroundings fuel).call f args [] := by
  funext w
  rcases h.call_cases args w with ⟨v, w', hcall, hvalue⟩ | ⟨e, w', hcall, hfails⟩
  · exact (bind_of_ok hcall).trans hvalue.symm
  · exact (bind_of_error hcall).trans hfails.symm

/-- The same for calls that do not need the value. -/
theorem callback_eq_plainly (h : m.Gives fuel f) (args : List Value) :
    (m.surroundings fuel).callback f args = (m.surroundings fuel).plainly f args := by
  funext w
  rcases h.call_cases args w with ⟨v, w', hcall, hvalue⟩ | ⟨e, w', hcall, hfails⟩
  · exact hcall.trans (bind_of_ok (k := fun v => pure (some v)) hvalue).symm
  · exact hcall.trans (bind_of_error (k := fun v => pure (some v)) hfails).symm

/-- So are the calls for keys. -/
theorem keyOf_plainly (h : m.Gives fuel f) :
    Exec.keyOf (m.surroundings fuel).callback (some f) =
      Exec.keyOf (m.surroundings fuel).plainly (some f) :=
  funext fun item => callback_eq_plainly h [item]

theorem sortItems_plainly (h : m.Gives fuel f) (descending : Bool) (items : List Value) :
    Exec.sortItems (m.surroundings fuel).callback ⟨some f, descending⟩ items =
      Exec.sortItems (m.surroundings fuel).plainly ⟨some f, descending⟩ items := by
  unfold Exec.sortItems
  rw [keyOf_plainly h]

theorem sortList_plainly (h : m.Gives fuel f) (descending : Bool) (ref : Nat) :
    Exec.sortList (m.surroundings fuel).callback ⟨some f, descending⟩ ref =
      Exec.sortList (m.surroundings fuel).plainly ⟨some f, descending⟩ ref := by
  unfold Exec.sortList Exec.cellKeys
  rw [keyOf_plainly h]

theorem extremeOf_plainly (h : m.Gives fuel f) {kw : Bindings} (hkey : kw.lookup "key" = some f)
    (b : Builtin) (better : Option Value → Option Value → Exec Bool) (items : List Value) :
    Exec.extremeOf (m.surroundings fuel).callback b better kw items =
      Exec.extremeOf (m.surroundings fuel).plainly b better kw items := by
  cases items with
  | nil => rfl
  | cons first rest =>
      -- `None` stands for no key
      unfold Exec.extremeOf
      rw [hkey]
      cases f with
      | none => rfl
      | _ => simp only [keyOf_plainly h, callback_eq_plainly h]

/-- A value that never returns nothing gives the same however it is called. What the call
instruction pushes for it is also what comes from a `map` for the items of its sources, what decides
about an item of a `filter`, the key by which `sorted` and `list.sort` compare an item, and the key
by which `min` and `max` do. Functions, methods and builtins are such values, and so are the
callables of the embedding program that return something. -/
theorem key_calls_agree (h : m.Gives fuel f) :
    (∀ i g args rest w, Frame.CallsPlain g i f args rest →
      (Frame.execute (m.surroundings fuel) i).run g w =
        Frame.receiving { g with stack := rest } ((m.surroundings fuel).call f args [] w)) ∧
      (∀ n ref sources w, w.store.iterator ref = { cursor := .map f sources } →
        Exec.next (m.surroundings fuel).callback (n + 1) ref w = (do
          match ← Exec.nextAll (Exec.next (m.surroundings fuel).callback n) sources with
          | none =>
            Op.setDone ref
            return none
          | some vs => return some (← (m.surroundings fuel).call f vs []) :
            Exec (Option Value)) w) ∧
      (∀ n ref source w, w.store.iterator ref = { cursor := .filter (some f) source } →
        Exec.next (m.surroundings fuel).callback (n + 1) ref w = (do
          match ← Exec.next (m.surroundings fuel).callback n source with
          | none =>
            Op.setDone ref
            return none
          | some v =>
            if ← Op.truthy (← (m.surroundings fuel).call f [v] []) then return some v
            else
              let item ← Exec.next (m.surroundings fuel).callback n ref
              if item.isNone then Op.setDone ref
              return item : Exec (Option Value)) w) ∧
      (∀ descending items,
        Exec.sortItems (m.surroundings fuel).callback ⟨some f, descending⟩ items =
          Exec.sortItems (m.surroundings fuel).plainly ⟨some f, descending⟩ items) ∧
      (∀ descending ref,
        Exec.sortList (m.surroundings fuel).callback ⟨some f, descending⟩ ref =
          Exec.sortList (m.surroundings fuel).plainly ⟨some f, descending⟩ ref) ∧
      ∀ b better kw items, kw.lookup "key" = some f →
        Exec.extremeOf (m.surroundings fuel).callback b better kw items =
          Exec.extremeOf (m.surroundings fuel).plainly b better kw items := by
  refine ⟨fun i g args rest w hcalls => hcalls.execute_eq, fun n ref sources w hmap => ?_,
    fun n ref source w hfilter => ?_, sortItems_plainly h, sortList_plainly h,
    fun b better kw items hkey => extremeOf_plainly h hkey b better items⟩
  · rw [Exec.next_map _ n hmap]
    simp only [value_eq_call h]
  · rw [Exec.next_filter _ n hfilter]
    simp only [value_eq_call h]

/-- Sorting by absolute value. -/
theorem key_calls_agree_abs :
    Gives {} 2 (.builtin .abs) ∧
      Exec.sortItems (surroundings {} 2).plainly ⟨some (.builtin .abs), false⟩
          [.int (-3), .int 2] {} =
        Exec.sortItems (surroundings {} 2).callback ⟨some (.builtin .abs), false⟩
          [.int (-3), .int 2] {} ∧
      ∃ w, Exec.sortItems (surroundings {} 2).callback ⟨some (.builtin .abs), false⟩
          [.int (-3), .int 2] {} = .ok [.int 2, .int (-3)] w := by
  have hgives : Gives {} 2 (.builtin .abs) := by
    refine gives_of_not_host {} 2 ?_
    intro h hequal
    cases hequal
  have hsort := (key_calls_agree hgives).2.2.2.1 false [.int (-3), .int 2]
  refine ⟨hgives, congrFun hsort.symm {}, ?_, ?_⟩
  rotate_left 1
  · cbv
    rfl

/-- The call instruction pushes `None` for a callable that returns nothing. As a key function it is
called for each item, and what it gives is not looked at if there is one item. But to compare the
keys of two items, to test what comes from a `map`, or to decide about an item of a `filter` needs a
value, and without one the run breaks off. -/
theorem key_calls_differ :
    let call := (surroundings {} 4).callback
    let one : Value := .tuple [.int 1] 0
    let two : Value := .tuple [.int 1, .int 2] 0
    ∃ silent : Value,
      let keyed : List Entry := [⟨.str "key", .str "key" 1, silent⟩]
      (surroundings {} 4).call silent [.int 1] [] {} = .ok .none {} ∧
      (∃ ref w, Exec.callBuiltin call 4 .sorted [one] keyed {} = .ok (.list ref) w ∧
        w.store.items ref = [.int 1]) ∧
      Exec.callBuiltin call 4 .min [one] keyed {} = .ok (.int 1) {} ∧
      Exec.callBuiltin call 4 .max [one] keyed {} = .ok (.int 1) {} ∧
      Exec.callBuiltin call 4 .sorted [two] keyed {} = .error .crash {} ∧
      Exec.callBuiltin call 4 .min [two] keyed {} = .error .crash {} ∧
      Exec.callBuiltin call 4 .max [two] keyed {} = .error .crash {} ∧
      (∃ ref w w', Exec.callBuiltin call 4 .map [silent, two] [] {} = .ok (.iterator ref) w ∧
        Exec.callBuiltin call 4 .any [.iterator ref] [] w = .error .crash w') ∧
      ∃ ref w w', Exec.callBuiltin call 4 .filter [silent, two] [] {} = .ok (.iterator ref) w ∧
        Exec.callBuiltin call 4 .list [.iterator ref] [] w = .error .crash w' := by
  intro call one two
  refine ⟨.host ⟨"silent", .positional⟩, rfl, ⟨0, ?_, ?one, ?items⟩, ?_, ?_, ?_, ?_, ?_,
    ⟨1, ?_, ?_, ?mapping, ?map⟩, ⟨1, ?_, ?_, ?filtering, ?filter⟩⟩
  case one =>
    cbv
    rfl
  case items => rfl
  case mapping =>
    cbv
    rfl
  case map =>
    cbv
    rfl
  case filtering =>
    cbv
    rfl
  case filter =>
    cbv
    rfl
  all_goals cbv

end Machine

end Wordcode
