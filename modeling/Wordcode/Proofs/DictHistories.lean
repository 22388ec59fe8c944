import Wordcode.Proofs.Iterators
import Wordcode.Proofs.Locality
import Wordcode.Proofs.Mappings
import Mathlib

namespace Wordcode

/-! # Histories of dicts

Dicts are changed by commands and by updates. An update with an iterable of pairs collects the items
first and then the items of each, and each time the program may be called back and change any dict.
So a history may contain others: what happened while something was collected.

* `InStep` relates the worlds and the lists of pairs that the same history leads to, `Updates` and
  `Fills` say what an update does to pairs.
* `InStep.sound`: a history keeps dicts sound, and does to them what it does to pairs.
* `DictUpdate.exists_updates`: there is no other way for an update to go, as long as the calls that
  it makes go on with the history.
* `InStep.refines_pairs` says what holds after every history.
-/

/-! ## Updates -/

/-- An update of a dict with another dict or with an iterable of pairs. -/
structure DictUpdate where
  call : Callback
  fuel : Nat
  ref : Nat
  other : Value

namespace DictUpdate

/-- The run of an update. -/
def run (u : DictUpdate) : Exec Unit := Exec.update u.call u.fuel u.ref u.other

/-- Filing the pairs that items make, from the `i`-th item on. -/
def file (u : DictUpdate) (i : Nat) (items : List Value) : Exec Unit :=
  Exec.updatePairs u.call u.fuel u.ref i items

/-- The items of a value. -/
def collect (u : DictUpdate) (v : Value) : Exec (List Value) := Exec.collect u.call u.fuel v

/-- An update with something else than a dict collects and files. -/
theorem run_eq (u : DictUpdate) (h : ∀ source, u.other ≠ .dict source) :
    u.run = u.collect u.other >>= u.file 0 := by
  unfold run Exec.update
  split
  next source hsource => exact absurd hsource (h source)
  next => rfl

/-- Filing pairs files the first one, and then the others. -/
theorem file_cons (u : DictUpdate) (i : Nat) (item : Value) (rest : List Value) :
    u.file i (item :: rest) = (do
      let pair ← Exec.orError (u.collect item)
        (.raise .type s!"cannot convert dictionary update sequence element #{i} to a sequence")
      match pair with
      | [key, value] =>
        Op.dictSet u.ref key value
        u.file (i + 1) rest
      | _ =>
        Exec.valueError
          s!"dictionary update sequence element #{i} has length {pair.length}; 2 is required") := by
  unfold file
  rw [Exec.updatePairs]
  rfl

/-- The fault about an item that cannot be iterated over, unless the run was broken off. -/
def noSequence (i : Nat) (e : Failure) : Failure :=
  if e.isError then
    .raise .type s!"cannot convert dictionary update sequence element #{i} to a sequence"
  else e

/-- The fault about an item that is not a pair. -/
def noPair (i length : Nat) : Failure :=
  .raise .value s!"dictionary update sequence element #{i} has length {length}; 2 is required"

end DictUpdate

/-- The world after a command. -/
def DictCommand.leave (cmd : DictCommand) (w : World) : World :=
  { w with store := (outcome cmd.run w.store).2 }

/-! ## Histories -/

mutual

/-- Worlds and lists of pairs that the same commands and updates have led to, starting without
dicts. In between, anything may happen to the rest of the world. -/
inductive InStep : World → List Pairs → Prop
  | start {w : World} : w.store.dicts = #[] → InStep w []
  | command {w : World} {pss : List Pairs} (cmd : DictCommand) : InStep w pss →
    InStep (cmd.leave w) (cmd.spec w.store.repr w.store.nextId pss).2
  | update {u : DictUpdate} {w : World} {pss pss' : List Pairs} {r : Except Failure Unit} :
    InStep w pss → Updates u w pss r pss' → InStep (outcome u.run w).2 pss'
  | other {w w' : World} {pss : List Pairs} : InStep w pss → w'.store.dicts = w.store.dicts →
    InStep w' pss

/-- What an update does to lists of pairs, and its result. A dict is merged at once. The items of an
iterable are collected, which is a history of its own, and filed one by one. -/
inductive Updates : DictUpdate → World → List Pairs → Except Failure Unit → List Pairs → Prop
  | dict {call : Callback} {fuel ref source : Nat} {w : World} {pss : List Pairs} :
    Updates ⟨call, fuel, ref, .dict source⟩ w pss (.ok ())
      (pss.set ref ((pairsAt pss ref).setAll (pairsAt pss source)))
  | failed {u : DictUpdate} {w w₁ : World} {pss pss₁ : List Pairs} {e : Failure} :
    (∀ source, u.other ≠ .dict source) → u.collect u.other w = .error e w₁ → InStep w₁ pss₁ →
    Updates u w pss (.error e) pss₁
  | items {u : DictUpdate} {w w₁ : World} {pss pss₁ pss' : List Pairs} {items : List Value}
    {r : Except Failure Unit} :
    (∀ source, u.other ≠ .dict source) → u.collect u.other w = .ok items w₁ → InStep w₁ pss₁ →
    Fills u 0 items w₁ pss₁ r pss' → Updates u w pss r pss'

/-- What filing items does to lists of pairs, from the `i`-th item on, and the result: each item
must be an iterable of two items, and the second is set under the first. -/
inductive Fills : DictUpdate → Nat → List Value → World → List Pairs → Except Failure Unit →
    List Pairs → Prop
  | done {u : DictUpdate} {i : Nat} {w : World} {pss : List Pairs} :
    Fills u i [] w pss (.ok ()) pss
  | pair {u : DictUpdate} {i : Nat} {item key value : Value} {rest : List Value} {w w₁ : World}
    {pss pss₁ pss' : List Pairs} {r : Except Failure Unit} {h : HashKey} :
    u.collect item w = .ok [key, value] w₁ → InStep w₁ pss₁ → key.hash = .ok h →
    Fills u (i + 1) rest ((DictCommand.set u.ref key value).leave w₁)
      (pss₁.set u.ref ((pairsAt pss₁ u.ref).set key value)) r pss' →
    Fills u i (item :: rest) w pss r pss'
  | unhashable {u : DictUpdate} {i : Nat} {item key value : Value} {rest : List Value}
    {w w₁ : World} {pss pss₁ : List Pairs} {e : Failure} :
    u.collect item w = .ok [key, value] w₁ → InStep w₁ pss₁ → key.hash = .error e →
    Fills u i (item :: rest) w pss (.error e) pss₁
  | length {u : DictUpdate} {i : Nat} {item : Value} {rest items : List Value} {w w₁ : World}
    {pss pss₁ : List Pairs} :
    u.collect item w = .ok items w₁ → InStep w₁ pss₁ → items.length ≠ 2 →
    Fills u i (item :: rest) w pss (.error (DictUpdate.noPair i items.length)) pss₁
  | sequence {u : DictUpdate} {i : Nat} {item : Value} {rest : List Value} {w w₁ : World}
    {pss pss₁ : List Pairs} {e : Failure} :
    u.collect item w = .error e w₁ → InStep w₁ pss₁ →
    Fills u i (item :: rest) w pss (.error (DictUpdate.noSequence i e)) pss₁

end

/-! ## Soundness -/

/-- The dicts of a world are sound and have certain pairs. -/
def World.Holds (w : World) (pss : List Pairs) : Prop := w.store.SoundDicts ∧ w.store.pairs = pss

/-- A computation has a certain result and leaves dicts that are sound and have certain pairs. -/
def EndsIn (x : Exec Unit) (w : World) (r : Except Failure Unit) (pss : List Pairs) : Prop :=
  (outcome x w).1 = r ∧ (outcome x w).2.Holds pss

/-- A computation that succeeds in a world with these pairs. -/
theorem endsIn_of_ok {x : Exec Unit} {w w' : World} {pss : List Pairs} (h : x w = .ok () w')
    (hw' : w'.Holds pss) : EndsIn x w (.ok ()) pss := by
  unfold EndsIn outcome
  rw [h]
  exact ⟨rfl, hw'⟩

/-- One that fails in such a world. -/
theorem endsIn_of_error {x : Exec Unit} {w w' : World} {e : Failure} {pss : List Pairs}
    (h : x w = .error e w') (hw' : w'.Holds pss) : EndsIn x w (.error e) pss := by
  unfold EndsIn outcome
  rw [h]
  exact ⟨rfl, hw'⟩

/-- What comes after a first part that succeeds. -/
theorem endsIn_bind {α : Type} {x : Exec α} {k : α → Exec Unit} {w w' : World} {a : α}
    {r : Except Failure Unit} {pss : List Pairs} (h : x w = .ok a w') (hk : EndsIn (k a) w' r pss) :
    EndsIn (x >>= k) w r pss := by
  unfold EndsIn outcome at *
  rwa [bind_of_ok h]

/-- After a command, the world holds what the specification says. -/
theorem World.Holds.command {w : World} {pss : List Pairs} (h : w.Holds pss) (cmd : DictCommand) :
    (cmd.leave w).Holds (cmd.spec w.store.repr w.store.nextId pss).2 := by
  obtain ⟨hs, rfl⟩ := h
  obtain ⟨hsound, hspec⟩ := cmd.refines hs
  exact ⟨hsound, by rw [hspec]; rfl⟩

/-- Setting a key is the command that does. -/
theorem World.Holds.set {w : World} {pss : List Pairs} (hw : w.Holds pss) {key value : Value}
    {h : HashKey} (hkey : key.hash = .ok h) (ref : Nat) :
    ((DictCommand.set ref key value).leave w).Holds
      (pss.set ref ((pairsAt pss ref).set key value)) := by
  have hset := hw.command (.set ref key value)
  simpa only [DictCommand.spec, DictCommand.keyed, hkey] using hset

/-- Merging the entries of a dict into another one. -/
theorem World.Holds.merge {w : World} {pss : List Pairs} (hw : w.Holds pss) (ref source : Nat) :
    World.Holds
      { w with
        store := { w.store with
          dicts := w.store.dicts.setIfInBounds ref
            ((w.store.dict ref).setAll (w.store.entries source)) } }
      (pss.set ref ((pairsAt pss ref).setAll (pairsAt pss source))) := by
  obtain ⟨hs, rfl⟩ := hw
  have hsource := (hs.dict source).hash_key
  refine ⟨hs.replace ((hs.dict ref).setAll hsource), ?_⟩
  rw [← Store.pairs_dict, ← Store.pairs_dict]
  exact (Store.pairs_replace _ _ _).trans (congrArg _ ((hs.dict ref).pairs_setAll hsource))

/-- Setting a key in the machine. -/
theorem lift_dictSet {ref : Nat} {key value : Value} {h : HashKey} (hkey : key.hash = .ok h)
    (w : World) : (Op.dictSet ref key value : Exec Unit) w =
      .ok () ((DictCommand.set ref key value).leave w) := by
  have hset : Op.dictSet ref key value w.store = _ := Op.dictSet_eq w.store ref hkey
  have hrun : (DictCommand.set ref key value).run w.store = .ok none _ := bind_of_ok hset
  rw [Exec.lift_of_ok hset, DictCommand.leave, outcome, hrun]

mutual

/-- A history keeps dicts sound and does to them what it does to pairs. -/
theorem InStep.holds {w : World} {pss : List Pairs} : InStep w pss → w.Holds pss
  | .start hdicts => by simp [World.Holds, Store.SoundDicts, Store.pairs, hdicts]
  | .command cmd h => h.holds.command cmd
  | .update h hu => (hu.ends h.holds).2
  | .other h hdicts => by
      obtain ⟨hs, rfl⟩ := h.holds
      exact ⟨by rwa [Store.SoundDicts, hdicts], by rw [Store.pairs, Store.pairs, hdicts]⟩

/-- So does an update. -/
theorem Updates.ends {u : DictUpdate} {w : World} {pss pss' : List Pairs}
    {r : Except Failure Unit} (hw : w.Holds pss) : Updates u w pss r pss' → EndsIn u.run w r pss'
  | .dict => endsIn_of_ok rfl (hw.merge _ _)
  | .failed hother hcollect h => by
      refine endsIn_of_error ?_ h.holds
      exact (u.run_eq hother).symm ▸ bind_of_error hcollect
  | .items hother hcollect h hfills => by
      rw [u.run_eq hother]
      exact endsIn_bind hcollect (hfills.ends h.holds)

/-- Filing items does to dicts what it does to pairs. -/
theorem Fills.ends {u : DictUpdate} {i : Nat} {items : List Value} {w : World}
    {pss pss' : List Pairs} {r : Except Failure Unit} (hw : w.Holds pss) :
    Fills u i items w pss r pss' → EndsIn (u.file i items) w r pss'
  | .done => endsIn_of_ok rfl hw
  | .pair hcollect h hkey hrest => by
      rw [u.file_cons]
      exact endsIn_bind (tryCatch_of_ok hcollect)
        (endsIn_bind (lift_dictSet hkey _) (hrest.ends (h.holds.set hkey u.ref)))
  -- a pair whose key cannot be hashed ends the filling, with the pairs before it in place
  | .unhashable hcollect h hkey => by
      rw [u.file_cons]
      exact endsIn_bind (tryCatch_of_ok hcollect) (endsIn_of_error (bind_of_error
        (Exec.lift_of_error (Op.dictSet_error _ _ hkey))) h.holds)
  | .length hcollect h hlength => by
      rw [u.file_cons]
      refine endsIn_bind (tryCatch_of_ok hcollect) (endsIn_of_error ?_ h.holds)
      split
      · simp at hlength
      · rfl
  | .sequence hcollect h => by
      rw [u.file_cons]
      exact endsIn_of_error (bind_of_error (tryCatch_of_error hcollect)) h.holds

end

/-! ## What goes on with a history -/

/-- A computation that goes on with every history. -/
def Exec.Continues {α : Type} (x : Exec α) : Prop :=
  ∀ w pss, InStep w pss → ∃ pss', InStep (outcome x w).2 pss'

/-- Calls that go on with every history. -/
def Callback.Continues (call : Callback) : Prop := ∀ f args, (call f args).Continues

namespace Exec

variable {α β : Type}

/-- What leaves the dicts alone. -/
theorem continues_of_local {x : Exec α} (hx : Local (fun w : World => w.store.dicts) x) :
    x.Continues := by
  intro w pss hw
  refine ⟨pss, hw.other ?_⟩
  unfold outcome
  cases hrun : x w with
  | ok a w' => exact (hx w).1 a w' hrun
  | error e w' => exact ((hx w).2 e w' hrun).1

theorem continues_pure (a : α) : (pure a : Exec α).Continues := fun _ pss hw => ⟨pss, hw⟩

theorem continues_throw (e : Failure) : (throw e : Exec α).Continues := fun _ pss hw => ⟨pss, hw⟩

/-- What goes on with every history, and then what follows. -/
theorem Continues.bind {x : Exec α} {k : α → Exec β} (hx : x.Continues)
    (hk : ∀ a, (k a).Continues) : (x >>= k).Continues := by
  intro w pss hw
  have hmiddle := hx w pss hw
  unfold outcome at hmiddle ⊢
  cases hrun : x w with
  | ok a w₁ =>
      rw [hrun] at hmiddle
      obtain ⟨pss₁, hw₁⟩ := hmiddle
      rw [bind_of_ok hrun]
      exact hk a w₁ pss₁ hw₁
  | error e w₁ =>
      rw [hrun] at hmiddle
      rw [bind_of_error hrun]
      exact hmiddle

/-- Operations that leave the dicts alone. -/
theorem continues_lift {x : Op α} (hx : Local Store.dicts x) : (liftM x : Exec α).Continues :=
  continues_of_local (local_liftPart hx)

end Exec

/-! ### Iteration -/

namespace Op

theorem keepsDicts_fresh : Local Store.dicts fresh := local_modifyGet fun _ => rfl

theorem keepsDicts_newTuple (items : List Value) : Local Store.dicts (newTuple items) :=
  keepsDicts_fresh.map _

theorem keepsDicts_newStr (text : String) : Local Store.dicts (newStr text) :=
  keepsDicts_fresh.map _

theorem keepsDicts_setCursor (ref : Nat) (cursor : Cursor) :
    Local Store.dicts (setCursor ref cursor) :=
  local_modify fun _ => rfl

theorem keepsDicts_setDone (ref : Nat) : Local Store.dicts (setDone ref) :=
  local_modify fun _ => rfl

theorem keepsDicts_newCursor (cursor : Cursor) : Local Store.dicts (newCursor cursor) :=
  local_modifyGet fun _ => rfl

theorem keepsDicts_cursorOf (v : Value) : Local Store.dicts (cursorOf v) := by
  have hnew := keepsDicts_newCursor
  unfold cursorOf
  grind

theorem keepsDicts_advance (ref : Nat) (cursor : Cursor) :
    Local Store.dicts (advance ref cursor) := by
  have hset := keepsDicts_setCursor
  have hstr := keepsDicts_newStr
  unfold advance
  grind

end Op

namespace Exec

/-- Operations on iterators leave the dicts alone, so they go on with every history. -/
theorem iterates_continues : Iterates fun {α : Type} (x : Unit → Exec α) => (x ()).Continues where
  pure a := continues_pure a
  exhausted := continues_throw .exhausted
  crash := continues_throw .crash
  bind hx hk := hx.bind hk
  iterator ref := continues_lift (Op.local_iterator ref)
  newTuple vs := continues_lift (Op.keepsDicts_newTuple vs)
  setCursor ref cursor := continues_lift (Op.keepsDicts_setCursor ref cursor)
  setDone ref := continues_lift (Op.keepsDicts_setDone ref)
  truthy v := continues_lift (Op.local_truthy v)
  advance ref cursor := continues_lift (Op.keepsDicts_advance ref cursor)

/-- Collecting items, between which the calls may have a history of their own. -/
theorem continues_collect {call : Callback} (hcall : call.Continues) (fuel : Nat) (v : Value) :
    (collect call fuel v).Continues :=
  iterates_continues.collect (fun _ => call) hcall (fun ref => continues_lift (Op.local_items ref))
    (fun v => continues_lift (Op.keepsDicts_cursorOf v)) fuel v

end Exec

/-! ### Filing -/

namespace DictUpdate

variable {u : DictUpdate} {w : World} {pss : List Pairs}

/-- Collecting something goes on with a history, whether it fails or not. -/
theorem collect_cases (hcall : u.call.Continues) (hw : InStep w pss) (v : Value) :
    (∃ items w₁ pss₁, u.collect v w = .ok items w₁ ∧ InStep w₁ pss₁) ∨
      ∃ e w₁ pss₁, u.collect v w = .error e w₁ ∧ InStep w₁ pss₁ := by
  obtain ⟨pss₁, hw₁⟩ := Exec.continues_collect hcall u.fuel v w pss hw
  unfold outcome at hw₁
  cases hrun : Exec.collect u.call u.fuel v w with
  | ok items w₁ =>
      rw [hrun] at hw₁
      exact Or.inl ⟨items, w₁, pss₁, hrun, hw₁⟩
  | error e w₁ =>
      rw [hrun] at hw₁
      exact Or.inr ⟨e, w₁, pss₁, hrun, hw₁⟩

/-- The items are filed in some way. -/
theorem exists_fills (hcall : u.call.Continues) (hw : InStep w pss) (i : Nat)
    (items : List Value) : ∃ r pss', Fills u i items w pss r pss' := by
  induction items generalizing i w pss with
  | nil => exact ⟨_, _, .done⟩
  | cons item rest ih =>
      rcases collect_cases hcall hw item with ⟨pair, w₁, pss₁, hcollect, hw₁⟩ |
        ⟨e, w₁, pss₁, hcollect, hw₁⟩
      case inr => exact ⟨_, _, .sequence hcollect hw₁⟩
      -- what was collected is a key and its value, or the pair is refused
      by_cases hlength : pair.length = 2
      · obtain ⟨key, value, rfl⟩ := List.length_eq_two.mp hlength
        cases hkey : key.hash with
        | error e => exact ⟨_, _, .unhashable hcollect hw₁ hkey⟩
        | ok h =>
            have hset := hw₁.command (.set u.ref key value)
            simp only [DictCommand.spec, DictCommand.keyed, hkey] at hset
            obtain ⟨r, pss', hfills⟩ := ih hset (i + 1)
            exact ⟨r, pss', .pair hcollect hw₁ hkey hfills⟩
      · exact ⟨_, _, .length hcollect hw₁ hlength⟩

/-- So is what an update merges. -/
theorem exists_updates (hcall : u.call.Continues) (hw : InStep w pss) :
    ∃ r pss', Updates u w pss r pss' := by
  by_cases hother : ∃ source, u.other = .dict source
  · obtain ⟨source, hsource⟩ := hother
    obtain ⟨call, fuel, ref, other⟩ := u
    obtain rfl : other = .dict source := hsource
    exact ⟨_, _, .dict⟩
  · push Not at hother
    rcases collect_cases hcall hw u.other with ⟨items, w₁, pss₁, hcollect, hw₁⟩ |
      ⟨e, w₁, pss₁, hcollect, hw₁⟩
    · obtain ⟨r, pss', hfills⟩ := exists_fills hcall hw₁ 0 items
      exact ⟨r, pss', .items hother hcollect hw₁ hfills⟩
    · exact ⟨_, _, .failed hother hcollect hw₁⟩

end DictUpdate

/-! ## What holds after every history -/

/-- After every history of commands and updates, the entries of every dict have distinct keys and
its index is that of its entries; the dicts have the pairs that the history leads to and show
nothing else. Any further command or update has the result and the effect that it has on these
pairs; an update has one whenever the calls that it makes go on with histories. -/
theorem InStep.refines_pairs {w : World} {pss : List Pairs} (h : InStep w pss) :
    (∀ d ∈ w.store.dicts.toList, d.Indexed) ∧ w.store.pairs = pss ∧
      (∀ ref, Shows w.store ref (pairsAt pss ref)) ∧
      (∀ cmd : DictCommand, ∃ s', outcome cmd.run w.store =
          ((cmd.spec w.store.repr w.store.nextId pss).1, s') ∧
        s'.pairs = (cmd.spec w.store.repr w.store.nextId pss).2) ∧
      (∀ (u : DictUpdate) r pss', Updates u w pss r pss' →
        ∃ w', outcome u.run w = (r, w') ∧ InStep w' pss' ∧ w'.store.pairs = pss') ∧
      ∀ u : DictUpdate, u.call.Continues → ∃ r pss', Updates u w pss r pss' := by
  obtain ⟨hs, rfl⟩ := h.holds
  refine ⟨fun d hd => (hs d hd).indexed, rfl, fun ref => hs.shows ref, fun cmd => ?_,
    fun u r pss' hu => ?_, fun u hcall => u.exists_updates hcall h⟩
  · obtain ⟨-, hspec⟩ := cmd.refines hs
    exact ⟨(outcome cmd.run w.store).2, by rw [hspec], by rw [hspec]⟩
  · obtain ⟨rfl, -, hpairs⟩ := hu.ends h.holds
    exact ⟨(outcome u.run w).2, rfl, h.update hu, hpairs⟩

/-- A key that is set again, here by an update with pairs, keeps its place and its first spelling;
one that is removed and set again comes last. -/
theorem InStep.refines_pairs_reinsertion :
    let history : List DictCommand :=
      [.new, .set 0 (.int 1) (.str "one" 0), .setString 0 "two" (.int 2), .pop 0 (.str "two" 2),
        .setDefault 0 .none (.int 3), .delete 0 (.int 7)]
    let u : DictUpdate :=
      { call := fun _ _ => throw .crash, fuel := 1, ref := 0
        other := .tuple [.tuple [.bool true, .str "yes" 4] 5, .tuple [.str "two" 6, .int 5] 7] 8 }
    let w := (outcome u.run (history.foldl (fun w cmd => cmd.leave w) {})).2
    let ps : Pairs := [(.int 1, .str "yes" 4), (.none, .int 3), (.str "two" 6, .int 5)]
    InStep w [ps] ∧ (∀ d ∈ w.store.dicts.toList, d.Indexed) ∧ w.store.pairs = [ps] ∧
      Shows w.store 0 ps ∧
      (∃ s', outcome (DictCommand.pop 0 (.bool true)).run w.store =
          (.ok (some (.str "yes" 4)), s') ∧ s'.pairs = [ps.tail]) ∧
      u.call.Continues ∧ ∃ r pss', Updates u w [ps] r pss' := by
  intro history u w ps
  have hhistory : InStep (history.foldl (fun w cmd => cmd.leave w) {})
      [[(.int 1, .str "one" 0), (.none, .int 3)]] :=
    .command (.delete 0 (.int 7)) <| .command (.setDefault 0 .none (.int 3)) <|
      .command (.pop 0 (.str "two" 2)) <| .command (.setString 0 "two" (.int 2)) <|
        .command (.set 0 (.int 1) (.str "one" 0)) <| .command .new <| .start rfl
  have hfirst := hhistory.command (.set 0 (.bool true) (.str "yes" 4))
  -- `True` takes the place of `1`, and `"two"` comes last since it was removed
  have hupdates : Updates u _ [[(.int 1, .str "one" 0), (.none, .int 3)]] (.ok ()) [ps] :=
    .items nofun rfl hhistory <| .pair rfl hhistory rfl <| .pair rfl hfirst rfl .done
  have h : InStep w [ps] := hhistory.update hupdates
  have hcall : u.call.Continues := fun _ _ => Exec.continues_throw _
  obtain ⟨hindexed, hpairs, hshows, hcommand, -, hexists⟩ := h.refines_pairs
  exact ⟨h, hindexed, hpairs, hshows 0, hcommand (.pop 0 (.bool true)), hcall, hexists u hcall⟩

end Wordcode
