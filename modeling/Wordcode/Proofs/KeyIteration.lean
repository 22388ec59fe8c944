import Wordcode.Proofs.FailedUpdates
import Wordcode.Proofs.Mappings
import Mathlib

namespace Wordcode

/-! # Iterating over the keys of a dict

An iterator over a dict has a position and the number of keys that there were when it was made. When
it is asked for a key it compares that number with the number of keys that there are, and then takes
the key at its position. So it notices that keys have only been added or only been removed, but not
that one has been removed and another one added.

* `DictEdit` is what may be done to the dict, and `KeyWalk` a history of an iteration in which this
  is done between the steps.
* `Exec.next_keys` is one step. `KeyWalk.iterator_eq` and `KeyWalk.getElem?_yields` say what holds
  after any number of them.
* `KeyWalk.yields_of_exhausted` is the result: as many keys are given as there were, each from its
  position in the dict of the time, and if no key has been removed they are the keys that there
  were.
* `KeyWalk.not_keys` is an iteration that gives other keys.
-/

/-! ## Histories -/

/-- The keys of a dict, in their order. -/
def Dict.keys (d : Dict) : List Value := d.entries.map (·.key)

/-- The keys of a dict in a store. -/
def Store.keys (s : Store) (ref : Nat) : List Value := (s.dict ref).keys

/-- What may be done to a dict while it is iterated over. -/
inductive DictEdit
  | set (key value : Value)
  | pop (key : Value)
  | delete (key : Value)
  | clear
  | update (other : Value)

namespace DictEdit

/-- The run of an edit. -/
def run (call : Callback) (fuel ref : Nat) : DictEdit → Exec Unit
  | set key value => Op.dictSet ref key value
  | pop key => do
    discard (Op.dictPop? ref key)
  | delete key => Op.dictDelete ref key
  | clear => Op.dictClear ref
  | update other => Exec.update call fuel ref other

/-- Edits that add keys and replace values, but do not remove keys. -/
def Adds : DictEdit → Prop
  | set .. | update (.dict _) => True
  | _ => False

end DictEdit

/-- The state in which a run ends, whether it fails or not. -/
def Exec.after {α : Type} (x : Exec α) (w : World) : World :=
  match x w with
  | .ok _ w' | .error _ w' => w'

theorem Exec.after_of_ok {α : Type} {x : Exec α} {w w' : World} {a : α} (h : x w = .ok a w') :
    x.after w = w' := by
  rw [Exec.after, h]

theorem Exec.after_of_error {α : Type} {x : Exec α} {w w' : World} {e : Failure}
    (h : x w = .error e w') : x.after w = w' := by
  rw [Exec.after, h]

/-- What happens in an iteration: a key is given, by a dict of certain keys, or an edit replaces the
keys of the dict by others. -/
inductive KeyEvent
  | yielded (key : Value) (keys : List Value)
  | edited (edit : DictEdit) (before after : List Value)

/-- The keys that were given, each with the keys that the dict had then. -/
def KeyEvent.yields (events : List KeyEvent) : List (Value × List Value) :=
  events.filterMap fun
    | .yielded key keys => some (key, keys)
    | .edited .. => none

/-- Histories of an iterator over a dict from the moment when it is made. The iterator is asked for
keys, the dict is edited, and anything may happen that concerns neither of them. -/
inductive KeyWalk (ref it : Nat) (w₀ : World) : List KeyEvent → World → Prop
  | start {w : World} (h : (Op.cursorOf (.dict ref) : Exec Nat) w₀ = .ok it w) :
    KeyWalk ref it w₀ [] w
  | next {events : List KeyEvent} {w w' : World} {key : Value} (call : Callback) (fuel : Nat)
    (hw : KeyWalk ref it w₀ events w) (h : Exec.next call fuel it w = .ok (some key) w') :
    KeyWalk ref it w₀ (events ++ [.yielded key (w.store.keys ref)]) w'
  | edit {events : List KeyEvent} {w w' : World} (e : DictEdit) (call : Callback) (fuel : Nat)
    (hw : KeyWalk ref it w₀ events w) (h : (e.run call fuel ref).after w = w')
    (hit : w'.store.iterator it = w.store.iterator it) :
    KeyWalk ref it w₀ (events ++ [.edited e (w.store.keys ref) (w'.store.keys ref)]) w'
  | other {events : List KeyEvent} {w w' : World} (hw : KeyWalk ref it w₀ events w)
    (hdict : w'.store.dict ref = w.store.dict ref)
    (hit : w'.store.iterator it = w.store.iterator it) : KeyWalk ref it w₀ events w'

/-! ## Edits that add -/

namespace Dict

/-- Setting a key leaves the others at the front. -/
theorem keys_prefix_set (d : Dict) (h : HashKey) (key value : Value) :
    d.keys <+: (d.set h key value).keys := by
  unfold Dict.set
  split
  next i _ =>
    have hkeys : (d.entries.modify i ({ · with value })).map (·.key) = d.keys := by
      refine List.ext_getElem? fun j => ?_
      rw [keys, List.getElem?_map, List.getElem?_map, List.getElem?_modify]
      cases d.entries[j]? <;> split <;> rfl
    exact hkeys ▸ List.prefix_rfl
  next => exact (List.prefix_append _ _).map _

theorem keys_prefix_setAll (d : Dict) (new : List Entry) : d.keys <+: (d.setAll new).keys := by
  unfold Dict.setAll
  induction new generalizing d with
  | nil => exact List.prefix_rfl
  | cons e new ih => exact (d.keys_prefix_set e.hash e.key e.value).trans (ih _)

end Dict

namespace Store

variable {s : Store} {ref : Nat}

theorem keys_congr {s' : Store} (h : s'.dict ref = s.dict ref) : s'.keys ref = s.keys ref :=
  congrArg Dict.keys h

theorem keys_prefix_replace {d : Dict} (h : s.keys ref <+: d.keys) :
    s.keys ref <+: Store.keys { s with dicts := s.dicts.setIfInBounds ref d } ref := by
  by_cases href : ref < s.dicts.size
  · have hdict : Store.dict { s with dicts := s.dicts.setIfInBounds ref d } ref = d := by
      simp [Store.dict, href]
    have hkeys : Store.keys { s with dicts := s.dicts.setIfInBounds ref d } ref = d.keys :=
      congrArg Dict.keys hdict
    rwa [hkeys]
  · rw [Array.setIfInBounds_eq_of_size_le (by omega)]

/-- Moving an iterator that is not at its end. -/
theorem iterator_modify {it : Nat} {c : Cursor} (h : s.iterator it = { cursor := c })
    (c' : Cursor) :
    Store.iterator { s with iterators := s.iterators.modify it ({ · with cursor := c' }) } it =
      { cursor := c' } := by
  unfold Store.iterator at h ⊢
  rw [Array.getD_eq_getD_getElem?] at h ⊢
  rw [Array.getElem?_modify, if_pos rfl]
  cases hget : s.iterators[it]? with
  | none =>
      rw [hget] at h
      cases h
  | some iteration =>
      rw [hget] at h
      cases h
      rfl

end Store

namespace DictEdit

variable {e : DictEdit}

/-- Edits that add leave the keys at the front, in their order. -/
theorem Adds.keys_prefix_after (he : e.Adds) (call : Callback) (fuel ref : Nat) (w : World) :
    w.store.keys ref <+: ((e.run call fuel ref).after w).store.keys ref := by
  cases e with
  | set key value =>
      -- a key that cannot be hashed leaves the dict
      cases hkey : key.hash with
      | ok h =>
          have hrun : (set key value).run call fuel ref w = .ok () { w with store := _ } :=
            Exec.lift_of_ok (Op.dictSet_eq w.store ref hkey)
          rw [Exec.after_of_ok hrun]
          exact Store.keys_prefix_replace ((w.store.dict ref).keys_prefix_set h key value)
      | error e =>
          have hrun : (set key value).run call fuel ref w = .error e w :=
            Exec.lift_of_error (Op.dictSet_error w.store ref hkey)
          rw [Exec.after_of_error hrun]
  | update other =>
      cases other with
      | dict source =>
          exact Store.keys_prefix_replace
            ((w.store.dict ref).keys_prefix_setAll (w.store.entries source))
      | _ => exact he.elim
  | pop | delete | clear => exact he.elim

end DictEdit

/-! ## Steps -/

namespace Exec

variable {ref it i n : Nat} {w : World}

/-- One step: if the number of keys is not what it was there is a fault, and otherwise the key at
the position is given, if there is one. -/
theorem next_keys (call : Callback) (fuel : Nat)
    (h : w.store.iterator it = { cursor := .keys ref i n }) :
    next call (fuel + 1) it w =
      if (w.store.keys ref).length ≠ n then
        .error (.raise .value "dictionary changed size during iteration") w
      else match (w.store.keys ref)[i]? with
        | some key => (do
          Op.setCursor it (.keys ref (i + 1) n)
          return some key : Exec (Option Value)) w
        | none => (do
          Op.setDone it
          return none : Exec (Option Value)) w := by
  have hit : (liftM (Op.iterator it) : Exec Iteration) w = .ok { cursor := .keys ref i n } w :=
    congrArg (EStateM.Result.ok · w) h
  have hadvance := advance_keys w.store ref it i n
  rw [next]
  refine (bind_of_ok hit).trans ?_
  rw [if_neg Bool.false_ne_true]
  rw [show w.store.keys ref = (w.store.entries ref).map (·.key) from rfl]
  simp only [List.length_map, List.getElem?_map]
  -- the size is compared first, and only then a key is taken
  by_cases hsize : (w.store.entries ref).length ≠ n
  · rw [if_pos hsize] at hadvance ⊢
    exact bind_of_error (lift_of_error hadvance)
  · rw [if_neg hsize] at hadvance ⊢
    cases hget : (w.store.entries ref)[i]? with
    | none =>
        rw [hget] at hadvance
        exact bind_of_ok (lift_of_ok hadvance)
    | some entry =>
        rw [hget] at hadvance
        exact bind_of_ok (lift_of_ok hadvance)

/-- A step that does not fail: there are as many keys as there were, and the result is the key at
the position, from which the iterator moves on. -/
theorem next_keys_ok {call : Callback} {fuel : Nat} {key? : Option Value} {w' : World}
    (h : w.store.iterator it = { cursor := .keys ref i n })
    (hrun : next call fuel it w = .ok key? w') :
    (w.store.keys ref).length = n ∧ (w.store.keys ref)[i]? = key? ∧
      w'.store.dict ref = w.store.dict ref ∧
        (key?.isSome = true → w'.store.iterator it = { cursor := .keys ref (i + 1) n }) := by
  cases fuel with
  | zero => cases hrun
  | succ fuel =>
      rw [next_keys call fuel h] at hrun
      split at hrun
      next => cases hrun
      next hsize =>
        cases hget : (w.store.keys ref)[i]? with
        | none =>
            rw [hget] at hrun
            cases hrun
            exact ⟨not_not.mp hsize, rfl, rfl, fun hsome => nomatch hsome⟩
        | some key =>
            rw [hget] at hrun
            cases hrun
            exact ⟨not_not.mp hsize, rfl, rfl, fun _ => Store.iterator_modify h _⟩

end Exec

/-! ## Any number of steps -/

namespace KeyEvent

variable (events : List KeyEvent)

@[simp]
theorem yields_append_yielded (key : Value) (keys : List Value) :
    yields (events ++ [.yielded key keys]) = yields events ++ [(key, keys)] := by
  simp [yields]

@[simp]
theorem yields_append_edited (e : DictEdit) (before after : List Value) :
    yields (events ++ [.edited e before after]) = yields events := by
  simp [yields]

end KeyEvent

namespace KeyWalk

open KeyEvent

variable {ref it : Nat} {w₀ w : World} {events : List KeyEvent}

/-- The state in which the iterator is made. -/
theorem start_eq (h : (Op.cursorOf (.dict ref) : Exec Nat) w₀ = .ok it w) :
    w.store.iterator it = { cursor := .keys ref 0 (w₀.store.keys ref).length } ∧
      w.store.dict ref = w₀.store.dict ref := by
  have hrun : (Op.cursorOf (.dict ref) : Exec Nat) w₀ = .ok w₀.store.iterators.size
      { w₀ with store := { w₀.store with
        iterators := w₀.store.iterators.push
          { cursor := .keys ref 0 (w₀.store.dict ref).size } } } := rfl
  rw [hrun] at h
  cases h
  exact ⟨by simp [Store.iterator, Store.keys, Dict.keys, Dict.size], rfl⟩

/-- The position of the iterator is how many keys it has given. -/
theorem iterator_eq (h : KeyWalk ref it w₀ events w) : w.store.iterator it =
    { cursor := .keys ref (yields events).length (w₀.store.keys ref).length } := by
  induction h with
  | start h => exact (start_eq h).1
  | next call fuel _ h ih =>
      obtain ⟨-, -, -, hit⟩ := Exec.next_keys_ok ih h
      simpa using hit rfl
  | edit e call fuel _ _ hit ih => simpa using hit.trans ih
  | other _ _ hit ih => exact hit.trans ih

/-- Each key that was given comes from its position in the dict of the time, which had as many keys
as there were when the iterator was made. -/
theorem getElem?_yields (h : KeyWalk ref it w₀ events w) :
    ∀ (i : Nat) (key : Value) (keys : List Value), (yields events)[i]? = some (key, keys) →
      keys.length = (w₀.store.keys ref).length ∧ keys[i]? = some key := by
  induction h with
  | start => exact fun i key keys hget => nomatch hget
  | @next events w w' key' call fuel hw h ih =>
      intro i key keys hget
      rw [yields_append_yielded, List.getElem?_append] at hget
      split at hget
      next => exact ih i key keys hget
      next hge =>
        -- the key that was given last
        obtain ⟨hsize, hkey, -⟩ := Exec.next_keys_ok hw.iterator_eq h
        obtain ⟨hlt, hlast⟩ := List.getElem?_eq_some_iff.mp hget
        rw [List.length_singleton] at hlt
        obtain rfl : i = (yields events).length := by omega
        rw [List.getElem_singleton] at hlast
        cases hlast
        exact ⟨hsize, hkey⟩
  | edit e call fuel _ _ _ ih => simpa using ih
  | other _ _ _ ih => exact ih

/-- No edit of a history removes a key or moves one. -/
def Grows (events : List KeyEvent) : Prop :=
  ∀ e before after, .edited e before after ∈ events → e.Adds ∨ before <+: after

/-- As long as no key is removed, the keys that there were stay at the front. -/
theorem keys_prefix_of_grows (h : KeyWalk ref it w₀ events w) (hgrows : Grows events) :
    w₀.store.keys ref <+: w.store.keys ref ∧
      ∀ p ∈ yields events, w₀.store.keys ref <+: p.2 := by
  -- by induction on the walk: asking for a key leaves the dict, and changes only add keys
  induction h with
  | start h => exact ⟨Store.keys_congr (start_eq h).2 ▸ List.prefix_rfl, fun p hp => nomatch hp⟩
  | next call fuel hw h ih =>
      obtain ⟨hnow, hthen⟩ := ih fun e before after he => hgrows e before after (by simp [he])
      obtain ⟨-, -, hdict, -⟩ := Exec.next_keys_ok hw.iterator_eq h
      refine ⟨Store.keys_congr hdict ▸ hnow, fun p hp => ?_⟩
      rw [yields_append_yielded, List.mem_append, List.mem_singleton] at hp
      rcases hp with hp | rfl
      · exact hthen p hp
      · exact hnow
  | edit e call fuel hw h _ ih =>
      obtain ⟨hnow, hthen⟩ := ih fun e before after he => hgrows e before after (by simp [he])
      refine ⟨hnow.trans ?_, by simpa using hthen⟩
      rcases hgrows e _ _ (List.mem_append_right _ List.mem_cons_self) with hadds | hfront
      · exact h ▸ hadds.keys_prefix_after call fuel ref _
      · exact hfront
  | other _ hdict _ ih =>
      obtain ⟨hnow, hthen⟩ := ih hgrows
      exact ⟨Store.keys_congr hdict ▸ hnow, hthen⟩

/-! ## At the end -/

/-- An iterator that comes to its end has given as many keys as there were when it was made, each
from its position in the dict of the time. If no key has been removed they are the keys that there
were, in their order. -/
theorem yields_of_exhausted (h : KeyWalk ref it w₀ events w) {call : Callback} {fuel : Nat}
    {w' : World} (hend : Exec.next call fuel it w = .ok none w') :
    (yields events).length = (w₀.store.keys ref).length ∧
      (∀ (i : Nat) (key : Value) (keys : List Value), (yields events)[i]? = some (key, keys) →
        keys.length = (w₀.store.keys ref).length ∧ keys[i]? = some key) ∧
      (Grows events → (yields events).map (·.1) = w₀.store.keys ref) := by
  have hyields := h.getElem?_yields
  obtain ⟨hsize, hnone, -⟩ := Exec.next_keys_ok h.iterator_eq hend
  have hge : (w₀.store.keys ref).length ≤ (yields events).length := by
    rw [← hsize]
    exact List.getElem?_eq_none_iff.mp hnone
  have hle : (yields events).length ≤ (w₀.store.keys ref).length := by
    by_contra hlt
    -- the key that was given last would come from behind the end of the dict
    obtain ⟨⟨key, keys⟩, hget⟩ : ∃ p, (yields events)[(w₀.store.keys ref).length]? = some p :=
      ⟨_, List.getElem?_eq_getElem (by omega)⟩
    obtain ⟨hlength, hkey⟩ := hyields _ key keys hget
    rw [List.getElem?_eq_none hlength.le] at hkey
    cases hkey
  have hcount : (yields events).length = (w₀.store.keys ref).length := le_antisymm hle hge
  refine ⟨hcount, hyields, fun hgrows => List.ext_getElem? fun i => ?_⟩
  rw [List.getElem?_map]
  cases hget : (yields events)[i]? with
  | none =>
      have hbehind : (w₀.store.keys ref).length ≤ i := hcount ▸ List.getElem?_eq_none_iff.mp hget
      rw [List.getElem?_eq_none hbehind]
      rfl
  | some p =>
      obtain ⟨key, keys⟩ := p
      obtain ⟨hlength, hkey⟩ := hyields i key keys hget
      -- the keys that there were are in front of these, and they are as many
      have hfront := (h.keys_prefix_of_grows hgrows).2 (key, keys) (List.mem_of_getElem? hget)
      rw [hfront.eq_of_length hlength.symm, hkey]
      rfl

/-- A dict of two keys, and the iterator over it after some steps. -/
def midway (d : Dict) (position : Nat) : World :=
  { store := { dicts := #[d], iterators := #[{ cursor := .keys 0 position 2 }] } }

/-- The dict of two integers. -/
def twoKeys : Dict := (Dict.set {} (.int 1) (.int 1) .none).set (.int 2) (.int 2) .none

/-- A value is replaced and a dict merged, neither of which removes a key. -/
theorem yields_of_exhausted_replaced :
    let call := (Machine.surroundings {} 1).callback
    let w₀ : World := { store := { dicts := #[twoKeys] } }
    let events : List KeyEvent := [.yielded (.int 1) [.int 1, .int 2],
      .edited (.set (.int 1) (.int 10)) [.int 1, .int 2] [.int 1, .int 2],
      .edited (.update (.dict 0)) [.int 1, .int 2] [.int 1, .int 2],
      .yielded (.int 2) [.int 1, .int 2]]
    ∃ w w', KeyWalk 0 0 w₀ events w ∧ Exec.next call 1 0 w = .ok none w' ∧ Grows events ∧
      (yields events).map (·.1) = w₀.store.keys 0 := by
  intro call w₀ events
  let d := twoKeys.set (.int 1) (.int 1) (.int 10)
  -- the walk, from its end to its start
  have hwalk : KeyWalk 0 0 w₀ events (midway d 2) :=
    .next (w := midway d 1) call 1
      (.edit (w := midway d 1) (.update (.dict 0)) call 1
        (.edit (w := midway twoKeys 1) (.set (.int 1) (.int 10)) call 1
          (.next (w := midway twoKeys 0) call 1 (.start rfl) rfl) rfl rfl) rfl rfl) rfl
  have hgrows : Grows events := by
    intro e before after he
    simp only [events, List.mem_cons, List.not_mem_nil, or_false, reduceCtorEq, false_or,
      KeyEvent.edited.injEq] at he
    rcases he with ⟨rfl, -⟩ | ⟨rfl, -⟩ <;> exact .inl trivial
  obtain ⟨w', hend⟩ : ∃ w', Exec.next call 1 0 (midway d 2) = .ok none w' := ⟨_, rfl⟩
  exact ⟨_, w', hwalk, hend, hgrows, (hwalk.yields_of_exhausted hend).2.2 hgrows⟩

/-- The key that was given first is removed and another one added, so that there are as many keys as
before: the iterator goes on behind the key that has moved to the front, and never gives it. -/
theorem not_keys :
    let call := (Machine.surroundings {} 1).callback
    let w₀ : World := { store := { dicts := #[twoKeys] } }
    let events : List KeyEvent := [.yielded (.int 1) [.int 1, .int 2],
      .edited (.pop (.int 1)) [.int 1, .int 2] [.int 2],
      .edited (.set (.int 3) .none) [.int 2] [.int 2, .int 3],
      .yielded (.int 3) [.int 2, .int 3]]
    ∃ w w', KeyWalk 0 0 w₀ events w ∧ Exec.next call 1 0 w = .ok none w' ∧
      (yields events).map (·.1) = [.int 1, .int 3] ∧ w₀.store.keys 0 = [.int 1, .int 2] := by
  intro call w₀ events
  let d := Dict.set {} (.int 2) (.int 2) .none
  let d' := d.set (.int 3) (.int 3) .none
  have hwalk : KeyWalk 0 0 w₀ events (midway d' 2) :=
    .next (w := midway d' 1) call 1
      (.edit (w := midway d 1) (.set (.int 3) .none) call 1
        (.edit (w := midway twoKeys 1) (.pop (.int 1)) call 1
          (.next (w := midway twoKeys 0) call 1 (.start rfl) rfl) rfl rfl) rfl rfl) rfl
  exact ⟨_, _, hwalk, rfl, rfl, rfl⟩

end KeyWalk

end Wordcode
