import Wordcode.Proofs.Exhaustion
import Wordcode.Proofs.KeyFunctions
import Mathlib

namespace Wordcode

/-! # Lazy iterators

What `zip`, `map`, `filter` and `enumerate` make asks other iterators for items, and may call a
function with them. Over sequences the items come out as if they were all there at once, as long as
the function changes none of the sequences and takes nothing from the iterators in between.

* `Serves` says that a function gives a value for one thing after another and leaves the sequences
  and the iterators alone.
* `Passes` is a run in which one thing after another is handled, once each, and only the iterators
  move in between. `Maps` and `Filters` say how a thing is handled.
* `yields_zip`, `yields_map`, `yields_filter` and `yields_enumerate` are the runs of the iterators.
* `Exec.lazy_iterators_agree` is the result.
* `Exec.not_maps` is about a function that takes items from the iterator that calls it.
-/

/-! ## Functions -/

/-- The lists among the sequences hold what they held, and the iterators stand where they stood. -/
structure LeavesAlone (sequences : List Value) (own : List Nat) (w w' : World) : Prop where
  items : ∀ l, .list l ∈ sequences → w'.store.items l = w.store.items l
  iterators : ∀ ref ∈ own, w'.store.iterators[ref]? = w.store.iterators[ref]?

/-- The function gives a value for each thing in turn, wherever the iterators stand, and leaves the
sequences and the iterators alone. -/
def Serves {ι α : Type} (gives : ι → α → Prop) (use : α → Exec Value) (sequences : List Value)
    (own : List Nat) : List ι → World → Prop
  | [], _ => True
  | i :: is, w => ∀ a w₁, gives i a → Moves own w w₁ → ∃ v w₂, use a w₁ = .ok v w₂ ∧
      LeavesAlone sequences own w₁ w₂ ∧ Serves gives use sequences own is w₂

/-- Things are handled in turn, once each. In between only the iterators move. -/
inductive Passes {ι : Type} (handles : ι → World → Option Value → World → Prop) (own : List Nat) :
    World → List ι → List Value → World → Prop
  | nil {w w' : World} (h : Moves own w w') : Passes handles own w [] [] w'
  | cons {w w₁ w₂ w' : World} {i : ι} {is : List ι} {v? : Option Value} {vs : List Value}
    (hmoves : Moves own w w₁) (h : handles i w₁ v? w₂) (rest : Passes handles own w₂ is vs w') :
    Passes handles own w (i :: is) (v?.toList ++ vs) w'

/-- A row is mapped: the function is called with its items. -/
def Maps (call : Callback) (f : Value) (row : List Element) (w : World) (v? : Option Value)
    (w' : World) : Prop :=
  ∃ args v, List.Forall₂ Element.Gives row args ∧ call.value f args w = .ok v w' ∧ v? = some v

/-- What decides about an item: the result of a function, or the item itself. -/
def decision (call : Callback) (f? : Option Value) (v : Value) : Exec Value :=
  match f? with
  | none => pure v
  | some f => call.value f [v]

/-- An argument that may be `None`. -/
def optional (v : Value) : Option Value := if v.isNone then none else some v

/-- An item is kept if the decision about it counts as true. -/
def Filters (call : Callback) (f? : Option Value) (e : Element) (w : World) (v? : Option Value)
    (w' : World) : Prop :=
  ∃ v d b, e.Gives v ∧ decision call f? v w = .ok d w' ∧
    Op.truthy d w'.store = .ok b w'.store ∧ v? = if b then some v else none

/-- A new tuple of the items of a row. -/
def IsTuple (row : List Element) (v : Value) : Prop :=
  ∃ items id, List.Forall₂ Element.Gives row items ∧ v = .tuple items id

/-- A new pair of a count and an item. -/
def IsPair (start : Int64) (p : Element × Nat) (v : Value) : Prop :=
  ∃ item id, p.1.Gives item ∧ v = .tuple [.int (start + Int64.ofNat p.2), item] id

theorem LeavesAlone.refl (sequences : List Value) (own : List Nat) (w : World) :
    LeavesAlone sequences own w w := ⟨fun _ _ => rfl, fun _ _ => rfl⟩

namespace Passes

variable {ι : Type} {handles : ι → World → Option Value → World → Prop} {own : List Nat}
  {w w₁ w' : World} {is : List ι} {vs : List Value}

/-- The iterators may move at the end of a run. -/
theorem trans_moves (h : Passes handles own w is vs w₁) (hmoves : Moves own w₁ w') :
    Passes handles own w is vs w' := by
  induction h with
  | nil h => exact .nil (h.trans hmoves)
  | cons hmoves' h _ ih => exact .cons hmoves' h (ih hmoves)

end Passes

theorem Op.exists_truthy (v : Value) (s : Store) : ∃ b, Op.truthy v s = .ok b s := by
  cases v <;> exact ⟨_, rfl⟩

/-- Whether a value counts as true does not depend on where iterators stand. -/
theorem Op.run'_truthy_of_moves {own : List Nat} {w w' : World} (h : Moves own w w') (v : Value) :
    (Op.truthy v).run' w'.store = (Op.truthy v).run' w.store := by
  rw [h.same]
  cases v <;> rfl

namespace Exec

variable {call : Callback} {fuel ref : Nat} {sources own : List Nat} {sequences : List Value}
  {row : List Element} {rs : List (List Element)} {w w' : World}

/-- An iterator marks its end when there is nothing more to ask for. -/
theorem yields_nil {need : Nat} {w₁ : World}
    (hend : ∀ fuel, need ≤ fuel → next call fuel ref w = (do
      Op.setDone ref
      return none : Exec (Option Value)) w₁)
    (hmoves : Moves own w w₁) (href : ref ∈ own) :
    ∃ w', Yields call ref need w [] w' ∧ Moves own w w' ∧ Exhausted w' ref := by
  obtain ⟨w', hdone, hmoves', hexhausted⟩ := setDone_eq w₁ ref
  exact ⟨w', .stop fun fuel hfuel => (hend fuel hfuel).trans (bind_of_ok hdone),
    hmoves.trans (hmoves'.mono (by simpa using href)), hexhausted⟩

/-! ## Zip -/

/-- What comes from a `zip`: a tuple of an item of each source. -/
theorem next_zip (call : Callback) (fuel : Nat)
    (h : w.store.iterators[ref]? = some { cursor := .zip sources }) (hne : sources ≠ []) :
    next call (fuel + 1) ref w = (do
      match ← nextAll (next call fuel) sources with
      | none =>
        Op.setDone ref
        return none
      | some vs => return some (← Op.newTuple vs) : Exec (Option Value)) w := by
  have hempty : sources.isEmpty = false := by simpa using hne
  rw [next]
  refine (bind_of_ok (iterator_of_getElem? h)).trans ?_
  rw [if_neg Bool.false_ne_true]
  simp only [hempty, Bool.false_eq_true, if_false]
  refine congrFun (bind_congr fun vs? => ?_) w
  cases vs? <;> rfl

/-- A `zip` of iterators that give some rows gives tuples of these. -/
theorem yields_zip (call : Callback) (h : w.store.iterators[ref]? = some { cursor := .zip sources })
    (hsources : StandTogether sequences w sources rs) (hfresh : ref ∉ sources)
    (hown : ref :: sources ⊆ own) :
    ∃ vs w', Yields call ref 2 w vs w' ∧ List.Forall₂ IsTuple rs vs ∧ Moves own w w' ∧
      Exhausted w' ref := by
  have hne := hsources.sources_ne_nil
  obtain ⟨href, hsub⟩ := List.cons_subset.mp hown
  -- the induction is on the rows that the sources still have to give together
  induction rs generalizing w with
  | nil =>
      obtain ⟨w₁, hnext, hmoves⟩ := hsources.next_nil
      have hend (fuel : Nat) (hfuel : 2 ≤ fuel) : next call fuel ref w = (do
          Op.setDone ref
          return none : Exec (Option Value)) w₁ := by
        obtain ⟨fuel, rfl⟩ := Nat.exists_eq_add_of_le' hfuel
        rw [next_zip call (fuel + 1) h hne]
        exact bind_of_ok (hnext call fuel)
      obtain ⟨w', hyields, hmoves', hexhausted⟩ := yields_nil hend (hmoves.mono hsub) href
      exact ⟨[], w', hyields, .nil, hmoves', hexhausted⟩
  | cons row rs ih =>
      obtain ⟨items, w₁, hnext, hgives, hmoves, hsources'⟩ := hsources.next_cons
      -- the tuple takes an identity, which no source depends on
      let w₂ : World := { w₁ with store := { w₁.store with nextId := w₁.store.nextId + 1 } }
      have hmoves₂ : Moves own w w₂ := (hmoves.mono hsub).trans (.of_fresh own w₁ _)
      obtain ⟨vs, w', hyields, htuples, hmoves', hexhausted⟩ :=
        ih (w := w₂) ((hmoves.others ref hfresh).trans h)
          (hsources'.of_same (fun _ _ => rfl) fun _ _ => rfl)
      refine ⟨.tuple items w₁.store.nextId :: vs, w', .item (fun fuel hfuel => ?_) hyields,
        .cons ⟨items, _, hgives, rfl⟩ htuples, hmoves₂.trans hmoves', hexhausted⟩
      obtain ⟨fuel, rfl⟩ := Nat.exists_eq_add_of_le' hfuel
      rw [next_zip call (fuel + 1) h hne]
      exact (bind_of_ok (hnext call fuel)).trans rfl

/-- A `zip` of nothing gives nothing. -/
theorem yields_zip_nil (call : Callback)
    (h : w.store.iterators[ref]? = some { cursor := .zip [] }) :
    ∃ w', Yields call ref 1 w [] w' ∧ Moves [ref] w w' ∧ Exhausted w' ref := by
  refine yields_nil (fun fuel hfuel => ?_) (.refl [ref] w) List.mem_cons_self
  obtain ⟨fuel, rfl⟩ := Nat.exists_eq_add_of_le' hfuel
  rw [next]
  exact bind_of_ok (iterator_of_getElem? h)

/-! ## Map -/

/-- A `map` over iterators that give some rows calls its function with each of them, once, and gives
the results. -/
theorem yields_map {f : Value}
    (h : w.store.iterators[ref]? = some { cursor := .map f sources })
    (hsources : StandTogether sequences w sources rs) (hfresh : ref ∉ sources)
    (hown : ref :: sources ⊆ own)
    (hserves : Serves (List.Forall₂ Element.Gives) (call.value f) sequences own rs w) :
    ∃ vs w', Yields call ref 2 w vs w' ∧ Passes (Maps call f) own w rs vs w' ∧
      Exhausted w' ref := by
  obtain ⟨href, hsub⟩ := List.cons_subset.mp hown
  induction rs generalizing w with
  | nil =>
      obtain ⟨w₁, hnext, hmoves⟩ := hsources.next_nil
      have hend (fuel : Nat) (hfuel : 2 ≤ fuel) : next call fuel ref w = (do
          Op.setDone ref
          return none : Exec (Option Value)) w₁ := by
        obtain ⟨fuel, rfl⟩ := Nat.exists_eq_add_of_le' hfuel
        rw [next_map call (fuel + 1) (iterator_eq_of_getElem? h)]
        exact bind_of_ok (hnext call fuel)
      obtain ⟨w', hyields, hmoves', hexhausted⟩ := yields_nil hend (hmoves.mono hsub) href
      exact ⟨[], w', hyields, .nil hmoves', hexhausted⟩
  | cons row rs ih =>
      obtain ⟨args, w₁, hnext, hgives, hmoves, hsources'⟩ := hsources.next_cons
      have hmoves₁ := hmoves.mono hsub
      -- the call finds the sources behind this row, and leaves them there
      obtain ⟨v, w₂, hcall, hleaves, hserves'⟩ := hserves args w₁ hgives hmoves₁
      have hcursor : w₂.store.iterators[ref]? = some { cursor := .map f sources } :=
        (hleaves.iterators ref href).trans ((hmoves.others ref hfresh).trans h)
      have hsources₂ := hsources'.of_same (fun r hr => hleaves.iterators r (hsub hr)) hleaves.items
      obtain ⟨vs, w', hyields, hpasses, hexhausted⟩ := ih hcursor hsources₂ hserves'
      refine ⟨v :: vs, w', .item (fun fuel hfuel => ?_) hyields,
        .cons hmoves₁ ⟨args, v, hgives, hcall, rfl⟩ hpasses, hexhausted⟩
      obtain ⟨fuel, rfl⟩ := Nat.exists_eq_add_of_le' hfuel
      rw [next_map call (fuel + 1) (iterator_eq_of_getElem? h)]
      exact (bind_of_ok (hnext call fuel)).trans ((bind_of_ok hcall).trans rfl)

/-! ## Filter -/

section

variable {f? : Option Value} {source : Nat} {e : Element} {es : List Element}

/-- What comes from a `filter`: the first item that the decision is for. -/
theorem next_filter_eq (call : Callback) (fuel : Nat)
    (h : w.store.iterators[ref]? = some { cursor := .filter f? source }) :
    next call (fuel + 1) ref w = (do
      match ← next call fuel source with
      | none =>
        Op.setDone ref
        return none
      | some v =>
        if ← Op.truthy (← decision call f? v) then return some v
        else
          let item ← next call fuel ref
          if item.isNone then Op.setDone ref
          return item : Exec (Option Value)) w := by
  rw [next]
  refine (bind_of_ok (iterator_of_getElem? h)).trans ?_
  rw [if_neg Bool.false_ne_true]
  refine congrFun (bind_congr fun v? => ?_) w
  cases v? with
  | none => rfl
  | some v =>
      -- without a function the item decides about itself
      cases f? with
      | none => exact bind_congr fun passes => by cases passes <;> rfl
      | some f =>
          exact bind_congr fun d => bind_congr fun passes => by cases passes <;> rfl

/-- Without a function nothing is called. -/
theorem serves_decision_none (call : Callback) (sequences : List Value) (own : List Nat)
    (es : List Element) (w : World) :
    Serves Element.Gives (decision call none) sequences own es w := by
  induction es generalizing w with
  | nil => trivial
  | cons e es ih => exact fun v w₁ _ _ => ⟨v, w₁, rfl, .refl sequences own w₁, ih w₁⟩

/-- One item of a `filter`: the source gives it, and it is decided about. -/
theorem next_filter_of_decision {v d : Value} {b : Bool} {w₁ w₂ : World}
    (h : w.store.iterators[ref]? = some { cursor := .filter f? source })
    (hnext : next call fuel source w = .ok (some v) w₁)
    (hdecision : decision call f? v w₁ = .ok d w₂)
    (htruthy : Op.truthy d w₂.store = .ok b w₂.store) :
    next call (fuel + 1) ref w = (if b then return some v
      else do
        let item ← next call fuel ref
        if item.isNone then Op.setDone ref
        return item : Exec (Option Value)) w₂ := by
  rw [next_filter_eq call fuel h]
  refine (bind_of_ok hnext).trans ?_
  refine (bind_of_ok hdecision).trans ?_
  exact bind_of_ok (lift_of_ok htruthy)

/-- A run of a `filter` from behind an item that it passes over. -/
theorem yields_of_passed {need : Nat} {vs : List Value} {w₂ : World}
    (hpassed : ∀ fuel, need ≤ fuel → next call (fuel + 1) ref w = (do
      let item ← next call fuel ref
      if item.isNone then Op.setDone ref
      return item : Exec (Option Value)) w₂)
    (hyields : Yields call ref need w₂ vs w') (hexhausted : Exhausted w' ref) :
    ∃ w'', Yields call ref (need + 1) w vs w'' ∧ Moves [ref] w' w'' ∧ Exhausted w'' ref := by
  -- an item that is passed over makes the first run one step longer
  cases hyields with
  | stop hnext =>
      obtain ⟨w'', hdone, hmoves, hexhausted'⟩ := setDone_eq w' ref
      refine ⟨w'', .stop fun fuel hfuel => ?_, hmoves, hexhausted'⟩
      obtain ⟨fuel, rfl⟩ := Nat.exists_eq_add_of_le' (Nat.le_of_add_left_le hfuel)
      rw [hpassed fuel (by omega)]
      exact (bind_of_ok (hnext fuel (by omega))).trans ((bind_of_ok hdone).trans rfl)
  | item hnext rest =>
      refine ⟨w', .item (fun fuel hfuel => ?_) (rest.mono (Nat.le_succ need)), .refl _ w',
        hexhausted⟩
      obtain ⟨fuel, rfl⟩ := Nat.exists_eq_add_of_le' (Nat.le_of_add_left_le hfuel)
      rw [hpassed fuel (by omega)]
      exact (bind_of_ok (hnext fuel (by omega))).trans rfl

/-- A `filter` of an iterator decides about each of its items, once, and gives those that the
decision is for. -/
theorem yields_filter (h : w.store.iterators[ref]? = some { cursor := .filter f? source })
    (hsource : Stands sequences w source es) (hne : source ≠ ref) (hown : [ref, source] ⊆ own)
    (hserves : Serves Element.Gives (decision call f?) sequences own es w) :
    ∃ vs w', Yields call ref (es.length + 2) w vs w' ∧ Passes (Filters call f?) own w es vs w' ∧
      Exhausted w' ref := by
  have hfresh : ref ∉ [source] := by simpa using hne.symm
  obtain ⟨href, hsub⟩ := List.cons_subset.mp hown
  -- each item that is passed over takes one more level of fuel
  induction es generalizing w with
  | nil =>
      obtain ⟨w₁, hnext, hmoves, -⟩ := hsource.next_nil
      have hend (fuel : Nat) (hfuel : 2 ≤ fuel) : next call fuel ref w = (do
          Op.setDone ref
          return none : Exec (Option Value)) w₁ := by
        obtain ⟨fuel, rfl⟩ := Nat.exists_eq_add_of_le' hfuel
        rw [next_filter_eq call (fuel + 1) h]
        exact bind_of_ok (hnext call fuel)
      obtain ⟨w', hyields, hmoves', hexhausted⟩ := yields_nil hend (hmoves.mono hsub) href
      exact ⟨[], w', hyields, .nil hmoves', hexhausted⟩
  | cons e es ih =>
      obtain ⟨v, w₁, hnext, hgives, hmoves, hsource'⟩ := hsource.next_cons
      obtain ⟨d, w₂, hdecision, hleaves, hserves'⟩ := hserves v w₁ hgives (hmoves.mono hsub)
      obtain ⟨b, htruthy⟩ := Op.exists_truthy d w₂.store
      have hcursor : w₂.store.iterators[ref]? = some { cursor := .filter f? source } :=
        (hleaves.iterators ref href).trans ((hmoves.others ref hfresh).trans h)
      have hsource₂ := hsource'.of_same (hleaves.iterators source (hsub (by simp))) hleaves.items
      have hstep (fuel : Nat) := next_filter_of_decision h (hnext call fuel) hdecision htruthy
      obtain ⟨vs, w', hyields, hpasses, hexhausted⟩ := ih hcursor hsource₂ hserves'
      have hhandled : Filters call f? e w₁ (if b then some v else none) w₂ :=
        ⟨v, d, b, hgives, hdecision, htruthy, rfl⟩
      cases b with
      | true =>
          refine ⟨v :: vs, w', .item (fun fuel hfuel => ?_) (hyields.mono (by simp)),
            .cons (hmoves.mono hsub) hhandled hpasses, hexhausted⟩
          obtain ⟨fuel, rfl⟩ := Nat.exists_eq_add_of_le' (Nat.le_of_add_left_le hfuel)
          exact hstep fuel
      | false =>
          obtain ⟨w'', hyields', hmoves', hexhausted'⟩ :=
            yields_of_passed (fun fuel hfuel => by
              obtain ⟨fuel, rfl⟩ := Nat.exists_eq_add_of_le' (Nat.le_of_add_left_le hfuel)
              exact hstep (fuel + 1)) hyields hexhausted
          refine ⟨vs, w'', hyields', ?_, hexhausted'⟩
          exact .cons (hmoves.mono hsub) hhandled
            (hpasses.trans_moves (hmoves'.mono (by simpa using href)))

/-- Where the items decide themselves, those that count as true are given. -/
theorem eq_filter_of_passes {items : List Value}
    (h : Passes (Filters call none) own w es items w') :
    ∃ given, List.Forall₂ Element.Gives es given ∧
      items = given.filter (fun v => (Op.truthy v).run' w.store = some true) ∧ Moves own w w' := by
  -- the decisions are about values, which draining the source does not change
  induction h with
  | nil h => exact ⟨[], .nil, rfl, h⟩
  | @cons w w₁ w₂ w' e es v? vs hmoves hhandled _ ih =>
      obtain ⟨v, d, b, hgives, hdecision, htruthy, rfl⟩ := hhandled
      cases hdecision
      obtain ⟨given, hall, rfl, hmoves'⟩ := ih
      have hkept : (Op.truthy v).run' w.store = some b := by
        rw [← Op.run'_truthy_of_moves hmoves, EStateM.run', EStateM.run, htruthy]
      have hothers : (given.filter fun u => (Op.truthy u).run' w₁.store = some true) =
          given.filter fun u => (Op.truthy u).run' w.store = some true :=
        List.filter_congr fun u _ => by rw [Op.run'_truthy_of_moves hmoves]
      refine ⟨v :: given, .cons hgives hall, ?_, hmoves.trans hmoves'⟩
      rw [List.filter_cons, hkept, hothers]
      cases b <;> rfl

/-! ## Enumerate -/

/-- What comes from an `enumerate`: the count and an item of the source. -/
theorem next_enumerate (call : Callback) (fuel : Nat) {count : Int64}
    (h : w.store.iterators[ref]? = some { cursor := .enumerate source count }) :
    next call (fuel + 1) ref w = (do
      match ← next call fuel source with
      | none =>
        Op.setDone ref
        return none
      | some v =>
        let count := match (← (Op.iterator ref : Op Iteration)).cursor with
          | .enumerate _ count => count
          | _ => 0
        let pair ← Op.newTuple [.int count, v]
        Op.setCursor ref (.enumerate source (count + 1))
        return some pair : Exec (Option Value)) w := by
  rw [next]
  refine (bind_of_ok (iterator_of_getElem? h)).trans ?_
  rw [if_neg Bool.false_ne_true]
  refine congrFun (bind_congr fun v? => ?_) w
  cases v? <;> rfl

/-- An `enumerate` of an iterator gives its items with the counts from a start on. -/
theorem yields_enumerate (call : Callback) {start : Int64} {k : Nat}
    (h : w.store.iterators[ref]? = some { cursor := .enumerate source (start + Int64.ofNat k) })
    (hsource : Stands sequences w source es) (hne : source ≠ ref) (hown : [ref, source] ⊆ own) :
    ∃ vs w', Yields call ref 2 w vs w' ∧ List.Forall₂ (IsPair start) (es.zipIdx k) vs ∧
      Moves own w w' ∧ Exhausted w' ref := by
  have hfresh : ref ∉ [source] := by simpa using hne.symm
  obtain ⟨hmem, hsub⟩ := List.cons_subset.mp hown
  induction es generalizing w k with
  | nil =>
      obtain ⟨w₁, hnext, hmoves, -⟩ := hsource.next_nil
      have hend (fuel : Nat) (hfuel : 2 ≤ fuel) : next call fuel ref w = (do
          Op.setDone ref
          return none : Exec (Option Value)) w₁ := by
        obtain ⟨fuel, rfl⟩ := Nat.exists_eq_add_of_le' hfuel
        rw [next_enumerate call (fuel + 1) h]
        exact bind_of_ok (hnext call fuel)
      obtain ⟨w', hyields, hmoves', hexhausted⟩ := yields_nil hend (hmoves.mono hsub) hmem
      exact ⟨[], w', hyields, .nil, hmoves', hexhausted⟩
  | cons e es ih =>
      obtain ⟨v, w₁, hnext, hgives, hmoves, hsource'⟩ := hsource.next_cons
      -- the count is read where the source has moved already
      have href := (hmoves.others ref hfresh).trans h
      have hword : start + Int64.ofNat k + 1 = start + Int64.ofNat (k + 1) := by
        rw [Int64.add_assoc, Int64.ofNat_add]
        rfl
      let pair : Value := .tuple [.int (start + Int64.ofNat k), v] w₁.store.nextId
      let w₂ : World := { w₁ with store := { w₁.store with
        iterators := w₁.store.iterators.modify ref
          ({ · with cursor := .enumerate source (start + Int64.ofNat k + 1) })
        nextId := w₁.store.nextId + 1 } }
      have hmoves₂ : Moves [ref] w₁ w₂ := by
        refine ⟨rfl, fun other hother => ?_⟩
        have hne' : ref ≠ other := fun heq => hother (by simp [heq])
        simp [w₂, Array.getElem?_modify, hne']
      have href₂ : w₂.store.iterators[ref]? =
          some { cursor := .enumerate source (start + Int64.ofNat (k + 1)) } := by
        simp [w₂, Array.getElem?_modify, href, hword]
      obtain ⟨vs, w', hyields, hpairs, hmoves', hexhausted⟩ :=
        ih href₂ (hsource'.of_moves hmoves₂ (by simpa using hne))
      refine ⟨pair :: vs, w', .item (fun fuel hfuel => ?_) hyields,
        .cons ⟨v, _, hgives, rfl⟩ hpairs,
        (hmoves.mono hsub).trans ((hmoves₂.mono (by simpa using hmem)).trans hmoves'), hexhausted⟩
      obtain ⟨fuel, rfl⟩ := Nat.exists_eq_add_of_le' hfuel
      rw [next_enumerate call (fuel + 1) h]
      refine (bind_of_ok (hnext call fuel)).trans ?_
      exact (bind_of_ok (iterator_of_getElem? href)).trans rfl

end

/-! ## Builtins -/

/-- The iterators that are in the second world only. -/
def made (w w' : World) : List Nat :=
  List.range' w.store.iterators.size (w'.store.iterators.size - w.store.iterators.size)

/-- An iterator is made over each of several sequences, and one over these. -/
theorem exists_over {xs : List Value} (hxs : ∀ x ∈ xs, x.IsSequence) (make : List Nat → Cursor)
    (w : World) :
    ∃ ref sources w₁, (zipSources 1 xs >>= fun sources =>
        (liftM (Op.newIterator (make sources)) : Exec Value)) w = .ok (.iterator ref) w₁ ∧
      w₁.store.iterators[ref]? = some { cursor := make sources } ∧
      (xs = [] → sources = []) ∧
      (xs ≠ [] → StandTogether xs w₁ sources (rows (xs.map w.store.elements))) ∧
      ref ∉ sources ∧ ref :: sources ⊆ made w w₁ := by
  obtain ⟨new, w', hsources, hopens, hcount, hstands⟩ :=
    zipSources_eq (fun x hx => ⟨hxs x hx, hx⟩) 1 w
  obtain ⟨w₁, hnew, hopens'⟩ :=
    newIterator_eq w' (make (List.range' w.store.iterators.size xs.length))
  -- the sources come first among the new iterators, and the one over them last
  have hsize := hopens.size_eq
  have hsize' := hopens'.size_eq
  refine ⟨w'.store.iterators.size, _, w₁, (bind_of_ok hsources).trans hnew,
    hopens'.getElem?_new 0, ?_, fun hne => ⟨List.nodup_range', _, by simpa using hne, ?_, rfl⟩, ?_,
    ?_⟩
  · rintro rfl
    rfl
  · exact hstands.imp fun _ _ => hopens'.stands
  · rw [List.mem_range'_1]
    omega
  · intro ref href
    rw [made, List.mem_range'_1]
    rcases List.mem_cons.mp href with rfl | href
    · simp only [List.length_singleton] at hsize'
      omega
    · rw [List.mem_range'_1] at href
      simp only [List.length_singleton] at hsize'
      omega

/-- An iterator is made over a sequence, and one over this. -/
theorem exists_over_one {x : Value} (hx : x.IsSequence) (make : Nat → Cursor) (w : World) :
    ∃ ref source w₁, ((liftM (Op.cursorOf x) : Exec Nat) >>= fun source =>
        (liftM (Op.newIterator (make source)) : Exec Value)) w = .ok (.iterator ref) w₁ ∧
      w₁.store.iterators[ref]? = some { cursor := make source } ∧
      Stands [x] w₁ source (w.store.elements x) ∧ source ≠ ref ∧ [ref, source] ⊆ made w w₁ := by
  obtain ⟨it, w', hcursor, hopens, hstands⟩ := cursorOf_eq hx (List.mem_singleton_self x) w
  obtain ⟨w₁, hnew, hopens'⟩ := newIterator_eq w' (make w.store.iterators.size)
  have hsize := hopens.size_eq
  have hsize' := hopens'.size_eq
  simp only [List.length_singleton] at hsize hsize'
  refine ⟨w'.store.iterators.size, _, w₁, (bind_of_ok hcursor).trans hnew,
    hopens'.getElem?_new 0, hopens'.stands hstands, by omega, fun ref href => ?_⟩
  rw [made, List.mem_range'_1]
  simp only [List.mem_cons, List.not_mem_nil, or_false] at href
  omega

/-- Collecting the iterator gives these values, given enough fuel, and brings it to its end. -/
def Drained (call : Callback) (w : World) (ref : Nat) (vs : List Value) (w' : World) : Prop :=
  (∃ enough, ∀ fuel, enough ≤ fuel → collect call fuel (.iterator ref) w = .ok vs w') ∧
    Exhausted w' ref

theorem Drained.of_yields {need : Nat} {vs : List Value} (h : Yields call ref need w vs w')
    (hexhausted : Exhausted w' ref) : Drained call w ref vs w' :=
  ⟨⟨need + vs.length + 2, fun _ hfuel => h.collect_eq (by omega)⟩, hexhausted⟩

/-- A `zip` of sequences. -/
theorem zip_spec (call : Callback) (fuel : Nat) (w : World) {xs : List Value}
    (hxs : ∀ x ∈ xs, x.IsSequence) :
    ∃ ref w₁ vs w₂, callBuiltin call fuel .zip xs [] w = .ok (.iterator ref) w₁ ∧
      Drained call w₁ ref vs w₂ ∧ List.Forall₂ IsTuple (rows (xs.map w.store.elements)) vs ∧
      Moves (made w w₁) w₁ w₂ := by
  obtain ⟨ref, sources, w₁, hrun, hcursor, hempty, hsources, hfresh, hown⟩ :=
    exists_over hxs .zip w
  have hbuiltin : callBuiltin call fuel .zip xs [] w = .ok (.iterator ref) w₁ := by
    rw [← hrun, callBuiltin]
    rfl
  by_cases hne : xs = []
  · obtain rfl := hempty hne
    subst hne
    obtain ⟨w₂, hyields, hmoves, hexhausted⟩ := yields_zip_nil call hcursor
    exact ⟨ref, w₁, [], w₂, hbuiltin, .of_yields hyields hexhausted, .nil, hmoves.mono hown⟩
  · obtain ⟨vs, w₂, hyields, htuples, hmoves, hexhausted⟩ :=
      yields_zip call hcursor (hsources hne) hfresh hown
    exact ⟨ref, w₁, vs, w₂, hbuiltin, .of_yields hyields hexhausted, htuples, hmoves⟩

/-- A `map` of a function over sequences. -/
theorem map_spec (call : Callback) (fuel : Nat) (w : World) {f : Value} {xs : List Value}
    (hf : f.isCallable = true) (hne : xs ≠ []) (hxs : ∀ x ∈ xs, x.IsSequence) :
    ∃ ref w₁, callBuiltin call fuel .map (f :: xs) [] w = .ok (.iterator ref) w₁ ∧
      (Serves (List.Forall₂ Element.Gives) (call.value f) xs (made w w₁)
          (rows (xs.map w.store.elements)) w₁ →
        ∃ vs w₂, Drained call w₁ ref vs w₂ ∧
          Passes (Maps call f) (made w w₁) w₁ (rows (xs.map w.store.elements)) vs w₂) := by
  obtain ⟨ref, sources, w₁, hrun, hcursor, -, hsources, hfresh, hown⟩ :=
    exists_over hxs (.map f) w
  refine ⟨ref, w₁, ?_, fun hserves => ?_⟩
  · -- there is at least one source
    have harity : checkArity .map (f :: xs).length = pure () := by
      obtain ⟨x, xs, rfl⟩ := List.exists_cons_of_ne_nil hne
      simp [checkArity, arityOf]
    have hmap : runBuiltin call fuel .map (f :: xs) [] = (do
        if !f.isCallable then typeError s!"map() expected a callable ({f.typeName} given)"
        Op.newIterator (.map f (← zipSources 1 xs)) : Exec Value) := rfl
    rw [← hrun, callBuiltin, harity, hmap, hf]
    rfl
  · obtain ⟨vs, w₂, hyields, hpasses, hexhausted⟩ :=
      yields_map hcursor (hsources hne) hfresh hown hserves
    exact ⟨vs, w₂, .of_yields hyields hexhausted, hpasses⟩

/-- A `filter` of a sequence, with a function or without one. -/
theorem filter_spec (call : Callback) (fuel : Nat) (w : World) {f x : Value}
    (hf : f.isNone = true ∨ f.isCallable = true) (hx : x.IsSequence) :
    ∃ ref w₁, callBuiltin call fuel .filter [f, x] [] w = .ok (.iterator ref) w₁ ∧
      (Serves Element.Gives (decision call (optional f)) [x] (made w w₁) (w.store.elements x) w₁ →
        ∃ vs w₂, Drained call w₁ ref vs w₂ ∧
          Passes (Filters call (optional f)) (made w w₁) w₁ (w.store.elements x) vs w₂) := by
  obtain ⟨ref, source, w₁, hrun, hcursor, hsource, hne, hown⟩ :=
    exists_over_one hx (.filter (optional f)) w
  refine ⟨ref, w₁, ?_, fun hserves => ?_⟩
  · rw [← hrun]
    rcases hf with hnone | hcallable
    · cases f with
      | none => rfl
      | _ => cases hnone
    · cases f with
      | function | method | builtin | host => rfl
      | _ => cases hcallable
  · obtain ⟨vs, w₂, hyields, hpasses, hexhausted⟩ :=
      yields_filter hcursor hsource hne hown hserves
    exact ⟨vs, w₂, .of_yields hyields hexhausted, hpasses⟩

/-- An `enumerate` of a sequence. -/
theorem enumerate_spec (call : Callback) (fuel : Nat) (w : World) {x start : Value} {s : Int64}
    (hx : x.IsSequence) (hstart : start.int? = some s) :
    ∃ ref w₁ vs w₂, callBuiltin call fuel .enumerate [x, start] [] w = .ok (.iterator ref) w₁ ∧
      Drained call w₁ ref vs w₂ ∧ List.Forall₂ (IsPair s) (w.store.elements x).zipIdx vs ∧
      Moves (made w w₁) w₁ w₂ := by
  obtain ⟨ref, source, w₁, hrun, hcursor, hsource, hne, hown⟩ :=
    exists_over_one hx (.enumerate · s) w
  have hbuiltin : callBuiltin call fuel .enumerate [x, start] [] w = .ok (.iterator ref) w₁ := by
    have hread : integerArgument start = pure s := by rw [integerArgument, hstart]
    have henumerate : callBuiltin call fuel .enumerate [x, start] [] = (do
        let count ← integerArgument start
        Op.newIterator (.enumerate (← Op.cursorOf x) count) : Exec Value) := rfl
    rw [← hrun, henumerate, hread]
    rfl
  have hcount : s + Int64.ofNat 0 = s := by simp
  obtain ⟨vs, w₂, hyields, hpairs, hmoves, hexhausted⟩ :=
    yields_enumerate call (by rwa [hcount]) hsource hne hown
  exact ⟨ref, w₁, vs, w₂, hbuiltin, .of_yields hyields hexhausted, hpairs, hmoves⟩

/-- Draining a lazy iterator over sequences gives what its definition on lists says. A `zip` gives
the tuples of corresponding items, a `map` the result of one call for each of them, a `filter` the
items that the decision is for, and an `enumerate` the items with their counts. An iterator that has
come to its end stays there, and asks nothing of anyone. -/
theorem lazy_iterators_agree (call : Callback) (fuel : Nat) (w : World) {xs : List Value}
    {x f start : Value} {s : Int64} (hxs : ∀ x ∈ xs, x.IsSequence) (hx : x.IsSequence)
    (hf : f.isCallable = true) (hstart : start.int? = some s) :
    (∃ ref w₁ vs w₂, callBuiltin call fuel .zip xs [] w = .ok (.iterator ref) w₁ ∧
      Drained call w₁ ref vs w₂ ∧ List.Forall₂ IsTuple (rows (xs.map w.store.elements)) vs ∧
      Moves (made w w₁) w₁ w₂) ∧
    (xs ≠ [] → ∃ ref w₁, callBuiltin call fuel .map (f :: xs) [] w = .ok (.iterator ref) w₁ ∧
      (Serves (List.Forall₂ Element.Gives) (call.value f) xs (made w w₁)
          (rows (xs.map w.store.elements)) w₁ →
        ∃ vs w₂, Drained call w₁ ref vs w₂ ∧
          Passes (Maps call f) (made w w₁) w₁ (rows (xs.map w.store.elements)) vs w₂)) ∧
    (∃ ref w₁, callBuiltin call fuel .filter [f, x] [] w = .ok (.iterator ref) w₁ ∧
      (Serves Element.Gives (fun v => call.value f [v]) [x] (made w w₁) (w.store.elements x) w₁ →
        ∃ vs w₂, Drained call w₁ ref vs w₂ ∧
          Passes (Filters call (some f)) (made w w₁) w₁ (w.store.elements x) vs w₂)) ∧
    (∃ ref w₁ given w₂, callBuiltin call fuel .filter [.none, x] [] w = .ok (.iterator ref) w₁ ∧
      List.Forall₂ Element.Gives (w.store.elements x) given ∧
      Drained call w₁ ref
        (given.filter fun v => (Op.truthy v).run' w₁.store = some true) w₂ ∧
      Moves (made w w₁) w₁ w₂) ∧
    (∃ ref w₁ vs w₂, callBuiltin call fuel .enumerate [x, start] [] w = .ok (.iterator ref) w₁ ∧
      Drained call w₁ ref vs w₂ ∧ List.Forall₂ (IsPair s) (w.store.elements x).zipIdx vs ∧
      Moves (made w w₁) w₁ w₂) ∧
    (∀ (w' : World) (ref : Nat), Exhausted w' ref →
      ∀ call' fuel', next call' (fuel' + 1) ref w' = .ok none w') ∧
    ∀ call' : Callback, (∀ f args, Lasts World.store (call' f args)) →
      ∀ fuel' ref, Lasts World.store (next call' fuel' ref) := by
  refine ⟨zip_spec call fuel w hxs, fun hne => map_spec call fuel w hf hne hxs, ?filter, ?none,
    enumerate_spec call fuel w hx hstart, fun w' ref h => next_of_exhausted h,
    fun call' hcall => lasts_next hcall⟩
  case filter =>
    have hoptional : optional f = some f := by cases f <;> first | rfl | cases hf
    obtain ⟨ref, w₁, hrun, hdrain⟩ := filter_spec call fuel w (.inr hf) hx
    rw [hoptional] at hdrain
    exact ⟨ref, w₁, hrun, hdrain⟩
  case none =>
    obtain ⟨ref, w₁, hrun, hdrain⟩ := filter_spec call fuel w (f := .none) (.inl rfl) hx
    obtain ⟨vs, w₂, hdrained, hpasses⟩ := hdrain (serves_decision_none call [x] _ _ w₁)
    obtain ⟨given, hgiven, rfl, hmoves⟩ := eq_filter_of_passes hpasses
    exact ⟨ref, w₁, given, w₂, hrun, hgiven, hdrained, hmoves⟩

/-- The absolute values of two integers. -/
theorem lazy_iterators_agree_abs :
    let call := (Machine.surroundings {} 2).callback
    let x : Value := .tuple [.int (-3), .int 2] 0
    let rs : List (List Element) := [[.value (.int (-3))], [.value (.int 2)]]
    x.IsSequence ∧ (Value.builtin .abs).isCallable = true ∧ (Value.int 5).int? = some 5 ∧
      ∃ ref w₁, callBuiltin call 2 .map [.builtin .abs, x] [] {} = .ok (.iterator ref) w₁ ∧
        Serves (List.Forall₂ Element.Gives) (call.value (.builtin .abs)) [x] (made {} w₁) rs w₁ ∧
        ∃ vs w₂, Drained call w₁ ref vs w₂ ∧
          Passes (Maps call (.builtin .abs)) (made {} w₁) w₁ rs vs w₂ := by
  intro call x rs
  have hcall (n : Int64) (w : World) : call.value (.builtin .abs) [.int n] w =
      .ok (.int (if n < 0 then -n else n)) w := rfl
  -- the function is called twice, and changes nothing
  have hserves (own : List Nat) (w : World) :
      Serves (List.Forall₂ Element.Gives) (call.value (.builtin .abs)) [x] own rs w := by
    intro args w₁ hargs _
    obtain rfl : args = [.int (-3)] := Element.eq_of_gives hargs
    refine ⟨_, w₁, hcall (-3) w₁, .refl [x] own w₁, fun args w₂ hargs _ => ?_⟩
    obtain rfl : args = [.int 2] := Element.eq_of_gives hargs
    exact ⟨_, w₂, hcall 2 w₂, .refl [x] own w₂, trivial⟩
  have hx : x.IsSequence := trivial
  have hf : (Value.builtin .abs).isCallable = true := rfl
  have hstart : (Value.int 5).int? = some 5 := rfl
  have hxs : ∀ y ∈ [x], y.IsSequence := by simpa using hx
  obtain ⟨ref, w₁, hrun, hdrain⟩ :=
    (lazy_iterators_agree call 2 {} hxs hx hf hstart).2.1 (List.cons_ne_nil x [])
  exact ⟨hx, hf, hstart, ref, w₁, hrun, hserves _ w₁, hdrain (hserves _ w₁)⟩

/-! ## A function that takes items -/

/-- A function that takes an item from the iterator `m` and then returns its argument. -/
def takingFunction : Function where
  code :=
    { name := "f", serial := 1, variableNames := ["x"], positional := 1, names := ["next", "m"]
      constants := [.none]
      instructions := [0x74, 0, 0x74, 1, 0x64, 0, 0x83, 2, 1, 0, 0x7c, 0, 0x53, 0] }
  keywordDefaults := 0
  snapshot := 0

/-- A running program in which `m` is the second iterator. -/
def takingWorld (iterators : Array Iteration) : World where
  running := true
  globals := [("m", .iterator 1)]
  builtins := [("next", .builtin .next)]
  store := { iterators, dicts := #[{}], scopes := #[[]], functions := #[takingFunction] }

/-- The program when the second iterator maps the function over the items of the first one. -/
def mappingWorld : World :=
  takingWorld #[{ cursor := .items "tuple_iterator" [.int 1, .int 2] },
    { cursor := .map (.function 0) [0] }]

/-- As long as the `map` has both items, the function returns its argument. -/
theorem call_takingFunction_one :
    ∃ w', (Machine.surroundings {} 12).callback (.function 0) [.int 1] mappingWorld =
      .ok (some (.int 1)) w' := by
  refine ⟨?_, ?_⟩
  rotate_left 1
  · cbv
    rfl

theorem call_takingFunction_two :
    ∃ w', (Machine.surroundings {} 12).callback (.function 0) [.int 2] mappingWorld =
      .ok (some (.int 2)) w' := by
  refine ⟨?_, ?_⟩
  rotate_left 1
  · cbv
    rfl

theorem next_mappingWorld :
    ∃ w', next (Machine.surroundings {} 12).callback 3 1 mappingWorld = .ok (some (.int 1)) w' ∧
      Exhausted w' 1 := by
  refine ⟨?_, ?_, ?_⟩
  rotate_left 1
  · cbv
    rfl
  · rfl

/-- Collecting from an iterator that gives one item. -/
theorem collect_of_next {call : Callback} {fuel ref : Nat} {w w₁ w₂ : World} {v : Value}
    (hnext : next call (fuel + 1) ref w = .ok (some v) w₁)
    (hend : next call fuel ref w₁ = .ok none w₂) :
    collect call (fuel + 3) (.iterator ref) w = .ok [v] w₂ := by
  show drain.go call (fuel + 2) ref #[] w = _
  rw [drain.go, bind_of_ok hnext]
  show drain.go call (fuel + 1) ref #[v] w₁ = _
  rw [drain.go, bind_of_ok hend]
  rfl

/-- A function that takes items from the `map` that calls it: it returns its argument on each call,
and changes no list, but the `map` over two items gives only the first one. -/
theorem not_maps :
    let call := (Machine.surroundings {} 12).callback
    let x : Value := .tuple [.int 1, .int 2] 0
    let w : World := takingWorld #[]
    ∃ w₁ w₂, callBuiltin call 5 .map [.function 0, x] [] w = .ok (.iterator 1) w₁ ∧
      (∃ w', call (.function 0) [.int 1] w₁ = .ok (some (.int 1)) w') ∧
      (∃ w', call (.function 0) [.int 2] w₁ = .ok (some (.int 2)) w') ∧
      collect call 5 (.iterator 1) w₁ = .ok [.int 1] w₂ ∧
      (rows [w.store.elements x]).length = 2 := by
  intro call x w
  obtain ⟨w₂, hnext, hexhausted⟩ := next_mappingWorld
  have hmap : callBuiltin call 5 .map [.function 0, x] [] w = .ok (.iterator 1) mappingWorld :=
    rfl
  have hlength : (rows [w.store.elements x]).length = 2 := rfl
  have hend := next_of_exhausted hexhausted call 1
  exact ⟨mappingWorld, w₂, hmap, call_takingFunction_one, call_takingFunction_two,
    collect_of_next hnext hend, hlength⟩

end Exec

end Wordcode
