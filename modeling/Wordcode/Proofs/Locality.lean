import Wordcode.Proofs.Sequence
import Wordcode.Proofs.Untraced
import Mathlib

namespace Wordcode

/-! # Local computations

A computation on a state is local when it leaves a part of the state alone and fails without a
trace. Operations on values are local in the store, whatever they change there, since they cannot
reach the frames of the machine. Those that only look at the store are local in every part of it.

* `Local` is the property, with one rule for each way of putting computations together.
* `Op.local_bind` and its like say that operations on values are local.
-/

/-! ## Rules -/

/-- A computation that leaves a part of the state alone, and that only fails untraced. -/
def Local {σ κ α : Type} (part : σ → κ) (x : EStateM Failure σ α) : Prop :=
  ∀ s, (∀ a s', x s = .ok a s' → part s' = part s) ∧
    ∀ e s', x s = .error e s' → part s' = part s ∧ e.Untraced

/-- The part of the store that no operation on values changes, which is none of it. -/
def Store.fixed (_ : Store) : Unit := ()

section

variable {σ κ α β : Type} {part : σ → κ}

theorem Local.trace_eq_nil {x : EStateM Failure σ α} (h : Local part x) {s s' : σ} {e : Failure}
    {f : Fault} (hrun : x s = .error e s') (hf : e.fault? = some f) : f.trace = [] :=
  ((h s).2 e s' hrun).2 f hf

@[grind ←]
theorem local_pure (a : α) : Local part (pure a) := by
  intro s
  constructor
  · intro a' s' h
    cases h
    rfl
  · intro e s' h
    cases h

@[grind ←]
theorem local_throw {e : Failure} (h : e.Untraced) :
    Local part (throw e : EStateM Failure σ α) := by
  intro s
  constructor
  · intro a s' hrun
    cases hrun
  · intro e' s' hrun
    cases hrun
    exact ⟨rfl, h⟩

@[grind ←]
theorem Local.bind {x : EStateM Failure σ α} {k : α → EStateM Failure σ β} (hx : Local part x)
    (hk : ∀ a, Local part (k a)) : Local part (x >>= k) := by
  intro s
  -- a failure of the first part is the failure of the whole
  cases hrun : x s with
  | error e s₁ =>
      rw [bind_of_error hrun]
      constructor
      · intro b s' h
        cases h
      · intro e' s' h
        cases h
        exact (hx s).2 e s₁ hrun
  | ok a s₁ =>
      have hsame := (hx s).1 a s₁ hrun
      rw [bind_of_ok hrun]
      constructor
      · intro b s' h
        exact ((hk a s₁).1 b s' h).trans hsame
      · intro e s' h
        obtain ⟨hpart, he⟩ := (hk a s₁).2 e s' h
        exact ⟨hpart.trans hsame, he⟩

@[grind ←]
theorem Local.map {x : EStateM Failure σ α} (hx : Local part x) (f : α → β) :
    Local part (f <$> x) :=
  hx.bind fun a => local_pure (f a)

@[grind ←]
theorem local_get : Local part (get : EStateM Failure σ σ) := by
  intro s
  constructor
  · intro a s' h
    cases h
    rfl
  · intro e s' h
    cases h

theorem local_modifyGet {f : σ → α × σ} (h : ∀ s, part (f s).2 = part s) :
    Local part (modifyGet f : EStateM Failure σ α) := by
  intro s
  constructor
  · intro a s' hrun
    cases hrun
    exact h s
  · intro e s' hrun
    cases hrun

theorem local_modify {f : σ → σ} (h : ∀ s, part (f s) = part s) :
    Local part (modify f : EStateM Failure σ PUnit) :=
  local_modifyGet h

@[grind ←]
theorem Local.handle {x : EStateM Failure σ α} {h : Failure → EStateM Failure σ α}
    (hx : Local part x) (hh : ∀ e, e.Untraced → Local part (h e)) :
    Local part (tryCatch x h) := by
  intro s
  -- the handler only sees failures that have not been traced
  cases hrun : x s with
  | ok a s₁ =>
      rw [tryCatch_of_ok hrun]
      constructor
      · intro a' s' h'
        cases h'
        exact (hx s).1 a s₁ hrun
      · intro e s' h'
        cases h'
  | error e s₁ =>
      obtain ⟨hsame, he⟩ := (hx s).2 e s₁ hrun
      rw [tryCatch_of_error hrun]
      constructor
      · intro a s' h'
        exact ((hh e he s₁).1 a s' h').trans hsame
      · intro e' s' h'
        obtain ⟨hpart, he'⟩ := (hh e he s₁).2 e' s' h'
        exact ⟨hpart.trans hsame, he'⟩

@[grind ←]
theorem local_foldlM {f : β → α → EStateM Failure σ β} (h : ∀ b a, Local part (f b a))
    (as : List α) (b : β) : Local part (as.foldlM f b) := by
  induction as generalizing b with
  | nil => exact local_pure b
  | cons a as ih =>
      rw [List.foldlM_cons]
      exact (h b a).bind ih

@[grind ←]
theorem local_mapM {f : α → EStateM Failure σ β} (h : ∀ a, Local part (f a)) (as : List α) :
    Local part (as.mapM f) := by
  induction as with
  | nil => exact local_pure []
  | cons a as ih =>
      rw [List.mapM_cons]
      exact (h a).bind fun b => ih.bind fun bs => local_pure (b :: bs)

end

/-! ## Sorting -/

section

variable {σ κ α : Type} {part : σ → κ} {less : α → α → EStateM Failure σ Bool}
  (hless : ∀ x y, Local part (less x y))
include hless

theorem local_insert (x : α) (run : List α) : Local part (Sort.insert less x run) := by
  induction run with
  | nil => exact local_pure [x]
  | cons y ys ih =>
      rw [Sort.insert]
      grind

theorem local_insertion (xs : List α) : Local part (Sort.insertion less xs) := by
  unfold Sort.insertion
  exact (local_foldlM (fun run x => local_insert hless x run) xs []).bind fun run => local_pure _

theorem local_lessAt (xs : Array α) (i j : Nat) : Local part (Sort.lessAt less xs i j) := by
  unfold Sort.lessAt
  grind

omit hless in
theorem local_search {test : Nat → EStateM Failure σ Bool} (htest : ∀ i, Local part (test i))
    (fuel low high : Nat) : Local part (Sort.search test fuel low high) := by
  induction fuel generalizing low high with
  | zero => exact local_pure low
  | succ fuel ih =>
      rw [Sort.search]
      grind

theorem local_merge (fuel : Nat) (xs ys : List α) : Local part (Sort.merge less fuel xs ys) := by
  induction fuel generalizing xs ys with
  | zero => exact local_pure (xs ++ ys)
  | succ fuel ih =>
      have hlessAt := local_lessAt hless
      unfold Sort.merge
      split
      · grind
      · grind
      · grind
      · exact (local_search (by grind) _ _ _).bind fun i => local_pure _
      · exact (local_search (by grind) _ _ _).bind fun i => local_pure _
      · exact (local_search (by grind) _ _ _).bind fun start => by grind

theorem local_mergePairs (runs : List (List α)) : Local part (Sort.mergePairs less runs) := by
  fun_induction Sort.mergePairs less runs with
  | case1 xs ys rest ih =>
      exact (local_merge hless _ xs ys).bind fun merged => ih.bind fun runs => local_pure _
  | case2 runs => exact local_pure runs

theorem local_mergeAll (fuel : Nat) (runs : List (List α)) :
    Local part (Sort.mergeAll less fuel runs) := by
  induction fuel generalizing runs with
  | zero => exact local_pure runs.flatten
  | succ fuel ih =>
      have hpairs := local_mergePairs hless runs
      unfold Sort.mergeAll
      grind

@[grind ←]
theorem local_stable (xs : List α) : Local part (Sort.stable less xs) := by
  unfold Sort.stable
  exact (local_mapM (local_insertion hless) _).bind fun runs => local_mergeAll hless _ runs

end

/-! ## Operations on values -/

namespace Op

variable {α κ : Type} {part : Store → κ}

@[grind ←]
theorem local_modifyStore (f : Store → Store) :
    Local Store.fixed (modify f : Op Unit) := local_modify fun _ => rfl

@[grind ←]
theorem local_modifyGetStore (f : Store → α × Store) :
    Local Store.fixed (modifyGet f : Op α) := local_modifyGet fun _ => rfl

@[grind ←]
theorem local_raise (kind : Fault.Kind) (message : String) :
    Local part (raise kind message : Op α) :=
  local_throw (Failure.untraced_raise kind message)

@[grind ←]
theorem local_typeError (message : String) : Local part (typeError message : Op α) :=
  local_raise .type message

@[grind ←]
theorem local_valueError (message : String) : Local part (valueError message : Op α) :=
  local_raise .value message

@[grind ←]
theorem local_ofExcept {x : Except Failure α} (h : FailsUntraced x) :
    Local part (ofExcept x) := by
  cases x with
  | ok a => exact local_pure a
  | error e => exact local_throw (h e rfl)

@[grind ←]
theorem local_fresh : Local Store.fixed fresh := local_modifyGetStore _

/-! ### The store -/

@[grind ←]
theorem local_newFloat (x : Float) : Local Store.fixed (newFloat x) := by
  unfold newFloat
  grind

@[grind ←]
theorem local_newStr (text : String) : Local Store.fixed (newStr text) := by
  unfold newStr
  grind

@[grind ←]
theorem local_newTuple (items : List Value) : Local Store.fixed (newTuple items) := by
  unfold newTuple
  grind

@[grind ←]
theorem local_newRange (r : Range) : Local Store.fixed (newRange r) := by
  unfold newRange
  grind

@[grind ←]
theorem local_newSlice (start stop step : Value) :
    Local Store.fixed (newSlice start stop step) := by
  unfold newSlice
  grind

@[grind ←]
theorem local_newMethod (receiver : Value) (m : Method) :
    Local Store.fixed (newMethod receiver m) := by
  unfold newMethod
  grind

@[grind ←]
theorem local_newCode (c : Code) : Local Store.fixed (newCode c) := by
  unfold newCode
  grind

@[grind ←]
theorem local_addDict (d : Dict) : Local Store.fixed (addDict d) := by
  unfold addDict
  grind

@[grind ←]
theorem local_newScope (vs : Bindings) : Local Store.fixed (newScope vs) := by
  unfold newScope
  grind

@[grind ←]
theorem local_newFunction (code : Code) (defaults : List Value) (keywordDefaults? : Option Nat)
    (snapshot : Nat) :
    Local Store.fixed (newFunction code defaults keywordDefaults? snapshot) := by
  unfold newFunction
  cases keywordDefaults? with
  | none => exact (local_addDict {}).bind fun _ => local_modifyGet fun _ => rfl
  | some ref => exact (local_pure ref).bind fun _ => local_modifyGet fun _ => rfl

@[grind ←]
theorem local_newList (items : List Value) : Local Store.fixed (newList items) := by
  unfold newList
  grind

@[grind ←]
theorem local_newDict (d : Dict) : Local Store.fixed (newDict d) := by
  unfold newDict
  grind

@[grind ←]
theorem local_newCursor (cursor : Cursor) : Local Store.fixed (newCursor cursor) := by
  unfold newCursor
  grind

@[grind ←]
theorem local_newIterator (cursor : Cursor) : Local Store.fixed (newIterator cursor) := by
  unfold newIterator
  grind

@[grind ←]
theorem local_items (ref : Nat) : Local part (items ref) := by
  unfold items
  grind

@[grind ←]
theorem local_dict (ref : Nat) : Local part (dict ref) := by
  unfold dict
  grind

@[grind ←]
theorem local_entries (ref : Nat) : Local part (entries ref) := by
  unfold entries
  grind

@[grind ←]
theorem local_iterator (ref : Nat) : Local part (iterator ref) := by
  unfold iterator
  grind

@[grind ←]
theorem local_scope (ref : Nat) : Local part (scope ref) := by
  unfold scope
  grind

@[grind ←]
theorem local_closure (ref : Nat) : Local part (closure ref) := by
  unfold closure
  grind

@[grind ←]
theorem local_setItems (ref : Nat) (items : List Value) :
    Local Store.fixed (setItems ref items) := by
  unfold setItems
  grind

@[grind ←]
theorem local_moveItems (ref : Nat) (items : List Value) :
    Local Store.fixed (moveItems ref items) := by
  unfold moveItems
  grind

@[grind ←]
theorem local_blockOf (ref : Nat) : Local Store.fixed (blockOf ref) := by
  unfold blockOf
  grind

@[grind ←]
theorem local_cells (block : Nat) : Local part (cells block) := by
  unfold cells
  grind

@[grind ←]
theorem local_setCells (block : Nat) (values : List Value) :
    Local Store.fixed (setCells block values) := by
  unfold setCells
  grind

@[grind ←]
theorem local_setDict (ref : Nat) (d : Dict) : Local Store.fixed (setDict ref d) := by
  unfold setDict
  grind

@[grind ←]
theorem local_setScope (ref : Nat) (vs : Bindings) :
    Local Store.fixed (setScope ref vs) := by
  unfold setScope
  grind

@[grind ←]
theorem local_setCursor (ref : Nat) (cursor : Cursor) :
    Local Store.fixed (setCursor ref cursor) := by
  unfold setCursor
  grind

@[grind ←]
theorem local_setDone (ref : Nat) : Local Store.fixed (setDone ref) := by
  unfold setDone
  grind

@[grind ←]
theorem local_repr (v : Value) : Local part (repr v) := by
  unfold repr
  grind

@[grind ←]
theorem local_str (v : Value) : Local part (str v) := by
  unfold str
  grind

@[grind ←]
theorem local_newStrs (texts : List String) : Local Store.fixed (newStrs texts) :=
  local_mapM local_newStr texts

/-! ### Dicts -/

@[grind ←]
theorem local_hash (v : Value) : Local Store.fixed (hash v) :=
  local_ofExcept (failsUntraced_hash v)

@[grind ←]
theorem local_dictGet? (ref : Nat) (key : Value) : Local Store.fixed (dictGet? ref key) := by
  unfold dictGet?
  grind

@[grind ←]
theorem local_dictSet (ref : Nat) (key value : Value) :
    Local Store.fixed (dictSet ref key value) := by
  unfold dictSet
  grind

@[grind ←]
theorem local_dictPop? (ref : Nat) (key : Value) : Local Store.fixed (dictPop? ref key) := by
  unfold dictPop?
  grind

@[grind ←]
theorem local_missingKey (key : Value) : Local Store.fixed (missingKey key : Op α) := by
  unfold missingKey
  grind

@[grind ←]
theorem local_dictDelete (ref : Nat) (key : Value) : Local Store.fixed (dictDelete ref key) := by
  unfold dictDelete
  grind

@[grind ←]
theorem local_dictClear (ref : Nat) : Local Store.fixed (dictClear ref) :=
  local_setDict ref {}

@[grind ←]
theorem local_dictCopy (ref : Nat) : Local Store.fixed (dictCopy ref) := by
  unfold dictCopy
  grind

@[grind ←]
theorem local_dictSetDefault (ref : Nat) (key fallback : Value) :
    Local Store.fixed (dictSetDefault ref key fallback) := by
  unfold dictSetDefault
  grind

@[grind ←]
theorem local_dictMerge (ref : Nat) (entries : List Entry) :
    Local Store.fixed (dictMerge ref entries) := by
  unfold dictMerge
  grind

@[grind ←]
theorem local_dictUnion (a b : Nat) : Local Store.fixed (dictUnion a b) := by
  unfold dictUnion
  grind

@[grind ←]
theorem local_dictKeys (ref : Nat) : Local Store.fixed (dictKeys ref) := by
  unfold dictKeys
  grind

@[grind ←]
theorem local_dictValues (ref : Nat) : Local Store.fixed (dictValues ref) := by
  unfold dictValues
  grind

@[grind ←]
theorem local_dictItems (ref : Nat) : Local Store.fixed (dictItems ref) := by
  unfold dictItems
  refine (local_entries ref).bind fun es => Local.bind (local_mapM ?_ es) local_newList
  exact fun e => local_newTuple [e.key, e.value]

@[grind ←]
theorem local_dictOfPairs (pairs : List (Value × Value)) :
    Local Store.fixed (dictOfPairs pairs) := by
  unfold dictOfPairs
  refine Local.bind (local_foldlM ?_ pairs _) local_newDict
  rintro d ⟨key, value⟩
  grind

/-! ### Equality and order -/

@[grind ←]
theorem local_equals (a b : Value) : Local part (equals a b) := by
  unfold equals
  grind

@[grind ←]
theorem local_identical (a b : Value) : Local part (identical a b) := by
  unfold identical
  grind

@[grind ←]
theorem local_compare (c : Comparison) (a b : Value) : Local part (compare c a b) := by
  unfold compare
  grind

@[grind ←]
theorem local_less (a b : Value) : Local part (less a b) := by
  unfold less
  grind

@[grind ←]
theorem local_indexOf? (items : List Value) (v : Value) :
    Local part (indexOf? items v) := by
  unfold indexOf?
  grind

@[grind ←]
theorem local_countOf (items : List Value) (v : Value) : Local part (countOf items v) := by
  unfold countOf
  grind

/-! ### Operators -/

@[grind ←]
theorem local_zeroDivision (message : String) : Local Store.fixed (zeroDivision message : Op α) :=
  local_raise .zeroDivision message

@[grind ←]
theorem local_intOp (o : BinaryOperator) (a b : Int64) : Local Store.fixed (intOp o a b) := by
  unfold intOp
  grind

@[grind ←]
theorem local_unsupported (symbol : String) (a b : Value) :
    Local Store.fixed (unsupported symbol a b : Op α) := by
  unfold unsupported
  grind

@[grind ←]
theorem local_floatOp (o : BinaryOperator) (a b : Float) (left right : Value) :
    Local Store.fixed (floatOp o a b left right) := by
  unfold floatOp
  grind

@[grind ←]
theorem local_repeatList (xs : List α) (times : Int64) (bytes : Nat) :
    Local Store.fixed (repeatList xs times bytes) := by
  unfold repeatList
  grind

@[grind ←]
theorem local_binary (o : BinaryOperator) (a b : Value) : Local Store.fixed (binary o a b) := by
  unfold binary
  repeat' split
  all_goals grind

@[grind ←]
theorem local_negate (v : Value) : Local Store.fixed (negate v) := by
  unfold negate
  grind

@[grind ←]
theorem local_positive (v : Value) : Local Store.fixed (positive v) := by
  unfold positive
  grind

@[grind ←]
theorem local_invert (v : Value) : Local Store.fixed (invert v) := by
  unfold invert
  grind

@[grind ←]
theorem local_truthy (v : Value) : Local part (truthy v) := by
  unfold truthy
  grind

@[grind ←]
theorem local_asStr (v : Value) : Local part (asStr v) := by
  unfold asStr
  grind

@[grind ←]
theorem local_length (v : Value) : Local part (length v) := by
  unfold length
  grind

/-! ### Subscripts -/

@[grind ←]
theorem local_itemAt (items : List Value) (key : Value) (what : String) :
    Local Store.fixed (itemAt items key what) := by
  unfold itemAt
  grind

@[grind ←]
theorem local_getItem (container key : Value) : Local Store.fixed (getItem container key) := by
  unfold getItem
  grind

@[grind ←]
theorem local_delItem (container key : Value) : Local Store.fixed (delItem container key) := by
  unfold delItem
  grind

@[grind ←]
theorem local_getMethod (v : Value) (name : String) : Local Store.fixed (getMethod v name) := by
  unfold getMethod
  grind

@[grind ←]
theorem local_cursorOf (v : Value) : Local Store.fixed (cursorOf v) := by
  unfold cursorOf
  grind

@[grind ←]
theorem local_iterate (v : Value) : Local Store.fixed (iterate v) := by
  unfold iterate
  grind

@[grind ←]
theorem local_advance (ref : Nat) (cursor : Cursor) : Local Store.fixed (advance ref cursor) := by
  unfold advance
  grind

@[grind ←]
theorem local_format (v : Value) (text : String) : Local Store.fixed (format v text) := by
  unfold format
  grind

@[grind ←]
theorem local_lessKey (a b : Option Value) : Local part (Exec.lessKey a b) := by
  cases a with
  | none => exact local_throw Failure.untraced_crash
  | some a =>
      cases b with
      | none => exact local_throw Failure.untraced_crash
      | some b => exact local_less a b

@[grind ←]
theorem local_inOrder (descending : Bool) (keyed : List (Option Value × α)) :
    Local part (Exec.inOrder descending keyed) := by
  refine Local.bind (local_stable (fun a b => ?_) _) fun sorted => local_pure _
  split <;> exact local_lessKey _ _

/-! ### Constants and arguments -/

@[grind ←]
theorem Local.labelled {x : Op α} (hx : Local Store.fixed x) (label : String) :
    Local Store.fixed (labelled label x) := by
  unfold Op.labelled
  refine hx.handle fun e he => local_throw ?_
  split
  · exact he.within label
  · exact he

mutual

theorem local_ofConst : (k : Const) → Local Store.fixed (ofConst k)
  | .tuple ks => by
      rw [ofConst]
      exact (local_ofConsts ks).bind local_newTuple
  | .none | .bool _ | .int _ | .float _ | .str _ | .stray _ | .code _ | .noCode | .array _
  | .foreign _ => by
      grind [ofConst]

theorem local_ofConsts : (ks : List Const) → Local Store.fixed (ofConsts ks)
  | [] => local_pure []
  | k :: ks => by
      rw [ofConsts]
      exact (local_ofConst k).bind fun v => (local_ofConsts ks).bind fun vs => local_pure (v :: vs)

end

theorem local_toValue (slot : Slot) : Local Store.fixed slot.toValue := by
  unfold Slot.toValue
  split
  · grind
  · grind
  · refine Local.bind (local_foldlM ?_ _ _) local_newDict
    rintro d ⟨name, v⟩
    grind

theorem local_bind (c : Call) : Local Store.fixed c.bind := by
  unfold Call.bind
  refine (local_ofExcept (Call.failsUntraced_plan c)).bind fun slots => ?_
  refine Local.bind (local_mapM ?_ slots) fun bound => local_pure _
  rintro ⟨name, slot⟩
  exact (local_toValue slot).map _

theorem local_makeScope (c : Call) : Local Store.fixed c.makeScope :=
  (local_bind c).bind fun vs => local_newScope vs

end Op

/-! ## Operations in the machine -/

namespace Exec

variable {α κ : Type} {x : Op α} {w : World} {s : Store}

theorem lift_of_ok {a : α} (h : x w.store = .ok a s) :
    (liftM x : Exec α) w = .ok a { w with store := s } := by
  change Exec.lift x w = _
  rw [Exec.lift, h]

theorem lift_of_error {e : Failure} (h : x w.store = .error e s) :
    (liftM x : Exec α) w = .error e { w with store := s } := by
  change Exec.lift x w = _
  rw [Exec.lift, h]

/-- What an operation leaves alone in the store is left alone in the world. -/
theorem local_liftPart {part : Store → κ} (hx : Local part x) :
    Local (fun w : World => part w.store) (liftM x : Exec α) := by
  intro w
  obtain ⟨hok, herror⟩ := hx w.store
  cases hrun : x w.store with
  | ok a s =>
      rw [lift_of_ok hrun]
      refine ⟨fun a' w' h => ?_, fun e w' h => ?_⟩
      · cases h
        exact hok a s hrun
      · cases h
  | error e s =>
      rw [lift_of_error hrun]
      refine ⟨fun a' w' h => ?_, fun e' w' h => ?_⟩
      · cases h
      · cases h
        exact herror e s hrun

end Exec

end Wordcode
