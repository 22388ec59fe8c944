import Wordcode.Proofs.Iterators
import Wordcode.Proofs.Scripts
import Mathlib

namespace Wordcode

/-! # Calling back

What the machine does between one call and the next is put together from confined computations:
iteration, methods, builtins and instructions. Only what goes through pairs needs relays.

* `Composite.next` advances an iterator, which may call back.
* `Composite.callMethod` and `Composite.callBuiltin` are about what is called without a frame of its
  own.
-/

/-! ## Iteration -/

namespace Composite

variable {relays : Prop} {call : Invoke → Callback}

/-- Operations on iterators are confined. -/
theorem iterates (relays : Prop) :
    Iterates fun {α : Type} (x : Invoke → Exec α) => Composite relays Confined x where
  pure a := .pure a
  exhausted := .own (confined_throw Failure.untraced_exhausted)
  crash := .own (confined_throw Failure.untraced_crash)
  bind := .bind
  iterator ref := .own (Exec.confined_lift (Op.local_iterator ref))
  newTuple vs := .own (Exec.confined_lift (Op.local_newTuple vs))
  setCursor ref cursor := .own (by grind)
  setDone ref := .own (by grind)
  truthy v := .own (Exec.confined_lift (Op.local_truthy v))
  advance ref cursor := .own (Exec.confined_lift (Op.local_advance ref cursor))

variable (hcall : ∀ f args, Composite relays Confined fun invoke => call invoke f args)
include hcall

/-- Asking an iterator for its next item. -/
theorem next (fuel ref : Nat) :
    Composite relays Confined fun invoke => Exec.next (call invoke) fuel ref :=
  (iterates relays).next call hcall fuel ref

/-- Collecting items. -/
theorem collect (fuel : Nat) (v : Value) :
    Composite relays Confined fun invoke => Exec.collect (call invoke) fuel v :=
  (iterates relays).collect call hcall (fun ref => .own (by grind))
    (fun v => .own (Exec.confined_lift (Op.local_cursorOf v))) fuel v

theorem anyItem {test : Value → Exec Bool} (htest : ∀ v, Confined (test v))
    (fuel ref : Nat) :
    Composite relays Confined fun invoke => Exec.anyItem (call invoke) test fuel ref := by
  induction fuel with
  | zero => exact .own (confined_throw Failure.untraced_exhausted)
  | succ fuel ih =>
      refine .bind (next hcall fuel ref) fun v? => ?_
      cases v? with
      | none => exact .pure false
      | some v =>
          refine .bind (.own (htest v)) fun b => ?_
          cases b with
          | true => exact .pure true
          | false => exact ih

theorem contains (fuel : Nat) (container item : Value) :
    Composite relays Confined fun invoke => Exec.contains (call invoke) fuel container item := by
  unfold Exec.contains
  split
  case h_6 ref => exact anyItem hcall (by grind) fuel ref
  all_goals exact .own (by grind)

theorem extend (fuel ref : Nat) (iterable : Value) :
    Composite relays Confined fun invoke => Exec.extend (call invoke) fuel ref iterable :=
  .bind (collect hcall fuel iterable) fun new => .own (by grind)

theorem inplace (fuel : Nat) (o : BinaryOperator) (a b : Value) :
    Composite relays Confined fun invoke => Exec.inplace (call invoke) fuel o a b := by
  unfold Exec.inplace
  split
  · exact .bind (extend hcall fuel _ b) fun _ => .pure _
  · exact .own (by grind)

theorem setItem (fuel : Nat) (container key value : Value) :
    Composite relays Confined fun invoke =>
      Exec.setItem (call invoke) fuel container key value := by
  unfold Exec.setItem
  split
  · exact .bind (collect hcall fuel value) fun values => .own (by grind)
  · exact .own (by grind)
  · exact .own (by grind)
  · exact .own (by grind)

/-- A pair is an iterable, and going through it is what takes a relay. -/
theorem updatePairs (hrelays : relays) (fuel ref i : Nat) (pairs : List Value) :
    Composite relays Confined fun invoke => Exec.updatePairs (call invoke) fuel ref i pairs := by
  induction pairs generalizing i with
  | nil => exact .pure ()
  | cons item rest ih =>
      rw [show (fun invoke => Exec.updatePairs (call invoke) fuel ref i (item :: rest)) = _ from
        funext fun invoke => by rw [Exec.updatePairs]]
      refine .bind (.orError hrelays (collect hcall fuel item) (Failure.untraced_raise _ _) rfl)
        fun pair => ?_
      split
      · exact .bind (.own (by grind)) fun _ => ih (i + 1)
      · exact .own (by grind)

/-- Updating a dict replaces failures by errors of its own, which only some requests do. -/
theorem update (hrelays : relays) (fuel ref : Nat) (other : Value) :
    Composite relays Confined fun invoke => Exec.update (call invoke) fuel ref other := by
  unfold Exec.update
  split
  · exact .own (by grind)
  · exact .bind (collect hcall fuel other) fun pairs => updatePairs hcall hrelays fuel ref 0 pairs

theorem merge (hrelays : relays) (fuel ref : Nat) (args : List Value) (keywords : List Entry) :
    Composite relays Confined fun invoke => Exec.merge (call invoke) fuel ref args keywords := by
  unfold Exec.merge
  cases args with
  | nil =>
      dsimp only
      exact .own (by grind)
  | cons other _ => exact .bind (update hcall hrelays fuel ref other) fun _ => .own (by grind)

end Composite

/-! ## Methods -/

namespace Exec

@[grind ←]
theorem confined_sortOptions (name : String) (keywords : List Entry) :
    Confined (sortOptions name keywords) := by
  unfold sortOptions
  refine confined_foldlM (fun options e => ?_) keywords _
  repeat' split
  all_goals grind

@[grind ←]
theorem confined_strip (trim : (Char → Bool) → List Char → List Char) (s : String)
    (args : List Value) : Confined (strip trim s args) := by
  unfold strip
  grind

@[grind ←]
theorem confined_joinTexts (i : Nat) (vs : List Value) : Confined (joinTexts i vs) := by
  induction vs generalizing i with
  | nil => exact confined_pure []
  | cons v vs ih =>
      cases v with
      | str t id =>
          rw [joinTexts]
          grind
      | _ =>
          rw [joinTexts]
          · grind
          · grind

@[grind ←]
theorem confined_tupleMethod (items : List Value) (m : TupleMethod) (args : List Value) :
    Confined (tupleMethod items m args) := by
  unfold tupleMethod
  grind

end Exec

namespace Composite

/-- A composite may do the same thing for each item. -/
theorem mapM {relays : Prop} {α β : Type} {f : Invoke → α → Exec β}
    (hf : ∀ a, Composite relays Confined fun invoke => f invoke a) (as : List α) :
    Composite relays Confined fun invoke => as.mapM (f invoke) := by
  induction as with
  | nil =>
      simp only [List.mapM_nil]
      exact .pure []
  | cons a as ih =>
      simp only [List.mapM_cons]
      exact .bind (hf a) fun b => .bind ih fun bs => .pure (b :: bs)

variable {relays : Prop} {call : Invoke → Callback}
  (hcall : ∀ f args, Composite relays Confined fun invoke => call invoke f args)
include hcall

/-- A key is asked for by a call. -/
theorem keyOf (key? : Option Value) (item : Value) :
    Composite relays Confined fun invoke => Exec.keyOf (call invoke) key? item := by
  cases key? with
  | none => exact .pure (some item)
  | some f => exact hcall f [item]

/-- The calls are made before anything is compared. -/
theorem sortItems (options : Exec.SortOptions) (items : List Value) :
    Composite relays Confined fun invoke => Exec.sortItems (call invoke) options items :=
  .bind (.mapM (fun item => .bind (keyOf hcall _ item) fun key => .pure (key, item)) items)
    fun keyed => .own (by grind)

/-- The same for a list in place. -/
theorem sortList (options : Exec.SortOptions) (ref : Nat) :
    Composite relays Confined fun invoke => Exec.sortList (call invoke) options ref := by
  unfold Exec.sortList
  refine .bind (.own (by grind)) fun xs => .bind (.own (by grind)) fun block => ?_
  refine .bind (.mapM (fun i => ?_) _) fun keyed => .own (by grind)
  exact .bind (.own (by grind)) fun cells => .bind (keyOf hcall _ _) fun key => .pure (key, i)

theorem strMethod (fuel : Nat) (s : String) (m : StrMethod) (args : List Value) :
    Composite relays Confined fun invoke => Exec.strMethod (call invoke) fuel s m args := by
  unfold Exec.strMethod
  cases m with
  | join => exact .bind (collect hcall fuel _) fun items => .own (by grind)
  | count | endswith | find | lower | lstrip | replace | rstrip | split | startswith | strip
  | upper =>
      dsimp only
      exact .own (by grind)

/-- Methods of lists, one case for each. -/
theorem listMethod (fuel ref : Nat) (m : ListMethod) (args : List Value) (keywords : List Entry) :
    Composite relays Confined fun invoke =>
      Exec.listMethod (call invoke) fuel ref m args keywords := by
  unfold Exec.listMethod
  refine .bind (.own (by grind)) fun xs => ?_
  cases m with
  | extend => exact .bind (extend hcall fuel ref _) fun _ => .pure _
  | sort =>
      refine .bind (.own (by grind)) fun options => ?_
      exact .bind (sortList hcall options ref) fun _ => .pure _
  | pop =>
      refine .own ?_
      dsimp only
      split <;> grind
  | append | clear | copy | count | index | insert | remove | reverse =>
      dsimp only
      exact .own (by grind)

theorem dictMethod (fuel ref : Nat) (m : DictMethod) (hrelays : m = .update → relays)
    (args : List Value) (keywords : List Entry) :
    Composite relays Confined fun invoke =>
      Exec.dictMethod (call invoke) fuel ref m args keywords := by
  unfold Exec.dictMethod
  cases m with
  | update => exact .bind (merge hcall (hrelays rfl) fuel ref args keywords) fun _ => .pure _
  | clear | copy | get | items | keys | pop | setdefault | values =>
      dsimp only
      exact .own (by grind)

/-- Methods of all types. -/
theorem callMethod (fuel : Nat) (receiver : Value) (m : Method)
    (hrelays : ∀ ref, receiver = .dict ref → m = .dict .update → relays) (args : List Value)
    (keywords : List Entry) :
    Composite relays Confined fun invoke =>
      Exec.callMethod (call invoke) fuel receiver m args keywords := by
  unfold Exec.callMethod
  refine .guarded (Exec.confined_typeError _) (.guarded (Exec.confined_typeError _) ?_)
  split
  · exact strMethod hcall fuel _ _ args
  · exact listMethod hcall fuel _ _ args keywords
  · next ref m =>
    refine dictMethod hcall fuel ref m (fun hm => hrelays ref rfl ?_) args keywords
    rw [hm]
  · exact .own (by grind)
  · exact .own (by grind)

end Composite

/-! ## Builtins -/

namespace Exec

@[grind ←]
theorem confined_checkArity (b : Builtin) (got : Nat) : Confined (checkArity b got) := by
  unfold checkArity
  grind

@[grind ←]
theorem confined_readKeywords (b : Builtin) (keywords : List Entry) :
    Confined (readKeywords b keywords) := by
  unfold readKeywords
  grind

@[grind ←]
theorem confined_textKeyword (keywords : Bindings) (name fallback : String) :
    Confined (textKeyword keywords name fallback) := by
  unfold textKeyword
  grind

@[grind ←]
theorem confined_integerArgument (v : Value) : Confined (integerArgument v) := by
  unfold integerArgument
  grind

@[grind ←]
theorem confined_toInt (v : Value) : Confined (toInt v) := by
  unfold toInt
  grind

@[grind ←]
theorem confined_toFloat (v : Value) : Confined (toFloat v) := by
  unfold toFloat
  split
  · exact confined_pure _
  · split
    · exact confined_lift (Op.local_newFloat _)
    · exact confined_valueError _
  · split
    · exact confined_lift (Op.local_newFloat _)
    · exact confined_typeError _

@[grind ←]
theorem confined_zipSources (i : Nat) (vs : List Value) : Confined (zipSources i vs) := by
  induction vs generalizing i with
  | nil => exact confined_pure []
  | cons v vs ih =>
      rw [zipSources]
      grind

@[grind ←]
theorem confined_isInstance (actual : String) (classes : List Value) :
    Confined (isInstance actual classes) := by
  induction classes with
  | nil => exact confined_pure false
  | cons c cs ih =>
      unfold isInstance
      grind

end Exec

namespace Composite

variable {relays : Prop} {call : Invoke → Callback}

/-- A call and a comparison for each item. -/
theorem bestOf {keyOf : Invoke → Value → Exec (Option Value)}
    (hkeyOf : ∀ v, Composite relays Confined fun invoke => keyOf invoke v)
    {better : Option Value → Option Value → Exec Bool} (hbetter : ∀ a b, Confined (better a b))
    (best : Value) (bestKey : Option Value) (items : List Value) :
    Composite relays Confined fun invoke =>
      Exec.bestOf (keyOf invoke) better best bestKey items := by
  induction items generalizing best bestKey with
  | nil => exact .pure best
  | cons item rest ih =>
      refine .bind (hkeyOf item) fun key => .bind (.own (hbetter key bestKey)) fun b => ?_
      cases b with
      | true => exact ih item key
      | false => exact ih best bestKey

variable (hcall : ∀ f args, Composite relays Confined fun invoke => call invoke f args)
include hcall

theorem extremeOf (b : Builtin) {better : Option Value → Option Value → Exec Bool}
    (hbetter : ∀ a b, Confined (better a b)) (kw : Bindings) (items : List Value) :
    Composite relays Confined fun invoke => Exec.extremeOf (call invoke) b better kw items := by
  cases items with
  | nil =>
      unfold Exec.extremeOf
      exact .own (by grind)
  | cons first rest =>
      -- without a key the items are their own keys, and nothing is called
      have hplain : Composite relays Confined fun invoke =>
          Exec.bestOf (Exec.keyOf (call invoke) none) better first (some first) rest :=
        bestOf (keyOf hcall none) hbetter first (some first) rest
      unfold Exec.extremeOf
      dsimp only
      split
      · exact hplain
      · exact hplain
      · split
        · refine .bind (hcall _ [first]) fun key => ?_
          exact bestOf (keyOf hcall (some _)) hbetter first key rest
        · exact .own (by grind)

theorem extreme (fuel : Nat) (b : Builtin) {better : Option Value → Option Value → Exec Bool}
    (hbetter : ∀ a b, Confined (better a b)) (args : List Value)
    (keywords : List Entry) :
    Composite relays Confined fun invoke =>
      Exec.extreme (call invoke) fuel b better args keywords := by
  unfold Exec.extreme
  refine .bind (.own (Exec.confined_readKeywords b keywords)) fun kw => ?_
  split
  · exact .bind (collect hcall fuel _) fun items => extremeOf hcall b hbetter kw items
  · split
    · exact .own (by grind)
    · exact extremeOf hcall b hbetter kw args

theorem sumFrom (fuel ref : Nat) (total : Value) :
    Composite relays Confined fun invoke => Exec.sumFrom (call invoke) fuel ref total := by
  induction fuel generalizing total with
  | zero => exact .own (confined_throw Failure.untraced_exhausted)
  | succ fuel ih =>
      refine .bind (next hcall fuel ref) fun v? => ?_
      cases v? with
      | none => exact .pure total
      | some v => exact .bind (.own (Exec.confined_lift (Op.local_binary .add total v))) ih

/-- Builtins, one case for each. -/
theorem runBuiltin (fuel : Nat) (b : Builtin) (hrelays : b = .dict → relays) (args : List Value)
    (keywords : List Entry) :
    Composite relays Confined fun invoke => Exec.runBuiltin (call invoke) fuel b args keywords := by
  unfold Exec.runBuiltin
  -- the builtins that go through an iterable may call back; all others are local
  cases b with
  | all =>
      refine .bind (.own (by grind)) fun ref => .bind (anyItem hcall ?_ fuel ref) fun b => .pure _
      grind
  | any =>
      refine .bind (.own (by grind)) fun ref => .bind (anyItem hcall ?_ fuel ref) fun b => .pure _
      grind
  | dict =>
      dsimp only
      refine .bind (.own (by grind)) fun d => ?_
      split
      · exact .bind (merge hcall (hrelays rfl) fuel _ args keywords) fun _ => .pure _
      · exact .own (by grind)
  | list =>
      dsimp only
      split
      · exact .own (by grind)
      · exact .bind (collect hcall fuel _) fun items => .own (by grind)
  | max => exact extreme hcall fuel .max (by grind) args keywords
  | min => exact extreme hcall fuel .min (by grind) args keywords
  | next =>
      dsimp only
      split
      · refine .bind (next hcall fuel _) fun v? => .own (by grind)
      · exact .own (by grind)
  | reversed =>
      dsimp only
      split
      any_goals exact .bind (collect hcall fuel _) fun items => .own (by grind)
      exact .own (by grind)
  | sorted =>
      refine .bind (.own (by grind)) fun options => .bind (collect hcall fuel _) fun items => ?_
      exact .bind (sortItems hcall options items) fun sorted => .own (by grind)
  | sum =>
      dsimp only
      have hrest (start : Value) : Composite relays Confined fun invoke => (do
          Exec.sumFrom (call invoke) fuel (← Op.cursorOf (args.headD .none)) start : Exec Value) :=
        .bind (.own (by grind)) fun ref => sumFrom hcall fuel ref start
      split
      · exact .bind (.pure _) hrest
      · exact .bind (.own (Exec.confined_typeError _)) hrest
      · exact .bind (.pure _) hrest
  | tuple =>
      dsimp only
      split
      · exact .own (by grind)
      · exact .own (by grind)
      · exact .bind (collect hcall fuel _) fun items => .own (by grind)
  | enumerate =>
      refine .own ?_
      dsimp only
      refine .bind (by grind) fun kw => ?_
      repeat' split
      all_goals grind
  | abs | bool | callable | dir | filter | float | getMethod | int | isInstance | iter
  | len | map | print | range | repr | str | type | zip =>
      dsimp only
      exact .own (by grind)

/-- The same with arguments that are checked first. -/
theorem callBuiltin (fuel : Nat) (b : Builtin) (hrelays : b = .dict → relays) (args : List Value)
    (keywords : List Entry) :
    Composite relays Confined fun invoke =>
      Exec.callBuiltin (call invoke) fuel b args keywords := by
  unfold Exec.callBuiltin
  refine .guarded (Exec.confined_typeError _) ?_
  exact .bind (.own (Exec.confined_checkArity b args.length)) fun _ =>
    runBuiltin hcall fuel b hrelays args keywords

end Composite

end Wordcode
