import Wordcode.Proofs.Callbacks
import Wordcode.Proofs.TrackedOperations
import Mathlib

namespace Wordcode

/-! # Calls and ledgers

A call may run any code, so the ledger may grow during one. Iterators, methods and builtins add to
the ledger only through the dicts that they make and the calls that they ask for.

* `Callback.Tracked`: whatever is known is passed to a call, the call tracks it.
* `Tracks.callMethod` and `Tracks.callBuiltin`: methods and builtins track what they are given if
  the calls do.
-/

/-- Calls of values that are known to a ledger or a later one track them. -/
def Callback.Tracked (S : Ledger) (call : Callback) : Prop :=
  ∀ T f args, S.Extends T → Known T f → Known T args → Tracks T (call f args)

/-- What is tracked under a ledger is tracked under later ones. -/
theorem Callback.Tracked.mono {S T : Ledger} {call : Callback} (h : call.Tracked S)
    (hST : S.Extends T) : call.Tracked T :=
  fun U f args hTU => h U f args (hST.trans hTU)

/-- So are calls for a value. -/
theorem Callback.Tracked.value {S T : Ledger} {call : Callback} (h : call.Tracked S)
    (hST : S.Extends T) {f : Value} {args : List Value} (hf : Known T f) (hargs : Known T args) :
    Tracks T (call.value f args) := by
  refine (h T f args hST hf hargs).bind fun U v? _ hv? => ?_
  cases v? with
  | none => exact tracks_throw .crash
  | some v => exact tracks_pure ((known_some v).mp hv?)

/-! ## Operations on values in the machine -/

/-- A covered world has a covered store. -/
theorem Ledger.Covers.store {S : Ledger} {w : World} (h : S.Covers w) : S.Covers w.store :=
  ⟨(known_world.mp h.known).1, h.keeps, nofun⟩

/-- A change of the store leaves the rest of a world as it is. -/
theorem Ledger.Covers.withStore {S T : Ledger} {w : World} (h : S.Covers w) (hST : S.Extends T)
    {s : Store} (hs : T.Covers s) : T.Covers { w with store := s } := by
  obtain ⟨-, hglobals, hbuiltins, hloaded⟩ := known_world.mp h.known
  refine ⟨known_world.mpr ⟨hs.known, hglobals.mono hST, hbuiltins.mono hST, hloaded.mono hST⟩,
    hs.keeps, fun bs hbs => ?_⟩
  exact (h.builtins bs hbs).trans hST.builtins.symm

namespace Exec

variable {α : Type} [HasReferences α] {S : Ledger}

/-- What is safe in the store is safe in the world. -/
@[grind ←]
theorem safe_lift {x : Op α} (hx : Safe S x) : Safe S (liftM x : Exec α) := by
  intro w hw
  have hs := hx w.store hw.store
  show (∀ a w', Exec.lift x w = .ok a w' → S.Covers w' ∧ Known S a) ∧
    ∀ e w', Exec.lift x w = .error e w' → S.Covers w'
  unfold Exec.lift
  cases hrun : x w.store with
  | ok a s =>
      constructor
      · intro a' w' h
        simp only [hrun] at h
        cases h
        exact ⟨hw.withStore (.refl S) (hs.1 a s hrun).1, (hs.1 a s hrun).2⟩
      · intro e w' h
        simp only [hrun] at h
        cases h
  | error e s =>
      constructor
      · intro a w' h
        simp only [hrun] at h
        cases h
      · intro e' w' h
        simp only [hrun] at h
        cases h
        exact hw.withStore (.refl S) (hs.2 e s hrun)

/-- What is tracked in the store is tracked in the world. -/
theorem tracksTo_lift {γ : Type} {post : Ledger → γ → Prop} {x : Op γ} (hx : TracksTo S post x) :
    TracksTo S post (liftM x : Exec γ) := by
  intro w hw
  have hs := hx w.store hw.store
  show (∀ a w', Exec.lift x w = .ok a w' → ∃ T, S.Extends T ∧ T.Covers w' ∧ post T a) ∧
    ∀ e w', Exec.lift x w = .error e w' → ∃ T, S.Extends T ∧ T.Covers w'
  unfold Exec.lift
  cases hrun : x w.store with
  | ok a s =>
      obtain ⟨T, hST, hs', ha⟩ := hs.1 a s hrun
      constructor
      · intro a' w' h
        simp only [hrun] at h
        cases h
        exact ⟨T, hST, hw.withStore hST hs', ha⟩
      · intro e w' h
        simp only [hrun] at h
        cases h
  | error e s =>
      obtain ⟨T, hST, hs'⟩ := hs.2 e s hrun
      constructor
      · intro a w' h
        simp only [hrun] at h
        cases h
      · intro e' w' h
        simp only [hrun] at h
        cases h
        exact ⟨T, hST, hw.withStore hST hs'⟩

@[grind ←]
theorem tracks_lift {x : Op α} (hx : Tracks S x) : Tracks S (liftM x : Exec α) := tracksTo_lift hx

@[grind .]
theorem safe_raise (kind : Fault.Kind) (message : String) : Safe S (raise kind message : Exec α) :=
  safe_throw _

@[grind .]
theorem safe_typeError (message : String) : Safe S (typeError message : Exec α) := safe_throw _

@[grind .]
theorem safe_valueError (message : String) : Safe S (valueError message : Exec α) := safe_throw _

/-- A result that is known. -/
@[grind ←]
theorem safe_ofExcept {x : Except Failure α} (h : ∀ a, x = .ok a → Known S a) :
    Safe S (ofExcept x) := by
  cases x with
  | ok a => exact safe_pure (h a rfl)
  | error e => exact safe_throw e

@[grind .]
theorem safe_print (text : String) : Safe S (print text) :=
  safe_modify fun _ hw => ⟨hw.known, hw.keeps, hw.builtins⟩

end Exec

/-! ## Iteration -/

attribute [grind →] Known.mono

namespace Tracks

variable {S : Ledger} {call : Callback}

/-- A failure is replaced, and what was made before stays. -/
theorem orError {α : Type} [HasReferences α] {x : Exec α} (hx : Tracks S x) (e : Failure) :
    Tracks S (Exec.orError x e) :=
  hx.handle fun _ _ _ => tracks_throw _

/-- Asking several iterators for an item each. The items so far stay known while the next one is
asked for. -/
theorem nextAll {next : Nat → Exec (Option Value)}
    (hnext : ∀ T ref, S.Extends T → Tracks T (next ref)) (sources : List Nat) :
    Tracks S (Exec.nextAll next sources) := by
  induction sources generalizing S with
  | nil => exact tracks_pure (by simp)
  | cons source rest ih =>
      refine (hnext S source (.refl _)).bind fun T v? hST hv? => ?_
      cases v? with
      | none => exact tracks_pure known_none
      | some v =>
          refine (ih fun U ref hTU => hnext U ref (hST.trans hTU)).bind fun U vs? hTU hvs? => ?_
          cases vs? with
          | none => exact tracks_pure known_none
          | some vs => exact tracks_pure (by grind)

/-- Asking an iterator for its next item, by induction on the fuel: a cursor takes known items from
a covered store, or it calls something. -/
theorem next (hcall : call.Tracked S) (fuel ref : Nat) : Tracks S (Exec.next call fuel ref) := by
  induction fuel generalizing S ref with
  | zero => exact tracks_throw .exhausted
  | succ fuel ih =>
      -- whatever the item comes from, an iterator without one is marked as exhausted
      have hend {T : Ledger} (item : Option Value) (hitem : Known T item) : Tracks T (do
          if item.isNone then Op.setDone ref
          return item : Exec (Option Value)) := Safe.tracks (by grind)
      have hsources (T : Ledger) (ref : Nat) (hST : S.Extends T) :
          Tracks T (Exec.next call fuel ref) :=
        ih (hcall.mono hST) ref
      unfold Exec.next
      refine Safe.andThen (Exec.safe_lift (Op.safe_iterator ref)) fun it hit => ?_
      by_cases hdone : it.done = true
      · simp only [hdone, if_true]
        exact tracks_pure known_none
      · simp only [hdone]
        rw [known_iteration] at hit
        cases hcursor : it.cursor with
        | enumerate source count =>
            refine (ih hcall source).bind fun T v? hST hv? => ?_
            cases v? with
            | none => exact hend none known_none
            | some v =>
                refine Safe.andThen (Exec.safe_lift (Op.safe_iterator ref)) fun it _ => ?_
                refine Safe.andThen (by grind) fun pair hpair => ?_
                exact Safe.andThen (by grind) fun _ _ => hend (some pair) (by grind)
        | zip sources =>
            by_cases hempty : sources.isEmpty = true
            · simp only [hempty, if_true]
              exact hend none known_none
            · simp only [hempty]
              refine (nextAll hsources sources).bind fun T vs? hST hvs? => ?_
              cases vs? with
              | none => exact hend none known_none
              | some vs =>
                  exact Safe.andThen (by grind) fun v hv => hend (some v) (by grind)
        | map f sources =>
            rw [hcursor, known_cursor_map] at hit
            refine (nextAll hsources sources).bind fun T vs? hST hvs? => ?_
            cases vs? with
            | none => exact hend none known_none
            | some vs =>
                rw [known_some] at hvs?
                refine (hcall.value hST (hit.mono hST) hvs?).bind fun U v hTU hv => ?_
                exact hend (some v) (by grind)
        | filter f? source =>
            rw [hcursor, known_cursor_filter] at hit
            refine (ih hcall source).bind fun T v? hST hv? => ?_
            cases v? with
            | none => exact hend none known_none
            | some v =>
                rw [known_some] at hv?
                -- an item that is filtered out makes way for the next one, with less fuel
                have hdecide {U : Ledger} (hTU : T.Extends U) (decision : Value) : Tracks U (do
                    let item ← if ← Op.truthy decision then Pure.pure (some v)
                      else Exec.next call fuel ref
                    if item.isNone then Op.setDone ref
                    return item : Exec (Option Value)) := by
                  refine Safe.andThen (Exec.safe_lift (Op.safe_truthy decision)) fun b _ => ?_
                  cases b with
                  | true => exact hend (some v) (by grind)
                  | false =>
                      refine (hsources U ref (hST.trans hTU)).bind fun V item _ hitem => ?_
                      exact hend item hitem
                cases f? with
                | none => exact hdecide (.refl _) v
                | some f =>
                    rw [known_some] at hit
                    have hasked : Tracks T (call.value f [v]) :=
                      hcall.value hST (hit.mono hST) (by grind)
                    exact hasked.bind fun U decision hTU _ => hdecide hTU decision
        | items | chars | list | range | keys =>
            refine Safe.andThen ?_ fun item hitem => hend item hitem
            exact Exec.safe_lift (Op.safe_advance ref (hcursor ▸ hit))

/-- Collecting items: the ones that have been seen stay known. -/
theorem drainFrom (hcall : call.Tracked S) (fuel ref : Nat) {seen : Array Value}
    (hseen : Known S seen) : Tracks S (Exec.drain.go call fuel ref seen) := by
  induction fuel generalizing S seen with
  | zero => exact tracks_throw .exhausted
  | succ fuel ih =>
      refine (next hcall fuel ref).bind fun T v? hST hv? => ?_
      cases v? with
      | none => exact tracks_pure (hseen.mono hST)
      | some v =>
          rw [known_some] at hv?
          exact ih (hcall.mono hST) (known_push (hseen.mono hST) hv?)

theorem drain (hcall : call.Tracked S) (fuel ref : Nat) : Tracks S (Exec.drain call fuel ref) := by
  cases fuel with
  | zero => exact tracks_throw .exhausted
  | succ fuel => exact drainFrom hcall fuel ref (by simp [known_array])

/-- All items of a known value are known. -/
theorem collect (hcall : call.Tracked S) (fuel : Nat) {v : Value} (hv : Known S v) :
    Tracks S (Exec.collect call fuel v) := by
  unfold Exec.collect
  split
  · exact Safe.tracks (by grind)
  · exact tracks_pure (known_tuple.mp hv)
  · exact Safe.andThen (by grind) fun ref _ => drain hcall fuel ref

/-- Looking for an item makes nothing but what the iterator makes. -/
theorem anyItem (hcall : call.Tracked S) {test : Value → Exec Bool}
    (htest : ∀ T v, S.Extends T → Known T v → Safe T (test v)) (fuel ref : Nat) :
    Tracks S (Exec.anyItem call test fuel ref) := by
  induction fuel generalizing S with
  | zero => exact tracks_throw .exhausted
  | succ fuel ih =>
      refine (next hcall fuel ref).bind fun T v? hST hv? => ?_
      cases v? with
      | none => exact tracks_pure (known_inert false)
      | some v =>
          rw [known_some] at hv?
          refine (htest T v hST hv?).andThen fun b _ => ?_
          cases b with
          | true => exact tracks_pure (known_inert true)
          | false => exact ih (hcall.mono hST) fun U v hTU => htest U v (hST.trans hTU)

theorem contains (hcall : call.Tracked S) (fuel : Nat) {container : Value}
    (hcontainer : Known S container) (item : Value) :
    Tracks S (Exec.contains call fuel container item) := by
  unfold Exec.contains
  split
  case h_6 ref => exact anyItem hcall (fun T v _ _ => by grind) fuel ref
  all_goals exact Safe.tracks (by grind)

theorem extend (hcall : call.Tracked S) (fuel ref : Nat) {iterable : Value}
    (h : Known S iterable) : Tracks S (Exec.extend call fuel ref iterable) :=
  (collect hcall fuel h).bind fun T new _ hnew => Safe.tracks (by grind)

theorem inplace (hcall : call.Tracked S) (fuel : Nat) (o : BinaryOperator) {a b : Value}
    (ha : Known S a) (hb : Known S b) : Tracks S (Exec.inplace call fuel o a b) := by
  unfold Exec.inplace
  split
  · exact (extend hcall fuel _ hb).bind fun T _ hST _ => tracks_pure (ha.mono hST)
  · exact Exec.tracks_lift (Op.tracks_binary o ha hb)

theorem setItem (hcall : call.Tracked S) (fuel : Nat) {container key value : Value}
    (hcontainer : Known S container) (hkey : Known S key) (hvalue : Known S value) :
    Tracks S (Exec.setItem call fuel container key value) := by
  unfold Exec.setItem
  split
  · refine (collect hcall fuel hvalue).bind fun T values hST hvalues => Safe.tracks ?_
    grind
  all_goals exact Safe.tracks (by grind)

/-- Filing pairs: a key and a value that come out of a known iterable are known. -/
theorem updatePairs (hcall : call.Tracked S) (fuel : Nat) {ref : Nat}
    (href : Known S (Value.dict ref)) (i : Nat) {pairs : List Value} (hpairs : Known S pairs) :
    Tracks S (Exec.updatePairs call fuel ref i pairs) := by
  induction pairs generalizing S i with
  | nil => exact tracks_pure (known_inert ())
  | cons item rest ih =>
      rw [known_cons] at hpairs
      rw [Exec.updatePairs]
      refine (orError (collect hcall fuel hpairs.1) _).bind fun T pair hST hpair => ?_
      split
      · exact Safe.andThen (by grind) fun _ _ =>
          ih (hcall.mono hST) (href.mono hST) (i + 1) (hpairs.2.mono hST)
      · exact Safe.tracks (by grind)

/-- Merging only reads the other dict, whatever dict it is. -/
theorem updateDict (call : Callback) (fuel : Nat) {ref : Nat} (href : Known S (Value.dict ref))
    (source : Nat) :
    Tracks S (Exec.update call fuel ref (.dict source)) :=
  Safe.andThen (by grind) fun entries hentries =>
    (Exec.safe_lift (Op.safe_dictMerge href hentries)).tracks

/-- Updating a dict that may change. -/
theorem update (hcall : call.Tracked S) (fuel : Nat) {ref : Nat}
    (href : Known S (Value.dict ref)) {other : Value} (h : Known S other) :
    Tracks S (Exec.update call fuel ref other) := by
  unfold Exec.update
  split
  · exact updateDict call fuel href _
  · refine (collect hcall fuel h).bind fun T pairs hST hpairs => ?_
    exact updatePairs (hcall.mono hST) fuel (href.mono hST) 0 hpairs

/-- Merging into a dict that may change. -/
theorem merge (hcall : call.Tracked S) (fuel : Nat) {ref : Nat}
    (href : Known S (Value.dict ref)) {args : List Value} {keywords : List Entry}
    (hargs : Known S args) (hkeywords : Known S keywords) :
    Tracks S (Exec.merge call fuel ref args keywords) := by
  unfold Exec.merge
  cases args with
  | nil =>
      dsimp only
      exact Safe.tracks (by grind)
  | cons other _ =>
      rw [known_cons] at hargs
      refine (update hcall fuel href hargs.1).bind fun T _ hST _ => Safe.tracks ?_
      exact Exec.safe_lift (Op.safe_dictMerge (href.mono hST) (hkeywords.mono hST))

end Tracks

/-! ## Methods -/

namespace Exec

variable {S : Ledger}

@[grind ←]
theorem safe_sortOptions (name : String) {keywords : List Entry} (h : Known S keywords) :
    Safe S (sortOptions name keywords) := by
  unfold sortOptions
  refine safe_foldlM (fun options e hoptions he => ?_) h known_none
  repeat' split
  all_goals grind

@[grind .]
theorem safe_strip (trim : (Char → Bool) → List Char → List Char) (s : String)
    (args : List Value) : Safe S (strip trim s args) := by
  unfold strip
  grind

@[grind .]
theorem safe_lessKey (a b : Option Value) : Safe S (lessKey a b) := by
  cases a with
  | none => exact Wordcode.safe_throw .crash
  | some a =>
      cases b with
      | none => exact Wordcode.safe_throw .crash
      | some b => exact Op.safe_less a b

/-- Sorting loses nothing and makes nothing up. -/
theorem safe_inOrder {α : Type} [HasReferences α] (descending : Bool)
    {keyed : List (Option Value × α)} (h : Known S keyed) : Safe S (inOrder descending keyed) := by
  refine (safe_stable (fun a b _ _ => ?_) h).bind fun sorted hsorted => Wordcode.safe_pure ?_
  · split <;> exact safe_lessKey _ _
  · exact hsorted.map fun p hp => ((known_pair p.1 p.2).mp hp).2

@[grind .]
theorem safe_joinTexts (i : Nat) (vs : List Value) : Safe S (joinTexts i vs) := by
  induction vs generalizing i with
  | nil => exact safe_pure known_nil
  | cons v vs ih =>
      cases v with
      | str t id =>
          rw [joinTexts]
          grind
      | _ =>
          rw [joinTexts]
          · grind
          · grind

@[grind .]
theorem safe_tupleMethod (items : List Value) (m : TupleMethod) (args : List Value) :
    Safe S (tupleMethod items m args) := by
  unfold tupleMethod
  grind

end Exec

namespace Tracks

variable {S : Ledger} {call : Callback}

theorem keyOf (hcall : call.Tracked S) {key? : Option Value} (hkey : Known S key?)
    {item : Value} (hitem : Known S item) : Tracks S (Exec.keyOf call key? item) := by
  cases key? with
  | none => exact tracks_pure ((known_some item).mpr hitem)
  | some f => exact hcall S f [item] (.refl S) ((known_some f).mp hkey) (by grind)

/-- A sorted copy. -/
theorem sortItems (hcall : call.Tracked S) {options : Exec.SortOptions} (hoptions : Known S options)
    {items : List Value} (hitems : Known S items) :
    Tracks S (Exec.sortItems call options items) := by
  rw [known_sortOptions] at hoptions
  refine Tracks.bind (mapM (fun T item hST hitem => ?_) hitems) fun T keyed _ hkeyed => ?_
  · refine (keyOf (hcall.mono hST) (hoptions.mono hST) hitem).bind fun U key hTU hkey => ?_
    exact tracks_pure ((known_pair key item).mpr ⟨hkey, hitem.mono hTU⟩)
  · exact Safe.tracks (Exec.safe_lift (Exec.safe_inOrder _ hkeyed))

/-- A list sorted in place. Its items are read again after the calls, and are known under the ledger
that the calls have left. -/
theorem sortList (hcall : call.Tracked S) {options : Exec.SortOptions} (hoptions : Known S options)
    (ref : Nat) : Tracks S (Exec.sortList call options ref) := by
  rw [known_sortOptions] at hoptions
  unfold Exec.sortList
  refine Safe.andThen (by grind) fun xs _ => Safe.andThen (by grind) fun block _ => ?_
  refine (mapM (fun T i hST _ => ?_) (known_list_inert _)).bind fun T keyed _ hkeyed => ?_
  · refine Safe.andThen (Exec.safe_lift (Op.safe_cells block)) fun cells hcells => ?_
    have hitem : Known T (cells.getD i .none) := hcells.getD i (known_atom trivial)
    refine (keyOf (hcall.mono hST) (hoptions.mono hST) hitem).bind fun U key hTU hkey => ?_
    exact tracks_pure ((known_pair key i).mpr ⟨hkey, known_inert i⟩)
  · refine Safe.andThen (Exec.safe_lift (Exec.safe_inOrder _ hkeyed)) fun order horder => ?_
    refine Safe.andThen (Exec.safe_lift (Op.safe_cells block)) fun cells hcells => Safe.tracks ?_
    refine Exec.safe_lift (Op.safe_setCells block (horder.map fun i _ => ?_))
    exact hcells.getD i (known_atom trivial)

theorem strMethod (hcall : call.Tracked S) (fuel : Nat) (s : String) (m : StrMethod)
    {args : List Value} (hargs : Known S args) :
    Tracks S (Exec.strMethod call fuel s m args) := by
  unfold Exec.strMethod
  cases m with
  | join =>
      refine (collect hcall fuel ?_).bind fun T items _ hitems => Safe.tracks ?_
      · grind
      · grind
  | count | endswith | find | lower | lstrip | replace | rstrip | split | startswith | strip
  | upper =>
      dsimp only
      exact Safe.tracks (by grind)

/-- Methods of lists, one case for each. -/
theorem listMethod (hcall : call.Tracked S) (fuel ref : Nat) (m : ListMethod) {args : List Value}
    {keywords : List Entry} (hargs : Known S args) (hkeywords : Known S keywords) :
    Tracks S (Exec.listMethod call fuel ref m args keywords) := by
  unfold Exec.listMethod
  refine Safe.andThen (by grind) fun xs hxs => ?_
  cases m with
  | extend =>
      refine (extend hcall fuel ref (hargs.headD (by grind))).bind fun T _ _ _ => ?_
      exact tracks_pure (by grind)
  | sort =>
      refine Safe.andThen (by grind) fun options hoptions => ?_
      exact (sortList hcall hoptions ref).bind fun T _ _ _ => Safe.tracks (by grind)
  | pop =>
      refine Safe.tracks ?_
      dsimp only
      split <;> grind
  | append | clear | copy | count | index | insert | remove | reverse =>
      dsimp only
      exact Safe.tracks (by grind)

/-- Methods of dicts that may change. -/
theorem dictMethod (hcall : call.Tracked S) (fuel : Nat) {ref : Nat}
    (href : Known S (Value.dict ref)) (m : DictMethod) {args : List Value}
    {keywords : List Entry} (hargs : Known S args) (hkeywords : Known S keywords) :
    Tracks S (Exec.dictMethod call fuel ref m args keywords) := by
  unfold Exec.dictMethod
  cases m with
  | update =>
      exact (merge hcall fuel href hargs hkeywords).bind fun T _ _ _ => tracks_pure (by grind)
  | copy => exact Exec.tracks_lift (Op.tracks_dictCopy ref)
  | clear | get | items | keys | pop | setdefault | values =>
      dsimp only
      exact Safe.tracks (by grind)

/-- Methods track what they are given if the calls that they make do. -/
theorem callMethod (hcall : call.Tracked S) (fuel : Nat) {receiver : Value}
    (hreceiver : Known S receiver) (m : Method) {args : List Value} {keywords : List Entry}
    (hargs : Known S args) (hkeywords : Known S keywords) :
    Tracks S (Exec.callMethod call fuel receiver m args keywords) := by
  unfold Exec.callMethod
  refine guarded (Exec.safe_typeError _) (guarded (Exec.safe_typeError _) ?_)
  split
  · exact strMethod hcall fuel _ _ hargs
  · exact listMethod hcall fuel _ _ hargs hkeywords
  · exact dictMethod hcall fuel hreceiver _ hargs hkeywords
  · exact Safe.tracks (by grind)
  · exact Safe.tracks (by grind)

end Tracks

/-! ## Builtins -/

/-- The builtins that go through an iterable, which may call back. -/
def Builtin.iterates : Builtin → Bool
  | .all | .any | .dict | .list | .max | .min | .next | .reversed | .sorted | .sum | .tuple => true
  | _ => false

namespace Exec

variable {S : Ledger}

@[grind .]
theorem safe_checkArity (b : Builtin) (got : Nat) : Safe S (checkArity b got) := by
  unfold checkArity
  grind

@[grind ←]
theorem safe_readKeywords (b : Builtin) {keywords : List Entry} (h : Known S keywords) :
    Safe S (readKeywords b keywords) := by
  unfold readKeywords
  refine safe_mapM (fun e he => ?_) h
  repeat' split
  all_goals grind

@[grind .]
theorem safe_textKeyword (keywords : Bindings) (name fallback : String) :
    Safe S (textKeyword keywords name fallback) := by
  unfold textKeyword
  grind

@[grind .]
theorem safe_integerArgument (v : Value) : Safe S (integerArgument v) := by
  unfold integerArgument
  grind

@[grind .]
theorem safe_toInt (v : Value) : Safe S (toInt v) := by
  unfold toInt
  grind

@[grind ←]
theorem safe_toFloat {v : Value} (h : Known S v) : Safe S (toFloat v) := by
  unfold toFloat
  split
  · exact safe_pure h
  · split
    · exact safe_lift (Op.safe_newFloat _)
    · exact safe_valueError _
  · split
    · exact safe_lift (Op.safe_newFloat _)
    · exact safe_typeError _

@[grind ←]
theorem safe_orError {α : Type} [HasReferences α] {x : Exec α} (hx : Safe S x) (e : Failure) :
    Safe S (orError x e) :=
  hx.handle fun _ => safe_throw _

@[grind ←]
theorem safe_zipSources (i : Nat) {vs : List Value} (h : Known S vs) :
    Safe S (zipSources i vs) := by
  induction vs generalizing i with
  | nil => exact safe_pure known_nil
  | cons v vs ih =>
      rw [known_cons] at h
      rw [zipSources]
      grind

@[grind .]
theorem safe_isInstance (actual : String) (classes : List Value) :
    Safe S (isInstance actual classes) := by
  induction classes with
  | nil => exact safe_pure (known_inert false)
  | cons c cs ih =>
      unfold isInstance
      grind

/-- All other builtins make nothing that a ledger counts. -/
theorem safe_runBuiltin (call : Callback) (fuel : Nat) {b : Builtin} (hb : b.iterates = false)
    {args : List Value} {keywords : List Entry} (hargs : Known S args)
    (hkeywords : Known S keywords) : Safe S (runBuiltin call fuel b args keywords) := by
  unfold runBuiltin
  cases b with
  | all | any | dict | list | max | min | next | reversed | sorted | sum | tuple => cases hb
  | enumerate =>
      have hcount (count : Int64) : Safe S (do
          Op.newIterator (.enumerate (← Op.cursorOf (args.headD .none)) count) : Exec Value) := by
        grind
      have hstart (v : Value) : Safe S (do
          let count ← integerArgument v
          Op.newIterator (.enumerate (← Op.cursorOf (args.headD .none)) count) : Exec Value) :=
        (safe_integerArgument v).bind fun count _ => hcount count
      dsimp only
      refine Safe.bind (safe_readKeywords .enumerate hkeywords) fun kw _ => ?_
      split
      · refine Safe.bind (safe_raise _ _) fun start? _ => ?_
        cases start? with
        | none => exact hcount 0
        | some v => exact hstart v
      · exact hstart _
      · exact hstart _
      · exact hcount 0
  | print =>
      have htexts : Safe S (args.mapM Op.str : Op (List String)) :=
        safe_mapM (fun v _ => Op.safe_str v) hargs
      dsimp only
      refine Safe.bind (safe_readKeywords .print hkeywords) fun kw _ => ?_
      refine Safe.bind (safe_textKeyword kw _ _) fun sep _ => ?_
      refine Safe.bind (safe_textKeyword kw _ _) fun stop _ => ?_
      refine Safe.bind (safe_lift htexts) fun texts _ => ?_
      exact Safe.bind (safe_print _) fun _ _ => safe_pure (known_atom trivial)
  | range =>
      have hbounds : Safe S (args.mapM integerArgument) :=
        safe_mapM (fun v _ => safe_integerArgument v) hargs
      dsimp only
      refine Safe.bind hbounds fun bounds _ => ?_
      grind
  | abs | bool | callable | dir | filter | float | getMethod | int | isInstance | iter | len
  | map | repr | str | type | zip =>
      dsimp only
      grind

end Exec

namespace Tracks

variable {S : Ledger} {call : Callback}

/-- The best item is one of the known items. -/
theorem bestOf {keyOf : Value → Exec (Option Value)}
    (hkeyOf : ∀ T v, S.Extends T → Known T v → Tracks T (keyOf v))
    {better : Option Value → Option Value → Exec Bool} (hbetter : ∀ T a b, Safe T (better a b))
    {best : Value} {bestKey : Option Value} (hbest : Known S best) {items : List Value}
    (hitems : Known S items) :
    Tracks S (Exec.bestOf keyOf better best bestKey items) := by
  induction items generalizing S best bestKey with
  | nil => exact tracks_pure hbest
  | cons item rest ih =>
      rw [known_cons] at hitems
      -- the best item so far may be known to an earlier ledger than the key of this one
      refine (hkeyOf S item (.refl _) hitems.1).bind fun T key hST hkey => ?_
      have hrest := hitems.2.mono hST
      have hkeys (U : Ledger) (v : Value) (hTU : T.Extends U) := hkeyOf U v (hST.trans hTU)
      refine Safe.andThen (hbetter T key bestKey) fun b _ => ?_
      cases b with
      | true => exact ih hkeys (hitems.1.mono hST) hrest
      | false => exact ih hkeys (hbest.mono hST) hrest

theorem extremeOf (hcall : call.Tracked S) (b : Builtin)
    {better : Option Value → Option Value → Exec Bool} (hbetter : ∀ T a b, Safe T (better a b))
    {kw : Bindings} (hkw : Known S kw) {items : List Value} (hitems : Known S items) :
    Tracks S (Exec.extremeOf call b better kw items) := by
  cases items with
  | nil =>
      unfold Exec.extremeOf
      exact Safe.tracks (by grind)
  | cons first rest =>
      rw [known_cons] at hitems
      have hplain :
          Tracks S (Exec.bestOf (Exec.keyOf call none) better first (some first) rest) :=
        bestOf (fun T v hST hv => keyOf (hcall.mono hST) known_none hv) hbetter hitems.1 hitems.2
      unfold Exec.extremeOf
      dsimp only
      split
      · exact hplain
      · exact hplain
      · next f _ hf =>
        have hkey (T : Ledger) (v : Value) (hST : S.Extends T) (hv : Known T v) :
            Tracks T (Exec.keyOf call (some f) v) :=
          keyOf (hcall.mono hST) ((known_some f).mpr ((hkw.of_lookup hf).mono hST)) hv
        split
        · refine (hkey S first (.refl _) hitems.1).bind fun T key hST hkey' => ?_
          exact bestOf (fun U v hTU => hkey U v (hST.trans hTU)) hbetter (hitems.1.mono hST)
            (hitems.2.mono hST)
        · exact Safe.tracks (by grind)

theorem extreme (hcall : call.Tracked S) (fuel : Nat) (b : Builtin)
    {better : Option Value → Option Value → Exec Bool} (hbetter : ∀ T a b, Safe T (better a b))
    {args : List Value} {keywords : List Entry} (hargs : Known S args)
    (hkeywords : Known S keywords) :
    Tracks S (Exec.extreme call fuel b better args keywords) := by
  unfold Exec.extreme
  refine Safe.andThen (Exec.safe_readKeywords b hkeywords) fun kw hkw => ?_
  split
  · rw [known_cons] at hargs
    refine (collect hcall fuel hargs.1).bind fun T items hST hitems => ?_
    exact extremeOf (hcall.mono hST) b hbetter (hkw.mono hST) hitems
  · split
    · exact Safe.tracks (by grind)
    · exact extremeOf hcall b hbetter hkw hargs

theorem sumFrom (hcall : call.Tracked S) (fuel ref : Nat) {total : Value}
    (htotal : Known S total) : Tracks S (Exec.sumFrom call fuel ref total) := by
  induction fuel generalizing S total with
  | zero => exact tracks_throw .exhausted
  | succ fuel ih =>
      refine (next hcall fuel ref).bind fun T v? hST hv? => ?_
      cases v? with
      | none => exact tracks_pure (htotal.mono hST)
      | some v =>
          rw [known_some] at hv?
          have hadded := Exec.tracks_lift (Op.tracks_binary .add (htotal.mono hST) hv?)
          exact hadded.bind fun U sum hTU hsum => ih (hcall.mono (hST.trans hTU)) hsum

/-- Builtins, one case for each. -/
theorem runBuiltin (hcall : call.Tracked S) (fuel : Nat) (b : Builtin) {args : List Value}
    {keywords : List Entry} (hargs : Known S args) (hkeywords : Known S keywords) :
    Tracks S (Exec.runBuiltin call fuel b args keywords) := by
  cases hb : b.iterates
  case false => exact (Exec.safe_runBuiltin call fuel hb hargs hkeywords).tracks
  have hfirst : Known S (args.headD .none) := hargs.headD (known_atom trivial)
  unfold Exec.runBuiltin
  cases b with
  | all =>
      refine Safe.andThen (by grind) fun ref _ => ?_
      refine (anyItem hcall (fun T v _ _ => by grind) fuel ref).bind fun T b _ _ => ?_
      exact tracks_pure (by grind)
  | any =>
      refine Safe.andThen (by grind) fun ref _ => ?_
      refine (anyItem hcall (fun T v _ _ => by grind) fuel ref).bind fun T b _ _ => ?_
      exact tracks_pure (by grind)
  | dict =>
      dsimp only
      refine (Exec.tracks_lift (Op.tracks_newDict known_empty)).bind fun T d hST hd => ?_
      split
      · refine (merge (hcall.mono hST) fuel hd (hargs.mono hST) (hkeywords.mono hST)).bind ?_
        exact fun U _ hTU _ => tracks_pure (hd.mono hTU)
      · exact Safe.tracks (by grind)
  | list =>
      dsimp only
      split
      · exact Safe.tracks (by grind)
      · exact (collect hcall fuel hfirst).bind fun T items _ hitems => Safe.tracks (by grind)
  | max => exact extreme hcall fuel .max (fun T a b => by grind) hargs hkeywords
  | min => exact extreme hcall fuel .min (fun T a b => by grind) hargs hkeywords
  | next =>
      dsimp only
      split
      · exact (next hcall fuel _).bind fun T v? hST hv? => Safe.tracks (by grind)
      · exact Safe.tracks (by grind)
  | reversed =>
      dsimp only
      split
      case h_5 => exact Safe.tracks (by grind)
      all_goals
        refine (collect hcall fuel (by grind)).bind fun T items _ hitems => Safe.tracks ?_
        grind
  | sorted =>
      refine Safe.andThen (by grind) fun options hoptions => ?_
      refine (collect hcall fuel hfirst).bind fun T items hST hitems => ?_
      refine (sortItems (hcall.mono hST) (hoptions.mono hST) hitems).bind ?_
      exact fun U sorted _ hsorted => Safe.tracks (by grind)
  | sum =>
      dsimp only
      have hrest {start : Value} (hstart : Known S start) : Tracks S (do
          Exec.sumFrom call fuel (← Op.cursorOf (args.headD .none)) start : Exec Value) :=
        Safe.andThen (by grind) fun ref _ => sumFrom hcall fuel ref hstart
      split
      · exact Safe.andThen (safe_pure (by grind)) fun _ => hrest
      · exact Safe.andThen (Exec.safe_typeError _) fun _ => hrest
      · exact Safe.andThen (safe_pure (by grind)) fun _ => hrest
  | tuple =>
      dsimp only
      split
      · exact Safe.tracks (by grind)
      · exact Safe.tracks (by grind)
      · refine (collect hcall fuel (by grind)).bind fun T items _ hitems => Safe.tracks ?_
        grind
  | enumerate | abs | bool | callable | dir | filter | float | getMethod | int | isInstance | iter
  | len | map | print | range | repr | str | type | zip => cases hb

/-- Builtins track what they are given if the calls that they make do. -/
theorem callBuiltin (hcall : call.Tracked S) (fuel : Nat) (b : Builtin) {args : List Value}
    {keywords : List Entry} (hargs : Known S args) (hkeywords : Known S keywords) :
    Tracks S (Exec.callBuiltin call fuel b args keywords) := by
  unfold Exec.callBuiltin
  refine guarded (Exec.safe_typeError _) ?_
  exact Safe.andThen (Exec.safe_checkArity b args.length) fun _ _ =>
    runBuiltin hcall fuel b hargs hkeywords

end Tracks

end Wordcode
