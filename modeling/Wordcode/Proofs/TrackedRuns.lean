import Wordcode.Proofs.Calls
import Wordcode.Proofs.Tracking
import Mathlib

namespace Wordcode

/-! # Runs and ledgers

Instructions make dicts and functions, and calls make scopes. A run never comes to what a ledger
keeps, and only ever adds to it.

* `Act.Safe` and `Act.Tracks` say of effects what `Safe` and `Tracks` say of computations.
* `Act.tracks_makeFunction`: a function gets a dict and a scope of its own.
* `Tracks.execute` goes through the instructions.
* `Machine.tracked_invoke` is about whole calls.
-/

/-! ## Effects that make nothing -/

namespace Act

variable {α β : Type} [HasReferences α] [HasReferences β] {S : Ledger}

/-- An effect that is safe in whatever frame it happens. -/
def Safe (S : Ledger) (x : Act α) : Prop := ∀ f, Known S f → Wordcode.Safe S (x.run f)

@[grind ←]
theorem safe_pure {a : α} (h : Known S a) : Safe S (pure a : Act α) :=
  fun f hf => Wordcode.safe_pure ((known_pair a f).mpr ⟨h, hf⟩)

@[grind .]
theorem safe_throw (e : Failure) : Safe S (throw e : Act α) := fun _ _ => Wordcode.safe_throw e

/-- One safe effect after another one: what the first one gives is known to the second. -/
@[grind ←]
theorem Safe.bind {x : Act α} {k : α → Act β} (hx : Safe S x)
    (hk : ∀ a, Known S a → Safe S (k a)) : Safe S (x >>= k) :=
  fun f hf => (hx f hf).bind fun p hp =>
    have hp := (known_pair p.1 p.2).mp hp
    hk p.1 hp.1 p.2 hp.2

/-- Reading the frame gives a known frame. -/
@[grind ←]
theorem safe_get_bind {k : Frame → Act β} (hk : ∀ f, Known S f → Safe S (k f)) :
    Safe S (get >>= k) :=
  fun f hf => hk f hf f hf

/-- A frame of known data. -/
@[grind ←]
theorem safe_set {f : Frame} (h : Known S f) : Safe S (set f : Act PUnit) :=
  fun _ _ => Wordcode.safe_pure ((known_pair () f).mpr ⟨known_inert (), h⟩)

theorem safe_modify {g : Frame → Frame} (h : ∀ f, Known S f → Known S (g f)) :
    Safe S (modify g : Act PUnit) :=
  fun f hf => Wordcode.safe_pure ((known_pair () (g f)).mpr ⟨known_inert (), h f hf⟩)

/-- What is safe in the world is safe in a frame. -/
@[grind ←]
theorem safe_liftExec {x : Exec α} (hx : Wordcode.Safe S x) : Safe S (liftM x : Act α) :=
  fun f hf => hx.bind fun a ha => Wordcode.safe_pure ((known_pair a f).mpr ⟨ha, hf⟩)

/-- What is safe in the store is, too. -/
@[grind ←]
theorem safe_liftOp {x : Op α} (hx : Wordcode.Safe S x) : Safe S (liftM x : Act α) :=
  safe_liftExec (Exec.safe_lift hx)

/-- The world that is covered is known. -/
@[grind .]
theorem safe_getWorld : Safe S (getThe World : Act World) :=
  safe_liftExec Wordcode.safe_get

/-- Changing the globals leaves the store alone. -/
@[grind ←]
theorem safe_setGlobals {bs : Bindings} (h : Known S bs) : Safe S (setGlobals bs) :=
  safe_liftExec (Wordcode.safe_modify fun w hw => by
    obtain ⟨hstore, -, hbuiltins, hloaded⟩ := known_world.mp hw.known
    exact ⟨known_world.mpr ⟨hstore, h, hbuiltins, hloaded⟩, hw.keeps, hw.builtins⟩)

theorem safe_mapM {f : α → Act β} (h : ∀ a, Known S a → Safe S (f a)) {as : List α}
    (has : Known S as) : Safe S (as.mapM f) := by
  induction as with
  | nil => exact safe_pure known_nil
  | cons a as ih =>
      rw [known_cons] at has
      rw [List.mapM_cons]
      refine (h a has.1).bind fun b hb => (ih has.2).bind fun bs hbs => safe_pure ?_
      exact (known_cons b bs).mpr ⟨hb, hbs⟩

theorem safe_foldlM {f : β → α → Act β}
    (h : ∀ b a, Known S b → Known S a → Safe S (f b a)) {as : List α} (has : Known S as) {b : β}
    (hb : Known S b) : Safe S (as.foldlM f b) := by
  induction as generalizing b with
  | nil => exact safe_pure hb
  | cons a as ih =>
      rw [known_cons] at has
      rw [List.foldlM_cons]
      exact (h b a hb has.1).bind fun b' hb' => ih has.2 hb'

@[grind .]
theorem safe_raise (kind : Fault.Kind) (message : String) : Safe S (raise kind message : Act α) :=
  safe_throw _

@[grind ←]
theorem safe_provided {a? : Option α} (h : Known S a?) : Safe S (provided a?) := by
  unfold provided
  grind

/-! ### The stack -/

@[grind ←]
theorem safe_push {v : Value} (h : Known S v) : Safe S (push v) :=
  safe_modify fun f hf => by grind

@[grind ←]
theorem safe_pushAll {vs : List Value} (h : Known S vs) : Safe S (pushAll vs) :=
  safe_modify fun f hf => by grind [Stack.pushAll]

/-- Taking values off the stack. -/
theorem safe_take {x : Stack → Except Failure (α × Stack)}
    (h : ∀ s a rest, Known S s → x s = .ok (a, rest) → Known S a ∧ Known S rest) :
    Safe S (do
      let f ← get
      let (a, stack) ← Exec.ofExcept (x f.stack)
      set { f with stack }
      return a : Act α) := by
  refine safe_get_bind fun f hf => ?_
  obtain ⟨hstack, hrest⟩ := known_frame.mp hf
  refine Safe.bind (safe_liftExec (Exec.safe_ofExcept fun p hp => ?_)) fun p hp => ?_
  · exact (known_pair p.1 p.2).mpr (h f.stack p.1 p.2 hstack hp)
  · obtain ⟨ha, hstack'⟩ := (known_pair p.1 p.2).mp hp
    have hf' : Known S { f with stack := p.2 } := known_frame.mpr ⟨hstack', hrest⟩
    exact (safe_set hf').bind fun _ _ => safe_pure ha

/-- What is on the stack is known. -/
@[grind .]
theorem safe_pop : Safe S pop := by
  refine safe_take fun s v rest hs h => ?_
  cases s with
  | nil => cases h
  | cons w s =>
      cases h
      exact (known_cons v rest).mp hs

@[grind .]
theorem safe_popMany (count : Int) : Safe S (popMany count) := by
  refine safe_take (x := (Stack.popMany · count)) fun s vs rest hs h => ?_
  unfold Stack.popMany at h
  split at h
  · cases h
    exact ⟨(known_reverse _).mpr (Known.take hs _), Known.drop hs _⟩
  · cases h

@[grind .]
theorem safe_popTwo : Safe S popTwo := by
  unfold popTwo
  grind

@[grind .]
theorem safe_peek (depth : Int) : Safe S (peek depth) := by
  unfold peek
  refine safe_get_bind fun f hf => safe_liftExec (Exec.safe_ofExcept fun v hv => ?_)
  unfold Stack.peek at hv
  split at hv
  next v' hget =>
    cases hv
    exact Known.of_getElem? (known_frame.mp hf).1 (Option.ite_none_right_eq_some.mp hget).2
  next => cases hv

/-! ### Names -/

@[grind .]
theorem safe_globals : Safe S globals :=
  safe_getWorld.bind fun _ hw => safe_pure (known_world.mp hw).2.1

@[grind .]
theorem safe_builtins : Safe S builtins :=
  safe_getWorld.bind fun _ hw => safe_pure (known_world.mp hw).2.2.1

@[grind .]
theorem safe_localBindings : Safe S localBindings := by
  unfold localBindings
  refine safe_get_bind fun f _ => ?_
  split
  · exact safe_liftOp (Op.safe_scope _)
  · exact safe_globals

/-- A frame may change its own variables. -/
@[grind ←]
theorem safe_setVariables {bs : Bindings} (h : Known S bs) : Safe S (setVariables bs) := by
  unfold setVariables
  refine safe_get_bind fun f hf => ?_
  have hlocals := (known_frame.mp hf).2.1
  split
  next scope hscope => exact safe_liftOp (Op.safe_setScope (hscope ▸ hlocals) h)
  next => exact safe_setGlobals h

@[grind .]
theorem safe_undefinedName (name : String) : Safe S (undefinedName name : Act α) := safe_throw _

@[grind .]
theorem safe_unboundVariable (name : String) : Safe S (unboundVariable name : Act α) :=
  safe_throw _

/-- The values of variables are known, wherever the name is found. -/
@[grind .]
theorem safe_loadName (name : String) : Safe S (loadName name) := by
  unfold loadName
  refine safe_localBindings.bind fun vs hvs => safe_builtins.bind fun bs hbs =>
    safe_globals.bind fun gs hgs => ?_
  split
  next v hv => exact safe_pure (by grind [Option.or_eq_some_iff])
  next => exact safe_undefinedName name

@[grind .]
theorem safe_loadVariable (name : String) : Safe S (loadVariable name) := by
  unfold loadVariable
  grind

@[grind .]
theorem safe_loadGlobal (name : String) : Safe S (loadGlobal name) := by
  unfold loadGlobal
  refine safe_globals.bind fun gs hgs => safe_builtins.bind fun bs hbs => ?_
  split
  next v hv => exact safe_pure (by grind [Option.or_eq_some_iff])
  next => exact safe_undefinedName name

/-- A variable of the frame is set in a scope that may change. -/
@[grind ←]
theorem safe_storeVariable (name : String) {v : Value} (h : Known S v) :
    Safe S (storeVariable name v) := by
  unfold storeVariable
  grind

@[grind ←]
theorem safe_storeGlobal (name : String) {v : Value} (h : Known S v) :
    Safe S (storeGlobal name v) := by
  unfold storeGlobal
  grind

@[grind ←]
theorem safe_deleteVariable (name : String) {missing : String → Act Unit}
    (h : ∀ name, Safe S (missing name)) : Safe S (deleteVariable name missing) := by
  unfold deleteVariable
  grind

@[grind .]
theorem safe_deleteGlobal (name : String) : Safe S (deleteGlobal name) := by
  unfold deleteGlobal
  grind

/-! ### Building values -/

/-- The halves of known lists. -/
theorem known_inPairs {vs : List Value} (h : Known S vs) : Known S (inPairs vs) := by
  fun_induction inPairs vs with
  | case1 a b rest ih =>
      simp only [known_cons, known_pair] at h ⊢
      exact ⟨⟨h.1, h.2.1⟩, ih h.2.2⟩
  | case2 => exact known_nil

@[grind .]
theorem safe_listAt (depth : Nat) : Safe S (listAt depth) := by
  unfold listAt
  grind

@[grind .]
theorem safe_popSpecification (arg : Nat) : Safe S (popSpecification arg) := by
  unfold popSpecification
  grind

@[grind ←]
theorem safe_converted (arg : Nat) {v : Value} (h : Known S v) : Safe S (converted arg v) := by
  unfold converted
  grind

@[grind .]
theorem safe_formatted (arg : Nat) : Safe S (formatted arg) := by
  unfold formatted
  grind

@[grind .]
theorem safe_popKeys (count : Nat) : Safe S (popKeys count) := by
  unfold popKeys
  grind

@[grind .]
theorem safe_expectItems (count : Nat) (items : List Value) : Safe S (expectItems count items) := by
  unfold expectItems
  grind

/-! ### Functions and arguments -/

@[grind .]
theorem safe_popCode : Safe S popCode := by
  unfold popCode
  grind

@[grind .]
theorem safe_popDefaults (flags : Nat) : Safe S (popDefaults flags) := by
  unfold popDefaults
  grind

@[grind .]
theorem safe_popMapping (flags : Nat) : Safe S (popMapping flags) := by
  unfold popMapping
  grind

@[grind ←]
theorem safe_pairKeywords {names values : List Value} (hnames : Known S names)
    (hvalues : Known S values) : Safe S (pairKeywords names values) := by
  unfold pairKeywords
  refine safe_foldlM ?_ (hnames.zip hvalues) known_nil
  rintro entries ⟨name, v⟩ hentries hpair
  grind

/-! ### Control -/

@[grind .]
theorem safe_jump (i : Instruction) : Safe S (Frame.jump i) := by
  unfold Frame.jump
  grind

@[grind ←]
theorem safe_result {v : Value} (h : Known S v) : Safe S (Frame.result v) := by
  unfold Frame.result
  grind

@[grind .]
theorem safe_rotate (n : Nat) : Safe S (Frame.rotate n) := by
  unfold Frame.rotate
  grind

end Act

/-! ## Effects that may make something -/

namespace Act

variable {α β : Type} {S : Ledger}

/-- An effect that is tracked in whatever frame it happens, with a result that is related to the
later ledger. -/
def TracksTo (S : Ledger) (post : Ledger → α → Prop) (x : Act α) : Prop :=
  ∀ f, Known S f → Wordcode.TracksTo S (fun T p => post T p.1 ∧ Known T p.2) (x.run f)

/-- The result is known to the later ledger. -/
def Tracks [HasReferences α] (S : Ledger) (x : Act α) : Prop :=
  TracksTo S (fun T a => Known T a) x

section

variable {mid : Ledger → α → Prop} {post : Ledger → β → Prop} {x : Act α} {k : α → Act β}

theorem tracksTo_pure {b : β} (h : post S b) : TracksTo S post (pure b : Act β) :=
  fun _ hf => Wordcode.tracksTo_pure ⟨h, hf⟩

theorem tracksTo_lift {x : Exec β} (hx : Wordcode.TracksTo S post x) :
    TracksTo S post (liftM x : Act β) :=
  fun _ hf => hx.bind fun _ _ hST ha => Wordcode.tracksTo_pure ⟨ha, hf.mono hST⟩

theorem tracksTo_liftOp {x : Op β} (hx : Wordcode.TracksTo S post x) :
    TracksTo S post (liftM x : Act β) :=
  tracksTo_lift (Exec.tracksTo_lift hx)

/-- One tracked effect after another one, under the ledger that the first one has left. -/
theorem TracksTo.bind (hx : TracksTo S mid x)
    (hk : ∀ T a, S.Extends T → mid T a → TracksTo T post (k a)) : TracksTo S post (x >>= k) :=
  fun f hf => (hx f hf).bind fun T p hST hp => hk T p.1 hST hp.1 p.2 hp.2

variable [HasReferences α]

/-- What is safe makes nothing. -/
theorem Safe.tracks (hx : Safe S x) : Tracks S x :=
  fun f hf => (hx f hf).tracks.mono fun _ p hp => (known_pair p.1 p.2).mp hp

/-- The same, when the first result is known. -/
theorem Tracks.bind (hx : Tracks S x)
    (hk : ∀ T a, S.Extends T → Known T a → TracksTo T post (k a)) : TracksTo S post (x >>= k) :=
  TracksTo.bind hx hk

/-- A safe effect, and then one that may make something. -/
theorem Safe.andThen (hx : Safe S x) (hk : ∀ a, Known S a → TracksTo S post (k a)) :
    TracksTo S post (x >>= k) :=
  fun f hf => (hx f hf).andThen fun p hp =>
    have hp := (known_pair p.1 p.2).mp hp
    hk p.1 hp.1 p.2 hp.2

theorem tracks_lift {x : Exec α} (hx : Wordcode.Tracks S x) : Tracks S (liftM x : Act α) :=
  tracksTo_lift hx

/-- In a frame of known data. -/
theorem Tracks.run (hx : Tracks S x) {f : Frame} (hf : Known S f) :
    Wordcode.Tracks S (x.run f) :=
  (hx f hf).mono fun _ p hp => (known_pair p.1 p.2).mpr hp

end

theorem tracks_buildDict {pairs : List (Value × Value)} (h : Known S pairs) :
    Tracks S (buildDict pairs) :=
  (tracksTo_liftOp (Op.tracks_dictOfPairs h)).bind fun _ _ _ hv => (safe_push hv).tracks

/-! ### Making functions -/

/-- The copy of the keyword-only defaults is kept. -/
theorem tracksTo_popKeywordDefaults (S : Ledger) (flags : Nat) :
    TracksTo S (fun T o => ∀ ref ∈ o, T.Kept (.dict ref)) (popKeywordDefaults flags) := by
  unfold popKeywordDefaults
  split
  · refine safe_pop.andThen fun v _ => ?_
    split
    next ref _ =>
      have hcopy : Wordcode.TracksTo S (fun T r => T.Kept (.dict r))
          (do Op.addDict (← Op.dict ref) : Op Nat) :=
        (Op.safe_dict ref).andThen fun d hd => Op.tracksTo_addDict_kept hd
      refine (tracksTo_liftOp hcopy).bind fun T r _ hr => tracksTo_pure ?_
      rintro _ ⟨⟩
      exact hr
    next => exact fun _ _ => Wordcode.tracksTo_throw _
  · exact tracksTo_pure nofun

/-- The captured variables are kept. -/
theorem tracksTo_snapshot (S : Ledger) :
    TracksTo S (fun T ref => T.Kept (.scope ref)) snapshot :=
  safe_localBindings.andThen fun _ hvs => tracksTo_liftOp (Op.tracksTo_newScope_kept hvs)

/-- What a function refers to has been made for it, and nothing else refers to that. -/
theorem tracks_makeFunction (S : Ledger) (flags : Nat) : Tracks S (makeFunction flags) := by
  unfold makeFunction
  split
  · exact Safe.tracks (by grind)
  · refine safe_popCode.andThen fun code _ => ?_
    refine (tracksTo_popKeywordDefaults S flags).bind fun T keywordDefaults? hST hdict => ?_
    refine (safe_popDefaults flags).andThen fun defaults hdefaults => ?_
    refine (tracksTo_snapshot T).bind fun U snapshot hTU hscope => tracksTo_liftOp ?_
    refine Op.tracks_newFunction code (hdefaults.mono hTU) (fun ref href => ?_) hscope
    exact hTU.kept_of_kept (hdict ref href)

end Act

/-! ## Instructions -/

/-- Calls of values that are known to a ledger or a later one, with such arguments, track them. -/
def Invoke.Tracked (S : Ledger) (invoke : Invoke) : Prop :=
  ∀ T f args keywords, S.Extends T → Known T f → Known T args → Known T keywords →
    Tracks T (invoke f args keywords)

/-- What is tracked under a ledger is tracked under later ones. -/
theorem Invoke.Tracked.mono {S T : Ledger} {invoke : Invoke} (h : invoke.Tracked S)
    (hST : S.Extends T) : invoke.Tracked T :=
  fun U f args keywords hTU => h U f args keywords (hST.trans hTU)

namespace Tracks

/-! ### Instructions that call nothing -/

section

variable {S : Ledger} {invoke : Invoke} (fuel : Nat) {i : Instruction}

/-- An operator may make a dict, the union of two. -/
theorem binaryOp (hop : i.op = .binaryOp) :
    Act.Tracks S (Frame.execute ⟨invoke, fuel⟩ i) := by
  simp only [Frame.execute, hop]
  refine Act.safe_popTwo.andThen fun p hp => ?_
  refine Act.Safe.andThen (Act.safe_provided (known_option_inert _)) fun o _ => ?_
  have hdone := Op.tracks_binary o ((known_pair _ _).mp hp).1 ((known_pair _ _).mp hp).2
  exact (Act.tracksTo_liftOp hdone).bind fun T v _ hv => Act.Safe.tracks (by grind)

/-- The list has one known item more. -/
theorem listAppend (hop : i.op = .listAppend) :
    Act.Tracks S (Frame.execute ⟨invoke, fuel⟩ i) := by
  simp only [Frame.execute, hop]
  refine Act.safe_pop.andThen fun v hv => (Act.safe_listAt i.arg).andThen fun ref _ => ?_
  have happended : Safe S (do Op.setItems ref ((← Op.items ref) ++ [v]) : Op Unit) :=
    (Op.safe_items ref).bind fun xs hxs => Op.safe_setItems ref (by simp [hxs, hv])
  exact (Act.safe_liftOp happended).andThen fun _ _ => Act.Safe.tracks (by grind)

/-- A function comes with a dict and a scope of its own. -/
theorem makeFunction (hop : i.op = .makeFunction) :
    Act.Tracks S (Frame.execute ⟨invoke, fuel⟩ i) := by
  simp only [Frame.execute, hop]
  exact (Act.tracks_makeFunction S i.arg).bind fun T v _ hv => Act.Safe.tracks (by grind)

/-- The dict is a new one, of pairs that are known. -/
theorem buildMap (hop : i.op = .buildMap) :
    Act.Tracks S (Frame.execute ⟨invoke, fuel⟩ i) := by
  simp only [Frame.execute, hop]
  refine (Act.safe_popMany _).andThen fun vs hvs => ?_
  have hbuilt := Act.tracks_buildDict (Act.known_inPairs hvs)
  exact hbuilt.bind fun T _ _ _ => Act.Safe.tracks (by grind)

theorem buildConstKeyMap (hop : i.op = .buildConstKeyMap) :
    Act.Tracks S (Frame.execute ⟨invoke, fuel⟩ i) := by
  simp only [Frame.execute, hop]
  refine (Act.safe_popKeys i.arg).andThen fun keys hkeys => ?_
  refine (Act.safe_popMany i.arg).andThen fun values hvalues => ?_
  have hbuilt := Act.tracks_buildDict (hkeys.zip hvalues)
  exact hbuilt.bind fun T _ _ _ => Act.Safe.tracks (by grind)

theorem buildString (hop : i.op = .buildString) :
    Act.Tracks S (Frame.execute ⟨invoke, fuel⟩ i) := by
  simp only [Frame.execute, hop]
  refine (Act.safe_popMany _).andThen fun vs hvs => ?_
  have htexts : Act.Safe S (vs.mapM fun v => (Op.asStr v : Op String) : Act (List String)) :=
    Act.safe_mapM (fun v _ => Act.safe_liftOp (Op.safe_asStr v)) hvs
  exact htexts.andThen fun texts _ => Act.Safe.tracks (by grind)

end

/-! ### Instructions that may call -/

variable {S : Ledger} {invoke : Invoke} (hinvoke : invoke.Tracked S) (fuel : Nat)
include hinvoke

/-- Calls from iterators and key functions are tracked. -/
theorem callback : (⟨invoke, fuel⟩ : Surroundings).callback.Tracked S :=
  fun T f args hST hf hargs => hinvoke T f args [] hST hf hargs known_nil

/-- Calls from instructions are, too. -/
theorem callValue {f : Value} {args : List Value} {keywords : List Entry} (hf : Known S f)
    (hargs : Known S args) (hkeywords : Known S keywords) :
    Tracks S ((⟨invoke, fuel⟩ : Surroundings).call f args keywords) := by
  refine (hinvoke S f args keywords (.refl S) hf hargs hkeywords).bind fun T v? _ hv? => ?_
  cases v? with
  | some v => exact tracks_pure ((known_some v).mp hv?)
  | none => exact tracks_pure (known_atom trivial)

/-- Calls with a mapping are, though the mapping is read again after the call. -/
theorem callWith {f : Value} {args : List Value} (hf : Known S f) (hargs : Known S args)
    (mapping? : Option Nat) :
    Tracks S ((⟨invoke, fuel⟩ : Surroundings).callWith f args mapping?) := by
  cases mapping? with
  | none => exact callValue hinvoke fuel hf hargs known_nil
  | some mapping =>
      unfold Surroundings.callWith
      dsimp only
      split
      · refine (callValue hinvoke fuel hf hargs known_nil).bind fun T v hST hv => ?_
        split
        · exact (updateDict _ fuel hv mapping).bind fun U _ hTU _ => tracks_pure (hv.mono hTU)
        · exact (tracks_throw _).bind fun U _ hTU _ => tracks_pure (hv.mono hTU)
      · refine (callValue hinvoke fuel hf hargs known_nil).bind fun T v hST hv => ?_
        have href := (known_method.mp hf).mono hST
        exact (updateDict _ fuel href mapping).bind fun U _ hTU _ => tracks_pure (hv.mono hTU)
      · refine (Exec.safe_lift (Op.safe_entries mapping)).andThen fun keywords hkeywords => ?_
        exact callValue hinvoke fuel hf hargs hkeywords

/-- In place, an operator may go through an iterable. -/
theorem inplaceOp {i : Instruction} (hop : i.op = .inplaceOp) :
    Act.Tracks S (Frame.execute ⟨invoke, fuel⟩ i) := by
  simp only [Frame.execute, hop]
  refine Act.safe_popTwo.andThen fun p hp => ?_
  refine Act.Safe.andThen (Act.safe_provided (known_option_inert _)) fun o _ => ?_
  have hdone := inplace (callback hinvoke fuel) fuel o
    ((known_pair _ _).mp hp).1 ((known_pair _ _).mp hp).2
  exact (Act.tracks_lift hdone).bind fun T v _ hv => Act.Safe.tracks (by grind)

/-- Looking for a value goes through an iterator. -/
theorem containsOp {i : Instruction} (hop : i.op = .containsOp) :
    Act.Tracks S (Frame.execute ⟨invoke, fuel⟩ i) := by
  simp only [Frame.execute, hop]
  refine Act.safe_popTwo.andThen fun p hp => ?_
  have hfound := contains (callback hinvoke fuel) fuel ((known_pair _ _).mp hp).2 p.1
  exact (Act.tracks_lift hfound).bind fun T b _ _ => Act.Safe.tracks (by grind)

/-- What is put into a slice comes from an iterable. -/
theorem storeSubscr {i : Instruction} (hop : i.op = .storeSubscr) :
    Act.Tracks S (Frame.execute ⟨invoke, fuel⟩ i) := by
  simp only [Frame.execute, hop]
  refine (Act.safe_popMany 3).andThen fun vs hvs => ?_
  split
  next v container key =>
    simp only [known_cons] at hvs
    have hset := setItem (callback hinvoke fuel) fuel hvs.2.1 hvs.2.2.1 hvs.1
    exact (Act.tracks_lift hset).bind fun T _ _ _ => Act.Safe.tracks (by grind)
  next => exact Act.Safe.tracks (by grind)

/-- The items come from an iterator. -/
theorem unpackSequence {i : Instruction} (hop : i.op = .unpackSequence) :
    Act.Tracks S (Frame.execute ⟨invoke, fuel⟩ i) := by
  simp only [Frame.execute, hop]
  refine Act.safe_pop.andThen fun v hv => ?_
  have hcollected := orError (collect (callback hinvoke fuel) fuel hv)
  exact (Act.tracks_lift (hcollected _)).bind fun T vs _ hvs => Act.Safe.tracks (by grind)

/-- The items come from an iterator, and the list keeps what it had. -/
theorem listExtend {i : Instruction} (hop : i.op = .listExtend) :
    Act.Tracks S (Frame.execute ⟨invoke, fuel⟩ i) := by
  simp only [Frame.execute, hop]
  refine Act.safe_pop.andThen fun v hv => (Act.safe_listAt i.arg).andThen fun ref _ => ?_
  have hextended := extend (callback hinvoke fuel) fuel ref hv
  exact (Act.tracks_lift hextended).bind fun T _ _ _ => Act.Safe.tracks (by grind)

/-- The next value is that of an iterator. -/
theorem forIter {i : Instruction} (hop : i.op = .forIter) :
    Act.Tracks S (Frame.execute ⟨invoke, fuel⟩ i) := by
  simp only [Frame.execute, hop]
  refine (Act.safe_peek 0).andThen fun v _ => ?_
  split
  · refine (Act.tracks_lift (next (callback hinvoke fuel) fuel _)).bind fun T v? _ hv? => ?_
    exact Act.Safe.tracks (by grind)
  · exact Act.Safe.tracks (by grind)

/-- The keywords are named in a tuple. -/
theorem callFunctionKw {i : Instruction} (hop : i.op = .callFunctionKw) :
    Act.Tracks S (Frame.execute ⟨invoke, fuel⟩ i) := by
  simp only [Frame.execute, hop]
  refine Act.safe_pop.andThen fun v hv => ?_
  split
  next names id =>
    rw [known_tuple] at hv
    split
    · exact Act.Safe.tracks (by grind)
    · refine (Act.safe_popMany i.arg).andThen fun values hvalues => ?_
      refine Act.safe_pop.andThen fun f hf => ?_
      refine (Act.safe_pairKeywords hv (hvalues.drop _)).andThen fun keywords hkeywords => ?_
      have hcalled := callValue hinvoke fuel hf (hvalues.take (i.arg - names.length)) hkeywords
      exact (Act.tracks_lift hcalled).bind fun T v _ hv => Act.Safe.tracks (by grind)
  next => exact Act.Safe.tracks (by grind)

/-- The arguments come from an iterable and a mapping, which may make dicts before the call. -/
theorem callFunctionEx {i : Instruction} (hop : i.op = .callFunctionEx) :
    Act.Tracks S (Frame.execute ⟨invoke, fuel⟩ i) := by
  simp only [Frame.execute, hop]
  refine (Act.safe_popMapping i.arg).andThen fun mapping? _ => ?_
  refine Act.safe_pop.andThen fun v hv => ?_
  have hcollected := orError (collect (callback hinvoke fuel) fuel hv)
  refine (Act.tracks_lift (hcollected _)).bind fun T args hST hargs => ?_
  refine Act.safe_pop.andThen fun f hf => ?_
  have hcalled := callWith (hinvoke.mono hST) fuel hf hargs mapping?
  exact (Act.tracks_lift hcalled).bind fun U v _ hv => Act.Safe.tracks (by grind)

/-- Executing an instruction is tracked if calls are. -/
theorem execute (i : Instruction) :
    Act.Tracks S (Frame.execute ⟨invoke, fuel⟩ i) := by
  -- the instructions that iterate, test for membership or call may call back, and some of the
  -- others make dicts or functions
  cases hop : i.op with
  | binaryOp => exact binaryOp fuel hop
  | inplaceOp => exact inplaceOp hinvoke fuel hop
  | containsOp => exact containsOp hinvoke fuel hop
  | storeSubscr => exact storeSubscr hinvoke fuel hop
  | unpackSequence => exact unpackSequence hinvoke fuel hop
  | listAppend => exact listAppend fuel hop
  | listExtend => exact listExtend hinvoke fuel hop
  | forIter => exact forIter hinvoke fuel hop
  | callFunction | callMethod =>
      simp only [Frame.execute, hop]
      refine (Act.safe_popMany i.arg).andThen fun args hargs => ?_
      refine Act.safe_pop.andThen fun f hf => ?_
      have hcalled := callValue hinvoke fuel hf hargs known_nil
      exact (Act.tracks_lift hcalled).bind fun T v _ hv => Act.Safe.tracks (by grind)
  | callFunctionKw => exact callFunctionKw hinvoke fuel hop
  | callFunctionEx => exact callFunctionEx hinvoke fuel hop
  | makeFunction => exact makeFunction fuel hop
  | buildMap => exact buildMap fuel hop
  | buildConstKeyMap => exact buildConstKeyMap fuel hop
  | buildString => exact buildString fuel hop
  | _ =>
      simp only [Frame.execute, hop]
      exact Act.Safe.tracks (by grind)

end Tracks

/-! ## Records -/

/-- Where a world may have references, and what a ledger keeps of it. -/
theorem Ledger.Covers.congr {S : Ledger} {w w' : World} (h : S.Covers w)
    (hstore : w'.store = w.store) (hglobals : w'.globals = w.globals)
    (hbuiltins : w'.builtins = w.builtins) (hloaded : w'.loaded = w.loaded) : S.Covers w' := by
  obtain ⟨hknown, hkeeps, hkept⟩ := h
  refine ⟨?_, ?_, fun bs hbs => hkept bs ?_⟩
  · rw [known_world] at hknown ⊢
    rwa [hstore, hglobals, hbuiltins, hloaded]
  · change S.Keeps w'.store
    rw [hstore]
    exact hkeeps
  · change bs ∈ some w'.builtins at hbs
    rwa [hbuiltins] at hbs

namespace Machine

/-- The host callables only come to what they are given, and track it. -/
def HonestHosts (m : Machine) : Prop :=
  ∀ (S : Ledger) (invoke : Invoke) (name : String) (args : List Value) (keywords : List Entry),
    invoke.Tracked S → Known S args → Known S keywords →
      Tracks S (m.hosts name invoke args keywords)

variable {S : Ledger} (m : Machine)

/-- Keeping records is safe. -/
theorem safe_record {g : World → World}
    (hsame : ∀ w, (g w).store = w.store ∧ (g w).globals = w.globals ∧
      (g w).builtins = w.builtins ∧ (g w).loaded = w.loaded) : Safe S (modify g : Exec PUnit) :=
  safe_modify fun w hw => by
    obtain ⟨hstore, hglobals, hbuiltins, hloaded⟩ := hsame w
    exact hw.congr hstore hglobals hbuiltins hloaded

theorem safe_log (message : LogMessage) : Safe S (m.log message) := by
  unfold log
  extract_lets wanted
  cases wanted with
  | true => exact safe_record fun _ => ⟨rfl, rfl, rfl, rfl⟩
  | false => exact safe_pure (known_inert ())

theorem safe_report (o : Observer) (event : Event) : Safe S (report o event) := by
  unfold report
  refine safe_get_bind fun w _ => ?_
  refine Safe.bind (safe_record fun _ => ⟨rfl, rfl, rfl, rfl⟩) fun _ _ => ?_
  split
  · exact Exec.safe_raise _ _
  · exact safe_pure (known_inert ())

theorem safe_reportStep (f : Frame) (i : Instruction) : Safe S (m.reportStep f i) := by
  unfold reportStep
  split
  · exact safe_pure (known_inert ())
  next o _ =>
    have hevent : Safe S (do
        let depth := (← get).sites.length
        report o (.step f.name i.offset i.op i.arg f.stack.length depth) : Exec Unit) :=
      safe_get_bind fun w _ => safe_report o _
    dsimp only
    split
    · exact safe_pure (known_inert ())
    · exact hevent
    · refine safe_get_bind fun w _ => ?_
      refine Safe.bind (safe_record fun _ => ⟨rfl, rfl, rfl, rfl⟩) fun _ _ => ?_
      split
      · exact hevent
      · exact safe_pure (known_inert ())

theorem safe_atSite (site : Fault.Site) : Safe S (atSite site) :=
  safe_record fun _ => ⟨rfl, rfl, rfl, rfl⟩

/-! ## Code -/

/-- Constants have no references. -/
theorem safe_prepare (c : Code) : Safe S (prepare c) := by
  unfold prepare
  split
  · exact safe_throw _
  · refine Safe.bind (Exec.safe_ofExcept fun _ _ => known_inert _) fun listing _ => ?_
    have hconsts : Known S c.constants.zipIdx := known_list.mpr fun p _ =>
      (known_pair p.1 p.2).mpr ⟨known_inert _, known_inert _⟩
    refine Safe.bind (safe_mapM ?_ hconsts) fun constants hconstants => ?_
    · rintro ⟨k, i⟩ -
      exact Exec.safe_lift (Op.Safe.labelled (Op.safe_ofConst k) _)
    · exact safe_pure (known_toArray hconstants)

/-- Code that is loaded has only constants. -/
theorem safe_load (c : Code) : Safe S (load c) := by
  unfold load
  refine safe_get_bind fun w hw => ?_
  split
  next code hcode => exact safe_pure ((known_world.mp hw.known).2.2.2.of_lookup hcode)
  next =>
    refine (safe_prepare c).bind fun code hcode => ?_
    refine Safe.bind (safe_modify fun w hw => ?_) fun _ _ => safe_pure hcode
    obtain ⟨hstore, hglobals, hbuiltins, hloaded⟩ := known_world.mp hw.known
    refine ⟨known_world.mpr ⟨hstore, hglobals, hbuiltins, ?_⟩, hw.keeps, hw.builtins⟩
    exact (known_cons _ _).mpr ⟨(known_pair _ _).mpr ⟨known_inert _, hcode⟩, hloaded⟩

theorem safe_program : Safe S m.program := by
  unfold program
  grind

theorem safe_enter : Safe S enter := by
  have hrecord : Safe S
      (modify fun w => { w with running := true, stepCount := 0 } : Exec PUnit) :=
    safe_record fun _ => ⟨rfl, rfl, rfl, rfl⟩
  unfold enter
  refine safe_get_bind fun w _ => ?_
  split
  · exact Safe.bind (safe_throw _) fun _ _ => hrecord
  · exact hrecord

theorem safe_loadMain (main : Code) : Safe S (loadMain main) :=
  Safe.bind (safe_record fun _ => ⟨rfl, rfl, rfl, rfl⟩)
    fun _ _ => safe_load main

/-! ## Frames -/

theorem safe_checkDepth (c : Call) : Safe S (m.checkDepth c) := by
  unfold checkDepth
  grind

theorem safe_announce (c : Call) (depth : Nat) : Safe S (m.announce c depth) := by
  have hlog := m.safe_log (S := S)
  have hreport := safe_report (S := S)
  unfold announce
  grind

/-- A new frame may change its own variables. -/
theorem tracks_openFrame {c : Call} (h : Known S c) : Tracks S (m.openFrame c) := by
  unfold openFrame
  refine (m.safe_checkDepth c).andThen fun depth _ => (safe_load _).andThen fun code hcode => ?_
  refine (Exec.tracksTo_lift (Op.tracksTo_makeScope h)).bind fun T scope hST hscope => ?_
  refine (m.safe_announce c depth).andThen fun _ _ => tracks_pure ?_
  exact known_frame.mpr ⟨known_nil, known_own.mpr hscope, hcode.mono hST⟩

/-- A frame that is closed takes its site with it. -/
theorem safe_closeFrame (c : Call) (v : Value) : Safe S (m.closeFrame c v) := by
  have hlog := m.safe_log (S := S)
  have hreport := safe_report (S := S)
  unfold closeFrame
  grind

theorem safe_checkConvention (h : Host) (keywords : List Entry) :
    Safe S (checkConvention h keywords) := by
  unfold checkConvention
  grind

variable {m} {invoke : Invoke} (hinvoke : invoke.Tracked S)
  (fuel : Nat)
include hinvoke

/-- One turn of the loop. -/
theorem tracks_turn {f : Frame} (hf : Known S f) (i : Instruction) :
    Tracks S (m.turn ⟨invoke, fuel⟩ f i) :=
  (safe_atSite _).andThen fun _ _ => (m.safe_reportStep f i).andThen fun _ _ =>
    (Tracks.execute hinvoke fuel i).run hf

/-- The loop of a frame, by induction on its steps. Each turn may have made something, so the next
one is tracked under a later ledger. -/
theorem tracks_runFrom (steps offset : Nat) {f : Frame} (hf : Known S f) :
    Tracks S (m.runFrom ⟨invoke, fuel⟩ steps offset f) := by
  induction steps generalizing S offset f with
  | zero => exact tracks_throw .exhausted
  | succ steps ih =>
      -- a step may add to the ledger, and the rest of the frame starts from the later one
      unfold runFrom
      split
      next => exact tracks_throw _
      next i _ =>
        refine (tracks_turn hinvoke fuel hf i).bind fun T p hST hp => ?_
        obtain ⟨flow, f'⟩ := p
        obtain ⟨hflow, hf'⟩ := (known_pair flow f').mp hp
        have hrest (offset : Nat) :=
          ih (hinvoke.mono hST) offset hf'
        cases flow with
        | next => exact hrest i.next
        | jump target => exact hrest target
        | leave v => exact tracks_pure ((known_pair _ _).mpr ⟨hflow, known_inert _⟩)

/-- A whole frame. -/
theorem tracks_runFrame {f : Frame} (hf : Known S f) :
    Tracks S (m.runFrame ⟨invoke, fuel⟩ f) := by
  have hsites {T : Ledger} {g : World → List Fault.Site} :
      Safe T (modify fun w => { w with sites := g w } : Exec PUnit) :=
    safe_record fun _ => ⟨rfl, rfl, rfl, rfl⟩
  unfold runFrame
  refine Safe.andThen safe_get fun w _ => Safe.andThen hsites fun _ _ => ?_
  refine Tracks.bind (Tracks.handle (tracks_runFrom hinvoke fuel _ 0 hf) ?_) ?_
  · intro T e _
    exact Safe.andThen safe_get fun w _ => Safe.andThen hsites fun _ _ => tracks_throw _
  · rintro T ⟨v, left⟩ _ hp
    have hv := ((known_pair v left).mp hp).1
    dsimp only
    split
    · exact (m.safe_log _).andThen fun _ _ => Safe.andThen hsites fun _ _ => tracks_pure hv
    · exact Safe.andThen hsites fun _ _ => tracks_pure hv

/-- A call of a function is tracked if the calls that its frame makes are. -/
theorem tracks_callFunction {c : Call} (h : Known S c) :
    Tracks S (m.callFunction ⟨invoke, fuel⟩ c) := by
  refine (m.tracks_openFrame h).bind fun T f hST hf => ?_
  refine (tracks_runFrame (hinvoke.mono hST) fuel hf).bind fun U v _ hv => ?_
  exact (m.safe_closeFrame c v).andThen fun _ _ => tracks_pure hv

/-- A call is tracked whatever is called: for functions by the arguments that are copied into a new
scope, for hosts by assumption. -/
theorem tracks_answer (hhosts : m.HonestHosts) {f : Value} {args : List Value}
    {keywords : List Entry} (hf : Known S f) (hargs : Known S args)
    (hkeywords : Known S keywords) :
    Tracks S (m.answer ⟨invoke, fuel⟩ f args keywords) := by
  have hcall := Tracks.callback hinvoke fuel
  unfold answer
  -- what a callee reaches is known, and so are its arguments
  split
  next ref =>
    refine (Exec.safe_lift (Op.safe_closure ref)).andThen fun c hc => ?_
    have hcall : Known S (⟨c, args, keywords⟩ : Call) := known_call.mpr ⟨hc, hargs, hkeywords⟩
    exact (tracks_callFunction hinvoke fuel hcall).map fun T v _ hv => (known_some v).mpr hv
  next receiver method id =>
    exact (Tracks.callMethod hcall fuel (known_method.mp hf) method hargs hkeywords).map
      fun T v _ hv => (known_some v).mpr hv
  next b =>
    exact (Tracks.callBuiltin hcall fuel b hargs hkeywords).map
      fun T v _ hv => (known_some v).mpr hv
  next h =>
    exact (safe_checkConvention h keywords).andThen fun _ _ =>
      hhosts S invoke h.name args keywords hinvoke hargs hkeywords
  next => exact (Exec.safe_typeError _).tracks

omit hinvoke in
/-- Calls track what they are given. -/
theorem tracked_invoke (hhosts : m.HonestHosts) : (m.invoke fuel).Tracked S := by
  -- a call that is made within another one has less fuel than that
  induction fuel generalizing S with
  | zero => exact fun _ _ _ _ _ _ _ _ => tracks_throw .exhausted
  | succ fuel ih =>
      intro T f args keywords hST hf hargs hkeywords
      exact tracks_answer ih fuel hhosts hf hargs hkeywords

end Machine

end Wordcode
