import Wordcode.Proofs.Custody
import Mathlib

namespace Wordcode

/-! # Operations and ledgers

Operations on values pass known data on, file them and find them again. Most of them make nothing
that a ledger counts. Those that make dicts add to the ledger.

* `Op.safe_itemAt` and its like say that operations on values are safe.
* `Op.tracks_binary` and its like are about those that make dicts.
-/

/-! ## The store -/

section

variable {S : Ledger}

namespace Ledger

/-! ### Changes to the store -/

theorem Keeps.congr {s s' : Store} (h : S.Keeps s) (hdicts : s'.dicts = s.dicts)
    (hscopes : s'.scopes = s.scopes) (hfunctions : s'.functions = s.functions) : S.Keeps s' where
  dictCount := hdicts ▸ h.dictCount
  dict hd := by
    rw [← h.dict hd, Store.dict, Store.dict, hdicts]
  scopeCount := hscopes ▸ h.scopeCount
  scope hvs := by
    rw [← h.scope hvs, Store.scope, Store.scope, hscopes]
  functions := hfunctions ▸ h.functions

/-- A dict that may change gets other contents. The kept ones are elsewhere. -/
theorem Keeps.setDict {s : Store} (h : S.Keeps s) {ref : Nat} (href : S.Open (.dict ref))
    (d : Dict) : S.Keeps { s with dicts := s.dicts.setIfInBounds ref d } where
  dictCount := by simp [h.dictCount]
  dict {r e} hr := by
    have hne : ref ≠ r := by
      rintro rfl
      cases href.symm.trans hr
    rw [← h.dict hr]
    simp [Store.dict, Array.getD_eq_getD_getElem?, hne]
  scopeCount := h.scopeCount
  scope := h.scope
  functions := h.functions

/-- A scope that may change gets other variables. -/
theorem Keeps.setScope {s : Store} (h : S.Keeps s) {ref : Nat} (href : S.Open (.scope ref))
    (vs : Bindings) : S.Keeps { s with scopes := s.scopes.setIfInBounds ref vs } where
  dictCount := h.dictCount
  dict := h.dict
  scopeCount := by simp [h.scopeCount]
  scope {r e} hr := by
    have hne : ref ≠ r := by
      rintro rfl
      cases href.symm.trans hr
    rw [← h.scope hr]
    simp [Store.scope, Array.getD_eq_getD_getElem?, hne]
  functions := h.functions

theorem Keeps.addDict {s : Store} (h : S.Keeps s) {d : Dict} {d? : Option Dict}
    (hd : ∀ e ∈ d?, d = e) : (S.withDict d?).Keeps { s with dicts := s.dicts.push d } where
  dictCount := by simp [withDict, h.dictCount]
  dict {r e} hr := by
    rcases Nat.lt_trichotomy r S.dicts.length with hlt | rfl | hgt
    · rw [withDict, List.getElem?_append_left hlt] at hr
      have hne : r ≠ s.dicts.size := by
        have := h.dictCount
        omega
      rw [← h.dict hr]
      simp [Store.dict, Array.getD_eq_getD_getElem?, Array.getElem?_push, hne]
    · rw [withDict, List.getElem?_concat_length] at hr
      simp [Store.dict, Array.getD_eq_getD_getElem?, ← h.dictCount, hd e (Option.some.inj hr)]
    · rw [withDict, List.getElem?_eq_none (by simp; omega)] at hr
      cases hr
  scopeCount := h.scopeCount
  scope := h.scope
  functions := h.functions

theorem Keeps.addScope {s : Store} (h : S.Keeps s) {vs : Bindings} {vs? : Option Bindings}
    (hvs : ∀ us ∈ vs?, vs = us) :
    (S.withScope vs?).Keeps { s with scopes := s.scopes.push vs } where
  dictCount := h.dictCount
  dict := h.dict
  scopeCount := by simp [withScope, h.scopeCount]
  scope {r e} hr := by
    rcases Nat.lt_trichotomy r S.scopes.length with hlt | rfl | hgt
    · rw [withScope, List.getElem?_append_left hlt] at hr
      have hne : r ≠ s.scopes.size := by
        have := h.scopeCount
        omega
      rw [← h.scope hr]
      simp [Store.scope, Array.getD_eq_getD_getElem?, Array.getElem?_push, hne]
    · rw [withScope, List.getElem?_concat_length] at hr
      simp [Store.scope, Array.getD_eq_getD_getElem?, ← h.scopeCount, hvs e (Option.some.inj hr)]
    · rw [withScope, List.getElem?_eq_none (by simp; omega)] at hr
      cases hr
  functions := h.functions

theorem Keeps.addFunction {s : Store} (h : S.Keeps s) {f : Function}
    (hdict : S.Kept (.dict f.keywordDefaults)) (hscope : S.Kept (.scope f.snapshot)) :
    (S.withFunction f hdict hscope).Keeps { s with functions := s.functions.push f } where
  dictCount := h.dictCount
  dict := h.dict
  scopeCount := h.scopeCount
  scope := h.scope
  functions := by simp [withFunction, h.functions]

end Ledger

theorem Ledger.Covers.fresh {s : Store} (h : S.Covers s) (nextId : Nat) :
    S.Covers { s with nextId } :=
  ⟨h.known, h.keeps.congr rfl rfl rfl, h.builtins⟩

theorem Ledger.Covers.setLists {s : Store} (h : S.Covers s) {lists : Array (List Value)}
    (hlists : Known S lists) : S.Covers { s with lists } :=
  ⟨known_store.mpr ⟨hlists, (known_store.mp h.known).2⟩, h.keeps.congr rfl rfl rfl, h.builtins⟩

theorem Ledger.Covers.setIterators {s : Store} (h : S.Covers s) {iterators : Array Iteration}
    (hiterators : Known S iterators) : S.Covers { s with iterators } := by
  obtain ⟨hlists, hdicts, -, hrest⟩ := known_store.mp h.known
  exact ⟨known_store.mpr ⟨hlists, hdicts, hiterators, hrest⟩, h.keeps.congr rfl rfl rfl,
    h.builtins⟩

theorem Ledger.Covers.setBlocks {s : Store} (h : S.Covers s) {blocks : Array Block}
    (hblocks : Known S blocks) : S.Covers { s with blocks } := by
  obtain ⟨hlists, hdicts, hiterators, hfunctions, hscopes, -⟩ := known_store.mp h.known
  exact ⟨known_store.mpr ⟨hlists, hdicts, hiterators, hfunctions, hscopes, hblocks⟩,
    h.keeps.congr rfl rfl rfl, h.builtins⟩

theorem Ledger.Covers.setDict {s : Store} (h : S.Covers s) {ref : Nat}
    (href : S.Open (.dict ref)) {d : Dict} (hd : Known S d) :
    S.Covers { s with dicts := s.dicts.setIfInBounds ref d } := by
  obtain ⟨hlists, hdicts, hrest⟩ := known_store.mp h.known
  exact ⟨known_store.mpr ⟨hlists, known_setIfInBounds hdicts hd ref, hrest⟩,
    Keeps.setDict h.keeps href d, h.builtins⟩

theorem Ledger.Covers.setScope {s : Store} (h : S.Covers s) {ref : Nat}
    (href : S.Open (.scope ref)) {vs : Bindings} (hvs : Known S vs) :
    S.Covers { s with scopes := s.scopes.setIfInBounds ref vs } := by
  obtain ⟨hlists, hdicts, hiterators, hfunctions, hscopes, hblocks⟩ := known_store.mp h.known
  exact ⟨known_store.mpr ⟨hlists, hdicts, hiterators, hfunctions,
    known_setIfInBounds hscopes hvs ref, hblocks⟩, Keeps.setScope h.keeps href vs, h.builtins⟩

theorem Ledger.Covers.addDict {s : Store} (h : S.Covers s) {d : Dict} (hd : Known S d)
    {d? : Option Dict} (hkept : ∀ e ∈ d?, d = e) :
    (S.withDict d?).Covers { s with dicts := s.dicts.push d } := by
  obtain ⟨hlists, hdicts, hrest⟩ := known_store.mp h.known
  have hknown : Known S { s with dicts := s.dicts.push d } :=
    known_store.mpr ⟨hlists, known_push hdicts hd, hrest⟩
  exact ⟨hknown.mono (S.extends_withDict d?), Keeps.addDict h.keeps hkept, h.builtins⟩

theorem Ledger.Covers.addScope {s : Store} (h : S.Covers s) {vs : Bindings} (hvs : Known S vs)
    {vs? : Option Bindings} (hkept : ∀ us ∈ vs?, vs = us) :
    (S.withScope vs?).Covers { s with scopes := s.scopes.push vs } := by
  obtain ⟨hlists, hdicts, hiterators, hfunctions, hscopes, hblocks⟩ := known_store.mp h.known
  have hknown : Known S { s with scopes := s.scopes.push vs } :=
    known_store.mpr ⟨hlists, hdicts, hiterators, hfunctions, known_push hscopes hvs, hblocks⟩
  exact ⟨hknown.mono (S.extends_withScope vs?), Keeps.addScope h.keeps hkept, h.builtins⟩

theorem Ledger.Covers.addFunction {s : Store} (h : S.Covers s) {f : Function} (hf : Known S f)
    (hdict : S.Kept (.dict f.keywordDefaults)) (hscope : S.Kept (.scope f.snapshot)) :
    (S.withFunction f hdict hscope).Covers { s with functions := s.functions.push f } := by
  obtain ⟨hlists, hdicts, hiterators, hfunctions, hrest⟩ := known_store.mp h.known
  have hknown : Known S { s with functions := s.functions.push f } :=
    known_store.mpr ⟨hlists, hdicts, hiterators, known_push hfunctions hf, hrest⟩
  exact ⟨hknown.mono (S.extends_withFunction hdict hscope), Keeps.addFunction h.keeps hdict hscope,
    h.builtins⟩

theorem Known.vacate {s : Store} (h : Known S s) (ref : Nat) {b : Block} (hb : Known S b) :
    Known S (s.vacate ref b) := by
  unfold Store.vacate
  split
  · exact h.cells hb
  · exact hb

theorem Known.makeRoom {s : Store} (h : Known S s) (ref count : Nat) {b : Block}
    (hb : Known S b) : Known S (s.makeRoom ref count b) := by
  unfold Store.makeRoom
  split
  · exact (h.cells hb).drop count
  · exact h.vacate ref hb

/-- Other items for a list, and the same change to all blocks. -/
theorem Ledger.Covers.setList {s : Store} (h : S.Covers s) (ref : Nat) {items : List Value}
    (hitems : Known S items) {f : Block → Block} (hf : ∀ b, Known S b → Known S (f b)) :
    S.Covers { s with lists := s.lists.setIfInBounds ref items, blocks := s.blocks.map f } := by
  obtain ⟨hlists, -, -, -, -, hblocks⟩ := known_store.mp h.known
  exact (h.setLists (known_setIfInBounds hlists hitems ref)).setBlocks (known_mapArray hblocks hf)

end

/-! ## Operations on values -/

namespace Op

variable {S : Ledger} {α : Type} [HasReferences α]

@[grind .]
theorem safe_raise (kind : Fault.Kind) (message : String) : Safe S (raise kind message : Op α) :=
  safe_throw _

@[grind .]
theorem safe_typeError (message : String) : Safe S (typeError message : Op α) := safe_throw _

@[grind .]
theorem safe_valueError (message : String) : Safe S (valueError message : Op α) := safe_throw _

@[grind ←]
theorem safe_ofExcept {x : Except Failure α} (h : ∀ a, x = .ok a → Known S a) :
    Safe S (ofExcept x) := by
  cases x with
  | ok a => exact safe_pure (h a rfl)
  | error e => exact safe_throw e

@[grind .]
theorem safe_fresh : Safe S fresh :=
  safe_modifyGet fun _ hs => ⟨known_inert _, hs.fresh _⟩

/-! ### The store -/

@[grind .]
theorem safe_newFloat (x : Float) : Safe S (newFloat x) := by
  unfold newFloat
  grind

@[grind .]
theorem safe_newStr (text : String) : Safe S (newStr text) := by
  unfold newStr
  grind

@[grind ←]
theorem safe_newTuple {items : List Value} (h : Known S items) : Safe S (newTuple items) := by
  unfold newTuple
  grind

@[grind .]
theorem safe_newRange (r : Range) : Safe S (newRange r) := by
  unfold newRange
  grind

@[grind ←]
theorem safe_newSlice {start stop step : Value} (hstart : Known S start) (hstop : Known S stop)
    (hstep : Known S step) : Safe S (newSlice start stop step) := by
  unfold newSlice
  grind

@[grind ←]
theorem safe_newMethod {receiver : Value} (h : Known S receiver) (m : Method) :
    Safe S (newMethod receiver m) := by
  unfold newMethod
  grind

@[grind .]
theorem safe_newCode (c : Code) : Safe S (newCode c) := by
  unfold newCode
  grind

@[grind ←]
theorem safe_newList {items : List Value} (h : Known S items) : Safe S (newList items) :=
  safe_modifyGet fun _ hs =>
    ⟨known_atom trivial, hs.setLists (known_push (known_store.mp hs.known).1 h)⟩

@[grind ←]
theorem safe_newCursor {cursor : Cursor} (h : Known S cursor) : Safe S (newCursor cursor) :=
  safe_modifyGet fun _ hs =>
    ⟨known_inert _, hs.setIterators (known_push (known_store.mp hs.known).2.2.1 h)⟩

@[grind ←]
theorem safe_newIterator {cursor : Cursor} (h : Known S cursor) : Safe S (newIterator cursor) := by
  unfold newIterator
  grind

@[grind .]
theorem safe_items (ref : Nat) : Safe S (items ref) :=
  safe_get_bind fun _ hs => safe_pure (hs.known.items ref)

@[grind .]
theorem safe_dict (ref : Nat) : Safe S (dict ref) :=
  safe_get_bind fun _ hs => safe_pure (hs.known.dict ref)

@[grind .]
theorem safe_entries (ref : Nat) : Safe S (entries ref) :=
  safe_get_bind fun _ hs => safe_pure (hs.known.entries ref)

@[grind .]
theorem safe_iterator (ref : Nat) : Safe S (iterator ref) :=
  safe_get_bind fun _ hs => safe_pure (hs.known.iterator ref)

@[grind .]
theorem safe_scope (ref : Nat) : Safe S (scope ref) :=
  safe_get_bind fun _ hs => safe_pure (hs.known.scope ref)

@[grind .]
theorem safe_closure (ref : Nat) : Safe S (closure ref) :=
  safe_get_bind fun _ hs => safe_pure (hs.known.closure ref)

@[grind ←]
theorem safe_setItems (ref : Nat) {items : List Value} (h : Known S items) :
    Safe S (setItems ref items) :=
  safe_modify fun _ hs => hs.setList ref h fun _ hb => hs.known.makeRoom ref _ hb

@[grind ←]
theorem safe_moveItems (ref : Nat) {items : List Value} (h : Known S items) :
    Safe S (moveItems ref items) :=
  safe_modify fun _ hs => hs.setList ref h fun _ hb => hs.known.vacate ref hb

@[grind .]
theorem safe_blockOf (ref : Nat) : Safe S (blockOf ref) :=
  safe_modifyGet fun s hs => by
    split
    · exact ⟨known_inert _, hs⟩
    · have hblocks := (known_store.mp hs.known).2.2.2.2.2
      exact ⟨known_inert _, hs.setBlocks (known_push hblocks (known_block.mpr known_nil))⟩

@[grind .]
theorem safe_cells (block : Nat) : Safe S (cells block) :=
  safe_get_bind fun _ hs => safe_pure (hs.known.cells (hs.known.block block))

@[grind ←]
theorem safe_setCells (block : Nat) {values : List Value} (h : Known S values) :
    Safe S (setCells block values) :=
  safe_modify fun s hs => by
    obtain ⟨hlists, -, -, -, -, hblocks⟩ := known_store.mp hs.known
    have hcells := hs.known.cells (hs.known.block block)
    have hfilled := (known_append _ _).mpr ⟨h, hcells.drop values.length⟩
    dsimp only
    split
    · refine (hs.setLists (known_setIfInBounds hlists (hfilled.take _) _)).setBlocks ?_
      exact known_setIfInBounds hblocks (hfilled.drop _) block
    · exact hs.setBlocks (known_setIfInBounds hblocks hfilled block)

@[grind ←]
theorem safe_setDict {ref : Nat} (href : Known S (Value.dict ref)) {d : Dict} (h : Known S d) :
    Safe S (setDict ref d) :=
  safe_modify fun _ hs => hs.setDict (known_dictRef.mp href) h

@[grind ←]
theorem safe_setScope {ref : Nat} (href : Known S (Locals.own ref)) {vs : Bindings}
    (h : Known S vs) : Safe S (setScope ref vs) :=
  safe_modify fun _ hs => hs.setScope (known_own.mp href) h

@[grind ←]
theorem safe_setCursor (ref : Nat) {cursor : Cursor} (h : Known S cursor) :
    Safe S (setCursor ref cursor) :=
  safe_modify fun _ hs =>
    hs.setIterators (known_modify (known_store.mp hs.known).2.2.1 (fun _ _ => h) ref)

@[grind .]
theorem safe_setDone (ref : Nat) : Safe S (setDone ref) :=
  safe_modify fun _ hs =>
    hs.setIterators (known_modify (known_store.mp hs.known).2.2.1
      (f := ({ · with done := true })) (fun _ h => h) ref)

@[grind .]
theorem safe_repr (v : Value) : Safe S (repr v) := by
  unfold repr
  grind

@[grind .]
theorem safe_str (v : Value) : Safe S (str v) := by
  unfold str
  grind

@[grind .]
theorem safe_newStrs (texts : List String) : Safe S (newStrs texts) :=
  safe_mapM (fun text _ => safe_newStr text) (known_list_inert texts)

/-! ### Dicts -/

@[grind .]
theorem safe_hash (v : Value) : Safe S (hash v) :=
  safe_ofExcept fun key _ => known_inert key

@[grind .]
theorem safe_dictGet? (ref : Nat) (key : Value) : Safe S (dictGet? ref key) := by
  unfold dictGet?
  refine (safe_hash key).bind fun h _ => (safe_dict ref).bind fun d hd => safe_pure ?_
  exact known_option.mpr fun v hv => hd.of_find? hv

@[grind ←]
theorem safe_dictSet {ref : Nat} (href : Known S (Value.dict ref)) {key value : Value}
    (hkey : Known S key) (hvalue : Known S value) : Safe S (dictSet ref key value) := by
  unfold dictSet
  grind

@[grind ←]
theorem safe_dictPop? {ref : Nat} (href : Known S (Value.dict ref)) (key : Value) :
    Safe S (dictPop? ref key) := by
  unfold dictPop?
  refine (safe_hash key).bind fun h _ => (safe_dict ref).bind fun d hd => ?_
  split
  next v rest hrest =>
    obtain ⟨hv, hrest⟩ := (known_pair v rest).mp (hd.of_remove? hrest)
    grind
  next => grind

@[grind .]
theorem safe_missingKey (key : Value) : Safe S (missingKey key : Op α) := by
  unfold missingKey
  grind

@[grind ←]
theorem safe_dictDelete {ref : Nat} (href : Known S (Value.dict ref)) (key : Value) :
    Safe S (dictDelete ref key) := by
  unfold dictDelete
  grind

@[grind ←]
theorem safe_dictClear {ref : Nat} (href : Known S (Value.dict ref)) : Safe S (dictClear ref) :=
  safe_setDict href known_empty

@[grind ←]
theorem safe_dictSetDefault {ref : Nat} (href : Known S (Value.dict ref)) {key fallback : Value}
    (hkey : Known S key) (hfallback : Known S fallback) :
    Safe S (dictSetDefault ref key fallback) := by
  unfold dictSetDefault
  grind

@[grind ←]
theorem safe_dictMerge {ref : Nat} (href : Known S (Value.dict ref)) {entries : List Entry}
    (h : Known S entries) : Safe S (dictMerge ref entries) := by
  unfold dictMerge
  grind

@[grind .]
theorem safe_dictKeys (ref : Nat) : Safe S (dictKeys ref) := by
  unfold dictKeys
  grind

@[grind .]
theorem safe_dictValues (ref : Nat) : Safe S (dictValues ref) := by
  unfold dictValues
  grind

@[grind .]
theorem safe_dictItems (ref : Nat) : Safe S (dictItems ref) := by
  unfold dictItems
  refine (safe_entries ref).bind fun es hes => ?_
  refine (safe_mapM (fun e he => safe_newTuple ?_) hes).bind fun pairs hpairs => safe_newList hpairs
  grind

/-! ### Equality and order -/

@[grind .]
theorem safe_equals (a b : Value) : Safe S (equals a b) := by
  unfold equals
  grind

@[grind .]
theorem safe_identical (a b : Value) : Safe S (identical a b) := by
  unfold identical
  grind

@[grind .]
theorem safe_compare (c : Comparison) (a b : Value) : Safe S (compare c a b) := by
  unfold compare
  grind

@[grind .]
theorem safe_less (a b : Value) : Safe S (less a b) := safe_compare .less a b

@[grind .]
theorem safe_indexOf? (items : List Value) (v : Value) : Safe S (indexOf? items v) := by
  unfold indexOf?
  refine safe_get_bind fun s _ => safe_pure (known_option.mpr fun i _ => known_inert i)

@[grind .]
theorem safe_countOf (items : List Value) (v : Value) : Safe S (countOf items v) := by
  unfold countOf
  grind

/-! ### Operators -/

@[grind .]
theorem safe_zeroDivision (message : String) : Safe S (zeroDivision message : Op α) :=
  safe_throw _

@[grind .]
theorem safe_intOp (o : BinaryOperator) (a b : Int64) : Safe S (intOp o a b) := by
  unfold intOp
  grind

@[grind .]
theorem safe_unsupported (symbol : String) (a b : Value) :
    Safe S (unsupported symbol a b : Op α) := by
  unfold unsupported
  grind

@[grind .]
theorem safe_floatOp (o : BinaryOperator) (a b : Float) (left right : Value) :
    Safe S (floatOp o a b left right) := by
  unfold floatOp
  grind

@[grind ←]
theorem safe_repeatList {xs : List α} (h : Known S xs) (times : Int64) (bytes : Nat) :
    Safe S (repeatList xs times bytes) := by
  unfold repeatList
  extract_lets n
  split
  · exact safe_pure known_nil
  · split
    · exact safe_throw _
    · refine safe_pure (h.subset fun a ha => ?_)
      obtain ⟨l, hl, ha⟩ := List.mem_flatten.mp ha
      rwa [List.eq_of_mem_replicate hl] at ha

@[grind →]
theorem known_repeated? {a b v : Value} {n : Int64} (h : binary.repeated? a b = some (v, n))
    (ha : Known S a) (hb : Known S b) : Known S v := by
  unfold binary.repeated? at h
  split at h
  case h_7 => cases h
  all_goals
    obtain ⟨_, -, heq⟩ := Option.map_eq_some_iff.mp h
    cases heq
    assumption

@[grind .]
theorem safe_negate (v : Value) : Safe S (negate v) := by
  unfold negate
  grind

@[grind .]
theorem safe_positive (v : Value) : Safe S (positive v) := by
  unfold positive
  grind

@[grind .]
theorem safe_invert (v : Value) : Safe S (invert v) := by
  unfold invert
  grind

@[grind .]
theorem safe_truthy (v : Value) : Safe S (truthy v) := by
  unfold truthy
  grind

@[grind .]
theorem safe_asStr (v : Value) : Safe S (asStr v) := by
  unfold asStr
  grind

@[grind .]
theorem safe_length (v : Value) : Safe S (length v) := by
  unfold length
  grind

/-! ### Subscripts -/

@[grind ←]
theorem safe_itemAt {items : List Value} (h : Known S items) (key : Value) (what : String) :
    Safe S (itemAt items key what) := by
  unfold itemAt
  grind

@[grind ←]
theorem safe_getItem {container : Value} (h : Known S container) (key : Value) :
    Safe S (getItem container key) := by
  unfold getItem
  split
  all_goals grind

@[grind ←]
theorem safe_delItem {container : Value} (h : Known S container) (key : Value) :
    Safe S (delItem container key) := by
  unfold delItem
  grind

@[grind ←]
theorem safe_getMethod {v : Value} (h : Known S v) (name : String) : Safe S (getMethod v name) := by
  unfold getMethod
  grind

@[grind ←]
theorem safe_cursorOf {v : Value} (h : Known S v) : Safe S (cursorOf v) := by
  unfold cursorOf
  grind

@[grind ←]
theorem safe_iterate {v : Value} (h : Known S v) : Safe S (iterate v) := by
  unfold iterate
  grind

@[grind ←]
theorem safe_advance (ref : Nat) {cursor : Cursor} (h : Known S cursor) :
    Safe S (advance ref cursor) := by
  unfold advance
  split
  all_goals grind

@[grind .]
theorem safe_format (v : Value) (text : String) : Safe S (format v text) := by
  unfold format
  grind

/-! ### Constants and arguments -/

@[grind ←]
theorem Safe.labelled {x : Op α} (hx : Safe S x) (label : String) :
    Safe S (labelled label x) :=
  hx.handle fun _ => safe_throw _

mutual

theorem safe_ofConst : (k : Const) → Safe S (ofConst k)
  | .tuple ks => by
      rw [ofConst]
      exact (safe_ofConsts ks).bind fun items hitems => safe_newTuple hitems
  | .none | .bool _ | .int _ | .float _ | .str _ | .stray _ | .code _ | .noCode | .array _
  | .foreign _ => by
      grind [ofConst]

theorem safe_ofConsts : (ks : List Const) → Safe S (ofConsts ks)
  | [] => safe_pure known_nil
  | k :: ks => by
      rw [ofConsts]
      refine (safe_ofConst k).bind fun v hv => (safe_ofConsts ks).bind fun vs hvs => ?_
      exact safe_pure ((known_cons v vs).mpr ⟨hv, hvs⟩)

end

/-! ## Operations that make something -/

/-- A new dict may change, unless it is to be kept. -/
theorem tracksTo_addDict {d : Dict} (hd : Known S d) :
    TracksTo S (fun T ref => T.Open (.dict ref)) (addDict d) :=
  tracksTo_modifyGet fun s hs => by
    refine ⟨_, S.extends_withDict none, hs.addDict hd nofun, ?_⟩
    have hcount : s.dicts.size = S.dicts.length := hs.keeps.dictCount
    simp [Ledger.Open, Ledger.withDict, hcount]

theorem tracksTo_addDict_kept {d : Dict} (hd : Known S d) :
    TracksTo S (fun T ref => T.Kept (.dict ref)) (addDict d) :=
  tracksTo_modifyGet fun s hs => by
    refine ⟨_, S.extends_withDict (some d), hs.addDict hd (by simp), ?_⟩
    have hcount : s.dicts.size = S.dicts.length := hs.keeps.dictCount
    simp [Ledger.Kept, Ledger.withDict, hcount]

theorem tracksTo_newScope {vs : Bindings} (hvs : Known S vs) :
    TracksTo S (fun T ref => T.Open (.scope ref)) (newScope vs) :=
  tracksTo_modifyGet fun s hs => by
    refine ⟨_, S.extends_withScope none, hs.addScope hvs nofun, ?_⟩
    have hcount : s.scopes.size = S.scopes.length := hs.keeps.scopeCount
    simp [Ledger.Open, Ledger.withScope, hcount]

theorem tracksTo_newScope_kept {vs : Bindings} (hvs : Known S vs) :
    TracksTo S (fun T ref => T.Kept (.scope ref)) (newScope vs) :=
  tracksTo_modifyGet fun s hs => by
    refine ⟨_, S.extends_withScope (some vs), hs.addScope hvs (by simp), ?_⟩
    have hcount : s.scopes.size = S.scopes.length := hs.keeps.scopeCount
    simp [Ledger.Kept, Ledger.withScope, hcount]

/-- A new function comes with a dict and a scope that nothing else refers to. -/
theorem tracks_newFunction (code : Code) {defaults : List Value} (hdefaults : Known S defaults)
    {keywordDefaults? : Option Nat} (hdict : ∀ ref ∈ keywordDefaults?, S.Kept (.dict ref))
    {snapshot : Nat} (hscope : S.Kept (.scope snapshot)) :
    Tracks S (newFunction code defaults keywordDefaults? snapshot) := by
  have hown : TracksTo S (fun T ref => T.Kept (.dict ref))
      (keywordDefaults?.elim (addDict {}) pure : Op Nat) := by
    cases keywordDefaults? with
    | none => exact tracksTo_addDict_kept known_empty
    | some ref => exact tracksTo_pure (hdict ref rfl)
  refine hown.bind fun T ref hST href => tracksTo_modifyGet fun s hs => ?_
  have hfunction : Known T (⟨code, defaults, ref, snapshot⟩ : Function) :=
    known_function.mpr (hdefaults.mono hST)
  have hscope' := hST.kept_of_kept hscope
  exact ⟨_, T.extends_withFunction href hscope', hs.addFunction hfunction href hscope',
    known_atom trivial⟩

@[grind ←]
theorem tracks_newDict {d : Dict} (hd : Known S d) : Tracks S (newDict d) :=
  (tracksTo_addDict hd).bind fun _ _ _ href => tracks_pure (known_dictRef.mpr href)

@[grind .]
theorem tracks_dictCopy (ref : Nat) : Tracks S (dictCopy ref) :=
  (safe_dict ref).andThen fun _ hd => tracks_newDict hd

@[grind .]
theorem tracks_dictUnion (a b : Nat) : Tracks S (dictUnion a b) :=
  (safe_dict a).andThen fun _ hd => (safe_entries b).andThen fun _ hes =>
    tracks_newDict (hd.setAll hes)

@[grind ←]
theorem tracks_dictOfPairs {pairs : List (Value × Value)} (h : Known S pairs) :
    Tracks S (dictOfPairs pairs) := by
  refine (safe_foldlM ?_ h known_empty).andThen fun d hd => tracks_newDict hd
  rintro d ⟨key, value⟩ hd hpair
  grind

@[grind ←]
theorem tracks_binary (o : BinaryOperator) {a b : Value} (ha : Known S a) (hb : Known S b) :
    Tracks S (binary o a b) := by
  unfold binary
  repeat' split
  all_goals grind

theorem tracks_toValue {slot : Slot} (h : Known S slot) : Tracks S slot.toValue := by
  unfold Slot.toValue
  split
  · exact tracks_pure h
  · exact (safe_newTuple h).tracks
  · refine Safe.andThen (safe_foldlM ?_ h known_empty) fun d hd => tracks_newDict hd
    rintro d ⟨name, v⟩ hd hpair
    grind

theorem tracks_bind {c : Call} (h : Known S c) : Tracks S c.bind := by
  have hbound {bound : List (String × Slot)} (hplan : c.plan = .ok bound) :=
    Call.known_plan h hplan
  refine Safe.andThen (safe_ofExcept fun _ => hbound) fun slots hslots => ?_
  refine Tracks.bind (Tracks.mapM ?_ hslots) fun T bound hST hbound => tracks_pure ?_
  · rintro T ⟨name, slot⟩ hST hslot
    refine (tracks_toValue ((known_pair _ _).mp hslot).2).bind fun U v _ hv => tracks_pure ?_
    exact (known_pair name v).mpr ⟨known_inert name, hv⟩
  · have hsnapshot := (known_closure.mp (known_call.mp h).1).2.2
    exact Known.setNames (hsnapshot.mono hST) hbound

/-- The scope of a new frame may change. -/
theorem tracksTo_makeScope {c : Call} (h : Known S c) :
    TracksTo S (fun T scope => T.Open (.scope scope)) c.makeScope :=
  TracksTo.bind (tracks_bind h) fun _ _ _ hvs => tracksTo_newScope hvs

end Op

end Wordcode
