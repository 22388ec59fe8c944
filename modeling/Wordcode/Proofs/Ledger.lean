import Wordcode.Machine
import Wordcode.Proofs.Sequence
import Mathlib

namespace Wordcode

/-! # Ledgers

Functions have dicts with defaults and scopes with variables that no value refers to, and so have
frames. A ledger says what is in them. Everything else may change: a ledger only knows that it is
there. Ledgers only grow, because functions and frames are made but never removed.

* `Occurs` says that a reference is part of some data: of a value, of the store, of a frame.
* `Known` data refer only to what a ledger leaves open.
* `Ledger.Covers` is what a ledger says about a state.
-/

/-! ## Occurrences -/

/-- A reference to something that a program can change: to a dict, or to the variables of a
frame. -/
inductive Reference
  | dict (ref : Nat)
  | scope (ref : Nat)
  deriving DecidableEq

/-- A reference is a part of a value: it is the value itself, or a part of an item. What a function
refers to is out of reach. -/
inductive Value.Occurs : Reference → Value → Prop
  | dict {ref : Nat} : Occurs (.dict ref) (.dict ref)
  | item {r : Reference} {items : List Value} {n : Nat} {v : Value} :
    v ∈ items → Occurs r v → Occurs r (.tuple items n)
  | start {r : Reference} {a b s : Value} {n : Nat} : Occurs r a → Occurs r (.slice a b s n)
  | stop {r : Reference} {a b s : Value} {n : Nat} : Occurs r b → Occurs r (.slice a b s n)
  | step {r : Reference} {a b s : Value} {n : Nat} : Occurs r s → Occurs r (.slice a b s n)
  | receiver {r : Reference} {v : Value} {m : Method} {n : Nat} :
    Occurs r v → Occurs r (.method v m n)

/-- Data that references may be parts of. -/
class HasReferences (α : Type) where
  Occurs : Reference → α → Prop

export HasReferences (Occurs)

/-- Data without references. -/
class Inert (α : Type) : Type

section

variable {α β : Type} [HasReferences α] [HasReferences β]

instance [Inert α] : HasReferences α := ⟨fun _ _ => False⟩
instance : Inert Unit := ⟨⟩
instance : Inert Bool := ⟨⟩
instance : Inert Nat := ⟨⟩
instance : Inert Int := ⟨⟩
instance : Inert Int64 := ⟨⟩
instance : Inert Float := ⟨⟩
instance : Inert Char := ⟨⟩
instance : Inert String := ⟨⟩
instance : Inert HashKey := ⟨⟩
instance : Inert Spec := ⟨⟩
instance : Inert Code := ⟨⟩
instance : Inert Const := ⟨⟩
instance : Inert Listing := ⟨⟩
instance : Inert BinaryOperator := ⟨⟩
instance : Inert Comparison := ⟨⟩

instance : HasReferences Value := ⟨Value.Occurs⟩
instance : HasReferences (List α) := ⟨fun r l => ∃ a ∈ l, Occurs r a⟩
instance : HasReferences (Array α) := ⟨fun r l => ∃ a ∈ l.toList, Occurs r a⟩
instance : HasReferences (Option α) := ⟨fun r o => ∃ a ∈ o, Occurs r a⟩
instance : HasReferences (α × β) := ⟨fun r p => Occurs r p.1 ∨ Occurs r p.2⟩
instance : HasReferences Entry := ⟨fun r e => Occurs r e.key ∨ Occurs r e.value⟩
instance : HasReferences Dict := ⟨fun r d => Occurs r d.entries⟩

instance : HasReferences Cursor where
  Occurs r
    | .items _ rest => Occurs r rest
    | .map f _ => Occurs r f
    | .filter f? _ => Occurs r f?
    | .chars _ | .list .. | .range .. | .keys .. | .enumerate .. | .zip _ => False

instance : HasReferences Iteration := ⟨fun r it => Occurs r it.cursor⟩
instance : HasReferences Block := ⟨fun r b => Occurs r b.rest⟩
instance : HasReferences Function := ⟨fun r f => Occurs r f.defaults⟩

instance : HasReferences Store where
  Occurs r s :=
    Occurs r s.lists ∨ Occurs r s.dicts ∨ Occurs r s.iterators ∨ Occurs r s.functions ∨
      Occurs r s.scopes ∨ Occurs r s.blocks

instance : HasReferences Loaded := ⟨fun r l => Occurs r l.constants⟩

instance : HasReferences World where
  Occurs r w :=
    Occurs r w.store ∨ Occurs r w.globals ∨ Occurs r w.builtins ∨ Occurs r w.loaded

instance : HasReferences Locals where
  Occurs r
    | .own scope => r = .scope scope
    | .globals => False

instance : HasReferences Frame where
  Occurs r f := Occurs r f.stack ∨ Occurs r f.locals ∨ Occurs r f.code

instance : HasReferences Closure where
  Occurs r f := Occurs r f.defaults ∨ Occurs r f.keywordDefaults ∨ Occurs r f.snapshot

instance : HasReferences Slot where
  Occurs r
    | .value v => Occurs r v
    | .rest vs => Occurs r vs
    | .keywords es => Occurs r es

instance : HasReferences Call where
  Occurs r f := Occurs r f.function ∨ Occurs r f.arguments ∨ Occurs r f.keywords

instance : HasReferences Exec.SortOptions := ⟨fun r o => Occurs r o.key?⟩

instance : HasReferences Flow where
  Occurs r
    | .leave v => Occurs r v
    | .next | .jump _ => False

end

/-! ## Ledgers -/

/-- What must not change: the contents of some dicts and scopes, all functions, and the builtins. A
dict or scope without contents may change. -/
structure Ledger where
  dicts : List (Option Dict)
  scopes : List (Option Bindings)
  functions : List Function
  builtins : Bindings
  /-- What a function refers to is kept. -/
  kept : ∀ f ∈ functions, (∃ d, dicts[f.keywordDefaults]? = some (some d)) ∧
    ∃ vs, scopes[f.snapshot]? = some (some vs)

namespace Ledger

/-- What may change. -/
def Open (S : Ledger) : Reference → Prop
  | .dict ref => S.dicts[ref]? = some none
  | .scope ref => S.scopes[ref]? = some none

/-- What must not change. -/
def Kept (S : Ledger) : Reference → Prop
  | .dict ref => ∃ d, S.dicts[ref]? = some (some d)
  | .scope ref => ∃ vs, S.scopes[ref]? = some (some vs)

/-- A later ledger keeps everything that an earlier one has. -/
structure Extends (S T : Ledger) : Prop where
  dicts : S.dicts <+: T.dicts
  scopes : S.scopes <+: T.scopes
  functions : S.functions <+: T.functions
  builtins : T.builtins = S.builtins

/-- A ledger keeps what it has. -/
theorem Extends.refl (S : Ledger) : S.Extends S :=
  ⟨List.prefix_rfl, List.prefix_rfl, List.prefix_rfl, rfl⟩

/-- Keeping is transitive. -/
theorem Extends.trans {S T U : Ledger} (h : S.Extends T) (h' : T.Extends U) : S.Extends U :=
  ⟨h.dicts.trans h'.dicts, h.scopes.trans h'.scopes, h.functions.trans h'.functions,
    h'.builtins.trans h.builtins⟩

/-- What an earlier list has at a place, a later one has there. -/
theorem getElem?_of_isPrefix {α : Type} {l l' : List α} (h : l <+: l') {i : Nat} {a : α}
    (ha : l[i]? = some a) : l'[i]? = some a := by
  obtain ⟨more, rfl⟩ := h
  exact List.getElem?_append_left (List.getElem?_eq_some_iff.mp ha).1 ▸ ha

/-- What may change still may. -/
theorem Extends.open_of_open {S T : Ledger} (h : S.Extends T) {r : Reference} (hr : S.Open r) :
    T.Open r := by
  cases r with
  | dict ref => exact getElem?_of_isPrefix h.dicts hr
  | scope ref => exact getElem?_of_isPrefix h.scopes hr

/-- What must not change still must not. -/
theorem Extends.kept_of_kept {S T : Ledger} (h : S.Extends T) {r : Reference} (hr : S.Kept r) :
    T.Kept r := by
  cases r with
  | dict ref =>
      obtain ⟨d, hd⟩ := hr
      exact ⟨d, getElem?_of_isPrefix h.dicts hd⟩
  | scope ref =>
      obtain ⟨vs, hvs⟩ := hr
      exact ⟨vs, getElem?_of_isPrefix h.scopes hvs⟩

/-- The ledger with another dict, which it keeps if its contents are given. -/
def withDict (S : Ledger) (d? : Option Dict) : Ledger where
  dicts := S.dicts ++ [d?]
  scopes := S.scopes
  functions := S.functions
  builtins := S.builtins
  kept f hf := by
    obtain ⟨⟨d, hd⟩, hvs⟩ := S.kept f hf
    exact ⟨⟨d, getElem?_of_isPrefix (List.prefix_append _ _) hd⟩, hvs⟩

/-- The ledger with another scope, which it keeps if its contents are given. -/
def withScope (S : Ledger) (vs? : Option Bindings) : Ledger where
  dicts := S.dicts
  scopes := S.scopes ++ [vs?]
  functions := S.functions
  builtins := S.builtins
  kept f hf := by
    obtain ⟨hd, vs, hvs⟩ := S.kept f hf
    exact ⟨hd, vs, getElem?_of_isPrefix (List.prefix_append _ _) hvs⟩

/-- The ledger with another function. -/
def withFunction (S : Ledger) (f : Function) (hdict : S.Kept (.dict f.keywordDefaults))
    (hscope : S.Kept (.scope f.snapshot)) : Ledger where
  dicts := S.dicts
  scopes := S.scopes
  functions := S.functions ++ [f]
  builtins := S.builtins
  kept g hg := by
    rcases List.mem_append.mp hg with hg | hg
    · exact S.kept g hg
    · obtain rfl := List.mem_singleton.mp hg
      exact ⟨hdict, hscope⟩

/-- Another dict leaves what was there. -/
theorem extends_withDict (S : Ledger) (d? : Option Dict) : S.Extends (S.withDict d?) :=
  ⟨List.prefix_append _ _, List.prefix_rfl, List.prefix_rfl, rfl⟩

/-- So does another scope. -/
theorem extends_withScope (S : Ledger) (vs? : Option Bindings) : S.Extends (S.withScope vs?) :=
  ⟨List.prefix_rfl, List.prefix_append _ _, List.prefix_rfl, rfl⟩

/-- So does another function. -/
theorem extends_withFunction (S : Ledger) {f : Function}
    (hdict : S.Kept (.dict f.keywordDefaults)) (hscope : S.Kept (.scope f.snapshot)) :
    S.Extends (S.withFunction f hdict hscope) :=
  ⟨List.prefix_rfl, List.prefix_rfl, List.prefix_append _ _, rfl⟩

end Ledger

/-- Data that refer only to what a ledger leaves open. -/
def Known {α : Type} [HasReferences α] (S : Ledger) (a : α) : Prop := ∀ r, Occurs r a → S.Open r

section

variable {α β : Type} [HasReferences α] [HasReferences β] {S T : Ledger}

/-- What is known stays known. -/
theorem Known.mono {a : α} (h : Known S a) (hS : S.Extends T) : Known T a :=
  fun r hoccurs => hS.open_of_open (h r hoccurs)

/-- Data without references are known to every ledger. -/
@[simp, grind .]
theorem known_inert {γ : Type} [Inert γ] (a : γ) : Known S a := nofun

/-- A list is known if its elements are. -/
theorem known_list {l : List α} : Known S l ↔ ∀ a ∈ l, Known S a := by
  constructor
  · exact fun h a ha r hoccurs => h r ⟨a, ha, hoccurs⟩
  · rintro h r ⟨a, ha, hoccurs⟩
    exact h a ha r hoccurs

/-- So is an array. -/
theorem known_array {l : Array α} : Known S l ↔ ∀ a ∈ l, Known S a := by
  simp only [← Array.mem_toList_iff]
  exact known_list

@[simp, grind =]
theorem known_toList {l : Array α} : Known S l.toList ↔ Known S l := Iff.rfl

/-- So is an optional value. -/
theorem known_option {o : Option α} : Known S o ↔ ∀ a ∈ o, Known S a := by
  constructor
  · exact fun h a ha r hoccurs => h r ⟨a, ha, hoccurs⟩
  · rintro h r ⟨a, ha, hoccurs⟩
    exact h a ha r hoccurs

@[simp, grind =]
theorem known_some (a : α) : Known S (some a) ↔ Known S a := by
  simp [known_option]

@[simp, grind .]
theorem known_none : Known S (none : Option α) := by
  simp [known_option]

@[simp, grind .]
theorem known_nil : Known S ([] : List α) := by
  simp [known_list]

@[simp, grind =]
theorem known_cons (a : α) (l : List α) : Known S (a :: l) ↔ Known S a ∧ Known S l := by
  simp [known_list]

@[simp, grind =]
theorem known_append (l l' : List α) : Known S (l ++ l') ↔ Known S l ∧ Known S l' := by
  simp [known_list, or_imp, forall_and]

@[simp, grind =]
theorem known_pair (a : α) (b : β) : Known S (a, b) ↔ Known S a ∧ Known S b := by
  simp only [Known, Occurs, or_imp, forall_and]

/-- Part of a list is known if the list is. -/
theorem Known.subset {l l' : List α} (h : Known S l) (hl : l' ⊆ l) : Known S l' :=
  known_list.mpr fun a ha => known_list.mp h a (hl ha)

@[grind .]
theorem known_option_inert {γ : Type} [Inert γ] (o : Option γ) : Known S o :=
  known_option.mpr fun a _ => known_inert a

/-- A list without references. -/
@[grind .]
theorem known_list_inert {γ : Type} [Inert γ] (l : List γ) : Known S l :=
  known_list.mpr fun a _ => known_inert a

end

section

variable {S : Ledger}

/-- A value that has no parts and is no dict. -/
@[grind]
def Value.IsAtom : Value → Prop
  | .tuple .. | .slice .. | .dict _ | .method .. => False
  | .none | .bool _ | .int _ | .float .. | .str .. | .range .. | .list _ | .iterator _
  | .function _ | .code .. | .builtin _ | .host _ => True

/-- Values without references are known. -/
@[grind ←]
theorem known_atom {v : Value} (h : v.IsAtom) : Known S v := by
  rintro r (_ | _ | _ | _ | _ | _) <;> cases h

/-- A dict is known as long as it may change. -/
theorem known_dictRef {ref : Nat} : Known S (Value.dict ref) ↔ S.Open (.dict ref) := by
  constructor
  · exact fun h => h _ .dict
  · rintro h r (_ | _)
    exact h

@[simp, grind =]
theorem known_tuple {items : List Value} {n : Nat} :
    Known S (Value.tuple items n) ↔ Known S items := by
  constructor
  · rintro h r ⟨v, hv, hoccurs⟩
    exact h r (.item hv hoccurs)
  · rintro h r (_ | ⟨hv, hoccurs⟩)
    exact h r ⟨_, hv, hoccurs⟩

@[simp, grind =]
theorem known_slice {a b s : Value} {n : Nat} :
    Known S (Value.slice a b s n) ↔ Known S a ∧ Known S b ∧ Known S s := by
  constructor
  · exact fun h => ⟨fun r ho => h r (.start ho), fun r ho => h r (.stop ho),
      fun r ho => h r (.step ho)⟩
  · rintro ⟨ha, hb, hs⟩ r (_ | _ | ho | ho | ho)
    · exact ha r ho
    · exact hb r ho
    · exact hs r ho

@[simp, grind =]
theorem known_method {v : Value} {m : Method} {n : Nat} :
    Known S (Value.method v m n) ↔ Known S v := by
  constructor
  · exact fun h r ho => h r (.receiver ho)
  · rintro h r (_ | _ | _ | _ | _ | ho)
    exact h r ho

@[simp, grind =]
theorem known_closure {f : Closure} : Known S f ↔
    Known S f.defaults ∧ Known S f.keywordDefaults ∧ Known S f.snapshot := by
  simp only [Known, Occurs, or_imp, forall_and]

@[simp, grind =]
theorem known_entry {e : Entry} : Known S e ↔ Known S e.key ∧ Known S e.value := by
  simp only [Known, Occurs, or_imp, forall_and]

/-- A store is known if all that it has is. -/
@[simp, grind =]
theorem known_store {s : Store} :
    Known S s ↔ Known S s.lists ∧ Known S s.dicts ∧ Known S s.iterators ∧ Known S s.functions ∧
      Known S s.scopes ∧ Known S s.blocks := by
  simp only [Known, Occurs, or_imp, forall_and]

/-- A world is known if its store and its variables are. -/
@[simp, grind =]
theorem known_world {w : World} :
    Known S w ↔
      Known S w.store ∧ Known S w.globals ∧ Known S w.builtins ∧ Known S w.loaded := by
  simp only [Known, Occurs, or_imp, forall_and]

/-- A frame is known if its operands, its variables and its constants are. -/
@[simp, grind =]
theorem known_frame {f : Frame} :
    Known S f ↔ Known S f.stack ∧ Known S f.locals ∧ Known S f.code := by
  simp only [Known, Occurs, or_imp, forall_and]

@[simp, grind .]
theorem known_globals : Known S Locals.globals := nofun

/-- The scope of a frame is known as long as it may change. -/
theorem known_own {scope : Nat} : Known S (Locals.own scope) ↔ S.Open (.scope scope) := by
  constructor
  · exact fun h => h _ rfl
  · rintro h r rfl
    exact h

@[simp, grind =]
theorem known_sortOptions {o : Exec.SortOptions} : Known S o ↔ Known S o.key? := Iff.rfl

@[simp, grind =]
theorem known_slot_value {v : Value} : Known S (Slot.value v) ↔ Known S v := Iff.rfl

@[simp, grind =]
theorem known_slot_rest {vs : List Value} : Known S (Slot.rest vs) ↔ Known S vs := Iff.rfl

@[simp, grind =]
theorem known_slot_keywords {es : Bindings} : Known S (Slot.keywords es) ↔ Known S es := Iff.rfl

@[simp, grind =]
theorem known_call {c : Call} :
    Known S c ↔ Known S c.function ∧ Known S c.arguments ∧ Known S c.keywords := by
  simp only [Known, Occurs, or_imp, forall_and]

@[simp, grind =]
theorem known_loaded {l : Loaded} : Known S l ↔ Known S l.constants := Iff.rfl

@[simp, grind .]
theorem known_next : Known S Flow.next := nofun

@[simp, grind .]
theorem known_jump (target : Nat) : Known S (Flow.jump target) := nofun

@[simp, grind =]
theorem known_leave {v : Value} : Known S (Flow.leave v) ↔ Known S v := Iff.rfl

/-! ### The store -/

@[simp, grind =]
theorem known_dict {d : Dict} : Known S d ↔ Known S d.entries := Iff.rfl

@[grind .]
theorem known_empty : Known S ({} : Dict) := known_nil

@[simp, grind =]
theorem known_function {f : Function} : Known S f ↔ Known S f.defaults := Iff.rfl

@[simp, grind =]
theorem known_block {b : Block} : Known S b ↔ Known S b.rest := Iff.rfl

@[simp, grind =]
theorem known_iteration {it : Iteration} : Known S it ↔ Known S it.cursor := Iff.rfl

@[simp, grind =]
theorem known_cursor_items {kind : String} {rest : List Value} :
    Known S (Cursor.items kind rest) ↔ Known S rest := Iff.rfl

@[simp, grind =]
theorem known_cursor_map {f : Value} {sources : List Nat} :
    Known S (Cursor.map f sources) ↔ Known S f := Iff.rfl

@[simp, grind =]
theorem known_cursor_filter {f? : Option Value} {source : Nat} :
    Known S (Cursor.filter f? source) ↔ Known S f? := Iff.rfl

/-- A cursor that holds no values. -/
@[grind]
def Cursor.IsAtom : Cursor → Prop
  | .items .. | .map .. | .filter .. => False
  | .chars _ | .list .. | .range .. | .keys .. | .enumerate .. | .zip _ => True

@[grind ←]
theorem known_cursor_atom {cursor : Cursor} (h : cursor.IsAtom) : Known S cursor := by
  intro r hoccurs
  cases cursor with
  | items | map | filter => cases h
  | chars | list | range | keys | enumerate | zip => cases hoccurs

/-- What is found in a known table is known. -/
theorem Known.getD_array {α : Type} [HasReferences α] {xs : Array α} (h : Known S xs) (i : Nat)
    {a : α} (ha : Known S a) : Known S (xs.getD i a) := by
  rw [Array.getD_eq_getD_getElem?]
  cases hget : xs[i]? with
  | none => exact ha
  | some b => exact known_array.mp h b (Array.mem_of_getElem? hget)

/-- The items of a list in a known store are known. -/
theorem Known.items {s : Store} (h : Known S s) (ref : Nat) : Known S (s.items ref) :=
  (known_store.mp h).1.getD_array ref known_nil

theorem Known.dict {s : Store} (h : Known S s) (ref : Nat) : Known S (s.dict ref) :=
  (known_store.mp h).2.1.getD_array ref known_empty

theorem Known.entries {s : Store} (h : Known S s) (ref : Nat) : Known S (s.entries ref) :=
  h.dict ref

theorem Known.iterator {s : Store} (h : Known S s) (ref : Nat) : Known S (s.iterator ref) :=
  have hempty : Known S (Cursor.chars []) := known_cursor_atom trivial
  (known_store.mp h).2.2.1.getD_array ref (known_iteration.mpr hempty)

theorem Known.function {s : Store} (h : Known S s) (ref : Nat) : Known S (s.function ref) :=
  (known_store.mp h).2.2.2.1.getD_array ref (known_function.mpr known_nil)

theorem Known.scope {s : Store} (h : Known S s) (ref : Nat) : Known S (s.scope ref) :=
  (known_store.mp h).2.2.2.2.1.getD_array ref known_nil

/-- What a function closes over is known when it has been copied. -/
theorem Known.closure {s : Store} (h : Known S s) (ref : Nat) : Known S (s.closure ref) :=
  known_closure.mpr ⟨h.function ref, h.entries _, h.scope _⟩

theorem Known.block {s : Store} (h : Known S s) (i : Nat) : Known S (s.blocks.getD i {}) :=
  (known_store.mp h).2.2.2.2.2.getD_array i (known_block.mpr known_nil)

/-- The cells of a list are its items and what is behind them. -/
theorem Known.cells {s : Store} (h : Known S s) {b : Block} (hb : Known S b) :
    Known S (s.cells b) := by
  unfold Store.cells
  rw [known_append]
  refine ⟨?_, hb⟩
  cases b.list? with
  | none => exact known_nil
  | some ref => exact h.items ref

end

/-! ## States -/

/-- States with a store, and perhaps with builtins. -/
class HasStore (σ : Type) extends HasReferences σ where
  store : σ → Store
  builtins? : σ → Option Bindings

instance : HasStore Store := ⟨id, fun _ => none⟩
instance : HasStore World := ⟨World.store, fun w => some w.builtins⟩

/-- A store has the functions, dicts and scopes of a ledger, with the contents that it keeps. -/
structure Ledger.Keeps (S : Ledger) (s : Store) : Prop where
  dictCount : s.dicts.size = S.dicts.length
  dict : ∀ {ref : Nat} {d : Dict}, S.dicts[ref]? = some (some d) → s.dict ref = d
  scopeCount : s.scopes.size = S.scopes.length
  scope : ∀ {ref : Nat} {vs : Bindings}, S.scopes[ref]? = some (some vs) → s.scope ref = vs
  functions : s.functions.toList = S.functions

/-- A ledger covers a state that has what the ledger keeps, and refers to nothing of that. -/
structure Ledger.Covers {σ : Type} [HasStore σ] (S : Ledger) (s : σ) : Prop where
  known : Known S s
  keeps : S.Keeps (HasStore.store s)
  builtins : ∀ bs ∈ HasStore.builtins? s, bs = S.builtins

end Wordcode
