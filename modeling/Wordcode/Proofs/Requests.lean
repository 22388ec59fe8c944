import Wordcode.Assembly
import Wordcode.Proofs.Parameters
import Mathlib

namespace Wordcode

/-! # Requests

What a series of requests leaves in an assembly, when none of them is a mistake.

* `Assembly.Grows`: mistakes, pools and labels are only ever added to at the end.
* `Assembly.emitted` lists the instructions that requests add, and `Assembly.items_performAll` finds
  exactly these in the assembly.
* `Assembly.Sound` is the invariant of assemblies without mistakes.
* `Assembly.lookup_label`: a label stands for the number of instructions added before it.
-/

/-- Normalized constants are supported. -/
theorem Const.unsupported?_of_normalize : (c : Const) → {k : Const} → c.normalize = .ok k →
    k.unsupported? = Option.none
  | .tuple items, k, h | .array items, k, h => by
      rw [normalize] at h
      -- the items of an array are normalized too, and it becomes a tuple
      cases hitems : normalize.normalizeAll items with
      | error e => simp [hitems, Functor.map, Except.map] at h
      | ok ks =>
          simp only [hitems, Functor.map, Except.map, Except.ok.injEq] at h
          subst h
          exact unsupportedIn?_of_normalizeAll items hitems
  | .foreign d, k, h => by
      cases d <;> simp only [normalize] at h <;> first
        | (split_ifs at h; obtain rfl := Except.ok.inj h; rfl)
        | simp at h
  | .none, k, h | .bool _, k, h | .int _, k, h | .float _, k, h | .str _, k, h
  | .stray _, k, h | .code _, k, h
  | .noCode, k, h => by
      obtain rfl := Except.ok.inj h
      rfl
where
  /-- Normalized sequences have no unsupported item. -/
  unsupportedIn?_of_normalizeAll : (cs : List Const) → {ks : List Const} →
      normalize.normalizeAll cs = .ok ks → unsupported?.unsupportedIn? ks = Option.none
    | [], ks, h => by
        obtain rfl := Except.ok.inj h
        rfl
    | c :: cs, ks, h => by
        rw [normalize.normalizeAll] at h
        cases hc : c.normalize with
        | error e => simp [hc, bind, Except.bind] at h
        | ok k =>
            cases hcs : normalize.normalizeAll cs with
            | error e => simp [hc, hcs, bind, Except.bind] at h
            | ok ks' =>
                simp only [hc, hcs, bind, Except.bind, pure, Except.pure, Except.ok.injEq] at h
                subst h
                rw [unsupported?.unsupportedIn?, unsupported?_of_normalize c hc]
                exact unsupportedIn?_of_normalizeAll cs hcs

namespace Assembly

/-! ## Growth -/

/-- What is never taken back. -/
structure Grows (a a' : Assembly) : Prop where
  name : a'.name = a.name
  file : a'.file = a.file
  mistakes : a.mistakes <+: a'.mistakes
  labels : a.labels <+: a'.labels
  constants : a.constants.toList <+: a'.constants.toList
  names : a.names.toList <+: a'.names.toList
  variableNames : a.variableNames.toList <+: a'.variableNames.toList

/-- An assembly has grown into itself. -/
theorem Grows.refl (a : Assembly) : a.Grows a where
  name := rfl
  file := rfl
  mistakes := List.prefix_refl _
  labels := List.prefix_refl _
  constants := List.prefix_refl _
  names := List.prefix_refl _
  variableNames := List.prefix_refl _

/-- Growth after growth. -/
theorem Grows.trans {a b c : Assembly} (h : a.Grows b) (h' : b.Grows c) : a.Grows c where
  name := h'.name.trans h.name
  file := h'.file.trans h.file
  mistakes := h.mistakes.trans h'.mistakes
  labels := h.labels.trans h'.labels
  constants := h.constants.trans h'.constants
  names := h.names.trans h'.names
  variableNames := h.variableNames.trans h'.variableNames

/-- Without mistakes at the end there was none before. -/
theorem Grows.clean {a a' : Assembly} (h : a.Grows a') (hclean : a'.mistakes = []) :
    a.mistakes = [] :=
  List.prefix_nil.mp (hclean ▸ h.mistakes)

/-- A refused request leaves only its mistake. -/
theorem grows_refuse (a : Assembly) (message : String) : a.Grows (a.refuse message) :=
  { Grows.refl a with mistakes := List.prefix_append _ _ }

/-- A refused request leaves a mistake. -/
theorem mistakes_refuse_ne (a : Assembly) (message : String) :
    (a.refuse message).mistakes ≠ [] := by
  simp [refuse]

/-- What stands in a pool stays at its position when the pool grows. -/
theorem getElem?_of_leading {α : Type} {pool pool' : Array α} (h : pool.toList <+: pool'.toList)
    {i : Nat} {x : α} (hi : pool[i]? = some x) : pool'[i]? = some x := by
  obtain ⟨later, hlater⟩ := h
  rw [← Array.getElem?_toList] at hi ⊢
  rw [← hlater, List.getElem?_append_left (List.getElem?_eq_some_iff.mp hi).1, hi]

/-- Pooling a text finds it or adds it at the end. -/
theorem intern_cases (pool : Array String) (s : String) :
    (∃ i, pool[i]? = some s ∧ intern pool s = (pool, i)) ∨
      (s ∉ pool ∧ intern pool s = (pool.push s, pool.size)) := by
  unfold intern
  cases hfind : pool.findIdx? (· = s) with
  | none =>
      refine Or.inr ⟨fun hmem => ?_, rfl⟩
      simpa using Array.findIdx?_eq_none_iff.mp hfind s hmem
  | some i =>
      obtain ⟨hi, hs, -⟩ := Array.findIdx?_eq_some_iff_getElem.mp hfind
      exact Or.inl ⟨i, by simpa [hi] using hs, rfl⟩

/-- A pooled text stands at its position. -/
theorem getElem?_intern (pool : Array String) (s : String) :
    (intern pool s).1[(intern pool s).2]? = some s := by
  rcases intern_cases pool s with ⟨i, hi, heq⟩ | ⟨-, heq⟩
  · rw [heq]
    exact hi
  · rw [heq]
    exact Array.getElem?_push_size

/-- Interning appends to a pool, or leaves it. -/
theorem prefix_intern (pool : Array String) (s : String) :
    pool.toList <+: (intern pool s).1.toList := by
  rcases intern_cases pool s with ⟨i, -, heq⟩ | ⟨-, heq⟩
  · rw [heq]
  · rw [heq, Array.toList_push]
    exact List.prefix_append _ _

theorem grows_internName (a : Assembly) (s : String) : a.Grows (a.internName s).1 :=
  { Grows.refl a with names := prefix_intern a.names s }

theorem grows_internVariable (a : Assembly) (s : String) : a.Grows (a.internVariable s).1 :=
  { Grows.refl a with variableNames := prefix_intern a.variableNames s }

/-- Scalars of the same kind and value are equal. -/
theorem eq_of_sameScalar {c k : Const} (h : c.sameScalar k = true) : k = c := by
  cases c <;> cases k <;> simp_all [Const.sameScalar, Text.Stray.ext_iff]

/-- Pooling a constant refuses it, finds it, or adds it at the end. -/
theorem internConst_cases (a : Assembly) (c : Const) :
    (∃ message, a.internConst c = (a.refuse message, 0)) ∨
      ∃ k, c.normalize = .ok k ∧
        ((∃ i, a.constants[i]? = some k ∧ a.internConst c = (a, i)) ∨
          a.internConst c = ({ a with constants := a.constants.push k }, a.constants.size)) := by
  unfold internConst
  cases hc : c.normalize with
  | error type => exact Or.inl ⟨_, rfl⟩
  | ok k =>
      refine Or.inr ⟨k, rfl, ?_⟩
      cases hfind : if k.isScalar then a.constants.findIdx? k.sameScalar else none with
      | none => exact Or.inr (by simp [hfind])
      | some i =>
          refine Or.inl ⟨i, ?_, by simp [hfind]⟩
          -- only scalars are looked for, and a scalar that is found is the same constant
          split_ifs at hfind
          obtain ⟨hi, hsame, -⟩ := Array.findIdx?_eq_some_iff_getElem.mp hfind
          rw [Array.getElem?_eq_getElem hi, eq_of_sameScalar hsame]

/-- A constant is appended, or found among those that are there. -/
theorem grows_internConst (a : Assembly) (c : Const) : a.Grows (a.internConst c).1 := by
  rcases a.internConst_cases c with ⟨message, heq⟩ | ⟨k, -, ⟨i, -, heq⟩ | heq⟩
  · rw [heq]
    exact grows_refuse a message
  · rw [heq]
    exact Grows.refl a
  · rw [heq]
    exact { Grows.refl a with constants := by simp }

/-- Declaring a parameter appends its name to the variables. -/
theorem grows_declare (a : Assembly) (s : String) : a.Grows (a.declare s) := by
  unfold declare
  split_ifs
  · exact grows_refuse a _
  · exact grows_internVariable a s

theorem grows_foldl_declare (a : Assembly) (names : List String) :
    a.Grows (names.foldl declare a) := by
  induction names generalizing a with
  | nil => exact Grows.refl a
  | cons s names ih => exact (grows_declare a s).trans (ih _)

/-- The names of all parameters in the order in which they are declared. -/
def Parameters.names (p : Parameters) : List String :=
  Code.ParameterNames.all ⟨p.positionalOnly, p.positional, p.keywordOnly⟩ p.rest? p.keywords?

/-- The flags of the collecting slots. -/
def Parameters.flags (p : Parameters) : UInt8 :=
  (if p.rest?.isSome then Code.restFlag else 0) |||
    (if p.keywords?.isSome then Code.keywordsFlag else 0)

/-- The counts and flags of parameters, before their names are declared. -/
def count (a : Assembly) (p : Parameters) : Assembly :=
  { a with
    positionalOnly := p.positionalOnly.length, positional := p.positional.length,
    keywordOnly := p.keywordOnly.length, flags := p.flags }

/-- Parameters are counted and declared one after the other, unless there are locals already. -/
theorem declareAll_eq (a : Assembly) (p : Parameters) :
    a.declareAll p = if 0 < a.variableNames.size then a.refuse "parameters declared after locals"
      else p.names.foldl declare (a.count p) :=
  rfl

theorem grows_declareAll (a : Assembly) (p : Parameters) : a.Grows (a.declareAll p) := by
  rw [declareAll_eq]
  split_ifs
  · exact grows_refuse a _
  · have hcount : a.Grows (a.count p) := { Grows.refl a with }
    exact hcount.trans (grows_foldl_declare _ _)

/-- Adding an instruction leaves everything else as it is. -/
theorem grows_push (a : Assembly) (item : Item) : a.Grows { a with items := a.items.push item } :=
  { Grows.refl a with }

/-- An instruction is appended, or refused. -/
theorem grows_emit (a : Assembly) (opcode : UInt8) (arg : Int) : a.Grows (a.emit opcode arg) := by
  unfold emit
  split
  · exact grows_refuse a _
  · exact grows_refuse a _
  · split
    · exact grows_refuse a _
    · exact grows_push a _

/-- A jump is appended, or refused. -/
theorem grows_emitJump (a : Assembly) (opcode : UInt8) (label : String) :
    a.Grows (a.emitJump opcode label) := by
  unfold emitJump
  split
  · split
    · exact grows_push a _
    · exact grows_refuse a _
  · exact grows_refuse a _

/-- A label is placed, or refused. -/
theorem grows_place (a : Assembly) (label : String) : a.Grows (a.place label) := by
  unfold place
  split_ifs
  · exact grows_refuse a _
  · exact { Grows.refl a with labels := List.prefix_append _ _ }

/-- A request takes nothing back. -/
theorem grows_perform (a : Assembly) (r : Request) : a.Grows (a.perform r).1 := by
  cases r with
  | parameters p => exact grows_declareAll a p
  | const c => exact grows_internConst a c
  | name s => exact grows_internName a s
  | slot s => exact grows_internVariable a s
  | emit opcode arg => exact grows_emit a opcode arg
  | emitName opcode s => exact (grows_internName a s).trans (grows_emit _ opcode _)
  | emitSlot opcode s => exact (grows_internVariable a s).trans (grows_emit _ _ _)
  | jump opcode label => exact grows_emitJump a opcode label
  | label s => exact grows_place a s
  | loadConst c => exact (grows_internConst a c).trans (grows_emit _ Opcode.loadConst.number _)

@[simp]
theorem performAll_nil (a : Assembly) : a.performAll [] = a := rfl

@[simp]
theorem performAll_cons (a : Assembly) (r : Request) (rs : List Request) :
    a.performAll (r :: rs) = (a.perform r).1.performAll rs := rfl

/-- Requests in two parts. -/
theorem performAll_append (a : Assembly) (rs rs' : List Request) :
    a.performAll (rs ++ rs') = (a.performAll rs).performAll rs' :=
  List.foldl_append

/-- An assembly only grows, by induction on the requests. -/
theorem grows_performAll (a : Assembly) (rs : List Request) : a.Grows (a.performAll rs) := by
  induction rs generalizing a with
  | nil => exact Grows.refl a
  | cons r rs ih => exact (grows_perform a r).trans (ih _)

/-! ## Instructions -/

/-- Adding an instruction without a mistake. -/
theorem emit_cases {a : Assembly} {opcode : UInt8} {arg : Int}
    (h : (a.emit opcode arg).mistakes = []) :
    ∃ op, Opcode.ofNumber? opcode = some op ∧ op ≠ .extendedArg ∧ 0 ≤ arg ∧ arg < 2 ^ 32 ∧
      a.emit opcode arg =
        { a with items := a.items.push { op, arg := if op.hasArg then arg.toNat else 0 } } := by
  unfold emit at h ⊢
  split at h
  · exact absurd h (mistakes_refuse_ne a _)
  · exact absurd h (mistakes_refuse_ne a _)
  · rename_i op hne hop
    split at h
    · exact absurd h (mistakes_refuse_ne a _)
    · rename_i hrange
      have hbounds : ¬ arg < 0 ∧ ¬ maxArgument < arg := by simpa using hrange
      have hmax : maxArgument = 2 ^ 32 - 1 := rfl
      exact ⟨op, hop, hne, by omega, by omega, by simp only [if_neg hrange]⟩

/-- Adding a jump without a mistake. -/
theorem emitJump_cases {a : Assembly} {opcode : UInt8} {label : String}
    (h : (a.emitJump opcode label).mistakes = []) :
    ∃ op, Opcode.ofNumber? opcode = some op ∧ op.isJump = true ∧
      a.emitJump opcode label =
        { a with
          items := a.items.push { op, label? := if label = "" then none else some label } } := by
  unfold emitJump at h ⊢
  split at h
  · rename_i op hop
    split at h
    · rename_i hjump
      exact ⟨op, hop, hjump, by simp [hjump]⟩
    · exact absurd h (mistakes_refuse_ne a _)
  · exact absurd h (mistakes_refuse_ne a _)

/-- Placing a label without a mistake. -/
theorem place_cases {a : Assembly} {label : String} (h : (a.place label).mistakes = []) :
    a.labels.lookup label = none ∧
      a.place label = { a with labels := a.labels ++ [(label, a.items.size)] } := by
  unfold place at h ⊢
  split at h
  · exact absurd h (mistakes_refuse_ne a _)
  · rename_i hnew
    exact ⟨Option.not_isSome_iff_eq_none.mp hnew, by rw [if_neg hnew]⟩

/-- Whether a request adds an instruction. -/
def Request.emits : Request → Bool
  | .emit .. | .emitName .. | .emitSlot .. | .jump .. | .loadConst _ => true
  | .parameters _ | .const _ | .name _ | .slot _ | .label _ => false

/-- The instruction that a request adds to an assembly. -/
def Request.item? (a : Assembly) : Request → Option Item
  | .emit opcode arg => (Opcode.ofNumber? opcode).map fun op =>
      { op, arg := if op.hasArg then arg.toNat else 0 }
  | .emitName opcode s => (Opcode.ofNumber? opcode).map fun op =>
      { op, arg := if op.hasArg then (a.internName s).2 else 0 }
  | .emitSlot opcode s => (Opcode.ofNumber? opcode).map fun op =>
      { op, arg := if op.hasArg then (a.internVariable s).2 else 0 }
  | .jump opcode s => (Opcode.ofNumber? opcode).map fun op =>
      { op, label? := if s = "" then none else some s }
  | .loadConst c => some { op := .loadConst, arg := (a.internConst c).2 }
  | .parameters _ | .const _ | .name _ | .slot _ | .label _ => none

/-- The instructions that requests add to an assembly, in order. -/
def emitted (a : Assembly) : List Request → List Item
  | [] => []
  | r :: rs => (r.item? a).toList ++ (a.perform r).1.emitted rs

/-- What the second part of the requests emits comes behind what the first part emits. -/
theorem emitted_append (a : Assembly) (rs rs' : List Request) :
    a.emitted (rs ++ rs') = a.emitted rs ++ (a.performAll rs).emitted rs' := by
  induction rs generalizing a with
  | nil => rfl
  | cons r rs ih => simp [emitted, ih]

/-- Interning a constant emits nothing. -/
theorem items_internConst (a : Assembly) (c : Const) : (a.internConst c).1.items = a.items := by
  rcases a.internConst_cases c with ⟨message, heq⟩ | ⟨k, -, ⟨i, -, heq⟩ | heq⟩ <;> rw [heq]
  rfl

/-- Declaring parameters adds no instruction, label, constant or name. -/
theorem declareAll_frame (a : Assembly) (p : Parameters) :
    (a.declareAll p).items = a.items ∧ (a.declareAll p).labels = a.labels ∧
      (a.declareAll p).constants = a.constants ∧ (a.declareAll p).names = a.names := by
  -- declaring a name only adds a variable
  have hdeclare (names : List String) (b : Assembly) :
      (names.foldl declare b).items = b.items ∧ (names.foldl declare b).labels = b.labels ∧
        (names.foldl declare b).constants = b.constants ∧
        (names.foldl declare b).names = b.names := by
    induction names generalizing b with
    | nil => exact ⟨rfl, rfl, rfl, rfl⟩
    | cons s names ih =>
        obtain ⟨hitems, hlabels, hconstants, hnames⟩ := ih (b.declare s)
        have hstep : (b.declare s).items = b.items ∧ (b.declare s).labels = b.labels ∧
            (b.declare s).constants = b.constants ∧ (b.declare s).names = b.names := by
          unfold declare
          split <;> exact ⟨rfl, rfl, rfl, rfl⟩
        exact ⟨hitems.trans hstep.1, hlabels.trans hstep.2.1, hconstants.trans hstep.2.2.1,
          hnames.trans hstep.2.2.2⟩
  rw [declareAll_eq]
  split
  · exact ⟨rfl, rfl, rfl, rfl⟩
  · exact hdeclare p.names (a.count p)

/-- Declaring parameters emits nothing. -/
theorem items_declareAll (a : Assembly) (p : Parameters) : (a.declareAll p).items = a.items :=
  (declareAll_frame a p).1

/-- The item of an instruction with a numeric argument. -/
theorem items_emit {a : Assembly} {opcode : UInt8} {arg : Int}
    (h : (a.emit opcode arg).mistakes = []) :
    (a.emit opcode arg).items.toList = a.items.toList ++
      ((Opcode.ofNumber? opcode).map fun op =>
        ({ op, arg := if op.hasArg then arg.toNat else 0 } : Item)).toList := by
  obtain ⟨op, hop, -, -, -, heq⟩ := emit_cases h
  simp [heq, hop]

/-- A request adds its instruction, and only that. -/
theorem items_perform {a : Assembly} {r : Request} (h : (a.perform r).1.mistakes = []) :
    (a.perform r).1.items.toList = a.items.toList ++ (r.item? a).toList := by
  -- each request adds its own item, or none
  cases r with
  | parameters p => simp [perform, Request.item?, items_declareAll]
  | const c => simp [perform, Request.item?, items_internConst]
  | name s => simp [perform, Request.item?, internName]
  | slot s => simp [perform, Request.item?, internVariable]
  | emit opcode arg => exact items_emit h
  | emitName opcode s => exact items_emit (a := (a.internName s).1) h
  | emitSlot opcode s => exact items_emit (a := (a.internVariable s).1) h
  | jump opcode s =>
      obtain ⟨op, hop, -, heq⟩ := emitJump_cases h
      simp [perform, Request.item?, heq, hop]
  | label s =>
      obtain ⟨-, heq⟩ := place_cases h
      simp [perform, Request.item?, heq]
  | loadConst c =>
      have hitems := items_emit (a := (a.internConst c).1) h
      rw [items_internConst] at hitems
      exact hitems

/-- Requests add their instructions, and only those. -/
theorem items_performAll {a : Assembly} {rs : List Request} (h : (a.performAll rs).mistakes = []) :
    (a.performAll rs).items.toList = a.items.toList ++ a.emitted rs := by
  induction rs generalizing a with
  | nil => simp [emitted]
  | cons r rs ih =>
      have hfirst := (grows_performAll (a.perform r).1 rs).clean h
      rw [performAll_cons, ih h, items_perform hfirst, emitted, List.append_assoc]

/-- Every instruction comes from one of the requests. -/
theorem emitted_split {a : Assembly} {rs : List Request} {i : Nat} {item : Item}
    (h : (a.emitted rs)[i]? = some item) :
    ∃ before r after, rs = before ++ r :: after ∧ (a.emitted before).length = i ∧
      r.item? (a.performAll before) = some item := by
  induction rs generalizing a i with
  | nil => simp [emitted] at h
  | cons r rs ih =>
      rw [emitted] at h
      -- a request that emits nothing does not count
      cases hitem : r.item? a with
      | none =>
          obtain ⟨before, r', after, rfl, hlength, hitem'⟩ := ih (by simpa [hitem] using h)
          exact ⟨r :: before, r', after, rfl, by simpa [emitted, hitem] using hlength, hitem'⟩
      | some item₀ =>
          cases i with
          | zero =>
              obtain rfl : item₀ = item := by simpa [hitem] using h
              exact ⟨[], r, rs, rfl, rfl, hitem⟩
          | succ i =>
              obtain ⟨before, r', after, rfl, hlength, hitem'⟩ := ih (by simpa [hitem] using h)
              exact ⟨r :: before, r', after, rfl, by simp [emitted, hitem, hlength], hitem'⟩

/-- What every instruction of an assembly without mistakes satisfies. -/
structure Item.Sound (item : Item) : Prop where
  op_ne : item.op ≠ .extendedArg
  arg_lt : item.arg < 2 ^ 32
  arg_eq : item.op.hasArg = false → item.arg = 0
  labelled : item.label? ≠ none → item.op.isJump = true ∧ item.arg = 0

/-- The instruction of a request with a numeric argument. -/
theorem Item.sound_emit {a : Assembly} {opcode : UInt8} {arg : Int}
    (h : (a.emit opcode arg).mistakes = []) {item : Item}
    (hitem : (Opcode.ofNumber? opcode).map (fun op =>
      ({ op, arg := if op.hasArg then arg.toNat else 0 } : Item)) = some item) : item.Sound := by
  obtain ⟨op, hop, hne, -, hlt, -⟩ := emit_cases h
  obtain rfl : _ = item := by simpa [hop] using hitem
  refine ⟨hne, ?_, fun hnone => by simp [hnone], by simp⟩
  show (if op.hasArg then arg.toNat else 0) < 2 ^ 32
  split <;> omega

/-- A request adds a sound instruction. -/
theorem Request.item?_sound {a : Assembly} {r : Request} (h : (a.perform r).1.mistakes = [])
    {item : Item} (hitem : r.item? a = some item) : item.Sound := by
  cases r with
  | parameters p => simp [item?] at hitem
  | const c => simp [item?] at hitem
  | name s => simp [item?] at hitem
  | slot s => simp [item?] at hitem
  | label s => simp [item?] at hitem
  | emit opcode arg => exact Item.sound_emit h hitem
  | emitName opcode s => exact Item.sound_emit (a := (a.internName s).1) h hitem
  | emitSlot opcode s => exact Item.sound_emit (a := (a.internVariable s).1) h hitem
  | loadConst c => exact Item.sound_emit (a := (a.internConst c).1) h hitem
  | jump opcode s =>
      obtain ⟨op, hop, hjump, -⟩ := emitJump_cases h
      obtain rfl : _ = item := by simpa [item?, hop] using hitem
      refine ⟨?_, by simp, by simp, fun _ => ⟨hjump, rfl⟩⟩
      rintro rfl
      simp [Opcode.isJump, Opcode.argKind, ArgKind.isJump] at hjump

/-- A request that adds an instruction has one. -/
theorem Request.isSome_item? {a : Assembly} {r : Request} (h : (a.perform r).1.mistakes = [])
    (hemits : r.emits = true) : (r.item? a).isSome = true := by
  -- an unknown operation would have been a mistake
  cases r with
  | parameters p => simp [emits] at hemits
  | const c => simp [emits] at hemits
  | name s => simp [emits] at hemits
  | slot s => simp [emits] at hemits
  | label s => simp [emits] at hemits
  | emit opcode arg =>
      obtain ⟨op, hop, -⟩ := emit_cases h
      simp [item?, hop]
  | emitName opcode s =>
      obtain ⟨op, hop, -⟩ := emit_cases (a := (a.internName s).1) h
      simp [item?, hop]
  | emitSlot opcode s =>
      obtain ⟨op, hop, -⟩ := emit_cases (a := (a.internVariable s).1) h
      simp [item?, hop]
  | jump opcode s =>
      obtain ⟨op, hop, -⟩ := emitJump_cases h
      simp [item?, hop]
  | loadConst c => rfl

/-! ## Arguments -/

/-- An argument that means something for its opcode: an entry of a pool, the number of an operator,
or any count or flags. -/
def Meaningful (a : Assembly) (op : Opcode) (arg : Nat) : Prop :=
  match op.argKind with
  | .const => arg < a.constants.size
  | .name => arg < a.names.size
  | .slot => arg < a.variableNames.size
  | .binaryOperator => ∃ o : BinaryOperator, arg = o.number
  | .comparison => ∃ c : Comparison, arg = c.number
  | .jumpAbsolute | .jumpRelative => False
  | .none | .count | .flags => True

/-- A request whose argument means something in the assembly that all requests lead to. -/
def Request.Meaningful (final : Assembly) : Request → Prop
  | .emit opcode arg => ∀ op, Opcode.ofNumber? opcode = some op → final.Meaningful op arg.toNat
  | .emitName opcode _ => ∃ op, Opcode.ofNumber? opcode = some op ∧ op.argKind = .name
  | .emitSlot opcode _ => ∃ op, Opcode.ofNumber? opcode = some op ∧ op.argKind = .slot
  | .parameters _ | .const _ | .name _ | .slot _ | .jump .. | .label _ | .loadConst _ => True

/-- A constant that was not refused stands at its position in its normal form. -/
theorem getElem?_internConst {a : Assembly} {c : Const} (h : (a.internConst c).1.mistakes = []) :
    ∃ k, c.normalize = .ok k ∧ (a.internConst c).1.constants[(a.internConst c).2]? = some k := by
  rcases a.internConst_cases c with ⟨message, heq⟩ | ⟨k, hk, ⟨i, hi, heq⟩ | heq⟩
  · rw [heq] at h
    exact absurd h (mistakes_refuse_ne a _)
  · rw [heq]
    exact ⟨k, hk, hi⟩
  · rw [heq]
    exact ⟨k, hk, Array.getElem?_push_size⟩

/-- The instruction of a meaningful request has a meaningful argument, unless it is a jump. -/
theorem Request.Meaningful.item {a final : Assembly} {r : Request} (h : r.Meaningful final)
    (hgrows : (a.perform r).1.Grows final) (hclean : final.mistakes = []) {item : Item}
    (hitem : r.item? a = some item) (hjump : ∀ opcode s, r ≠ .jump opcode s) :
    final.Meaningful item.op item.arg := by
  cases r with
  | parameters p => simp [item?] at hitem
  | const c => simp [item?] at hitem
  | name s => simp [item?] at hitem
  | slot s => simp [item?] at hitem
  | label s => simp [item?] at hitem
  | jump opcode s => exact absurd rfl (hjump opcode s)
  | emit opcode arg =>
      obtain ⟨op, hop, -⟩ := emit_cases (hgrows.clean hclean)
      obtain rfl : _ = item := by simpa [item?, hop] using hitem
      have hmeans := h op hop
      -- the argument of an opcode that has none is dropped
      cases harg : op.hasArg with
      | true => simpa [harg] using hmeans
      | false =>
          have hkind : op.argKind = .none := by
            by_contra hne
            simp [(Opcode.hasArg_iff_argKind_ne_none op).mpr hne] at harg
          simp [Assembly.Meaningful, hkind]
  | emitName opcode s =>
      obtain ⟨op, hop, hkind⟩ := h
      have harg : op.hasArg = true := (Opcode.hasArg_iff_argKind_ne_none op).mpr (by simp [hkind])
      obtain rfl : _ = item := by simpa [item?, hop] using hitem
      have hgrow : (a.internName s).1.Grows final := (grows_emit _ opcode _).trans hgrows
      have hat := getElem?_of_leading hgrow.names (getElem?_intern a.names s)
      have hlt : (a.internName s).2 < final.names.size := (Array.getElem?_eq_some_iff.mp hat).1
      simpa [Assembly.Meaningful, hkind, harg] using hlt
  | emitSlot opcode s =>
      obtain ⟨op, hop, hkind⟩ := h
      have harg : op.hasArg = true := (Opcode.hasArg_iff_argKind_ne_none op).mpr (by simp [hkind])
      obtain rfl : _ = item := by simpa [item?, hop] using hitem
      have hgrow : (a.internVariable s).1.Grows final := (grows_emit _ opcode _).trans hgrows
      have hat := getElem?_of_leading hgrow.variableNames (getElem?_intern a.variableNames s)
      have hlt : (a.internVariable s).2 < final.variableNames.size :=
        (Array.getElem?_eq_some_iff.mp hat).1
      simpa [Assembly.Meaningful, hkind, harg] using hlt
  | loadConst c =>
      obtain rfl : _ = item := by simpa [item?] using hitem
      have hgrow : (a.internConst c).1.Grows final :=
        (grows_emit _ Opcode.loadConst.number _).trans hgrows
      obtain ⟨k, -, hk⟩ := getElem?_internConst (hgrow.clean hclean)
      exact (Array.getElem?_eq_some_iff.mp (getElem?_of_leading hgrow.constants hk)).1

/-! ## Labels -/

/-- A label stands for the number of instructions added before it. -/
theorem lookup_label {a : Assembly} (hitems : a.items = #[]) {before after : List Request}
    {s : String} (h : (a.performAll (before ++ .label s :: after)).mistakes = []) :
    (a.performAll (before ++ .label s :: after)).labels.lookup s =
      some (a.emitted before).length := by
  rw [performAll_append, performAll_cons] at h ⊢
  -- what comes after the label adds labels at the end, where they do not hide it
  have hgrows := grows_performAll ((a.performAll before).perform (.label s)).1 after
  obtain ⟨hnew, hplace⟩ := place_cases (hgrows.clean h)
  have hbefore := (grows_place (a.performAll before) s).clean (hgrows.clean h)
  have hsize : (a.performAll before).items.size = (a.emitted before).length := by
    have hperform := congrArg List.length (items_performAll hbefore)
    simpa [hitems] using hperform
  obtain ⟨later, hlater⟩ := hgrows.labels
  rw [← hlater]
  show List.lookup s (((a.performAll before).place s).labels ++ later) = _
  rw [hplace, ← hsize]
  simp [List.lookup_append, hnew]

/-! ## Metadata -/

/-- The counts and flags cut the leading variable names into the declared parameters. -/
structure Declared (a : Assembly) (p : Parameters) : Prop where
  positionalOnly : a.positionalOnly = p.positionalOnly.length
  positional : a.positional = p.positional.length
  keywordOnly : a.keywordOnly = p.keywordOnly.length
  flags : a.flags = p.flags
  leading : p.names <+: a.variableNames.toList

/-- The metadata of an assembly without mistakes. -/
structure Sound (a : Assembly) : Prop where
  supported : ∀ k ∈ a.constants, k.unsupported? = none
  nodup : a.variableNames.toList.Nodup
  declared : ∃ p, a.Declared p

/-- An assembly to which nothing was added is sound. -/
theorem sound_start (name file id : String) : Sound { name, file, id } where
  supported := by simp
  nodup := List.nodup_nil
  declared := ⟨{}, rfl, rfl, rfl, rfl, List.prefix_refl _⟩

/-- Adding instructions, names, labels and mistakes leaves the metadata sound. -/
theorem Sound.of_eq {a a' : Assembly} (h : a.Sound) (hconstants : a'.constants = a.constants)
    (hvariables : a'.variableNames = a.variableNames)
    (hcounts : a'.positionalOnly = a.positionalOnly ∧ a'.positional = a.positional ∧
      a'.keywordOnly = a.keywordOnly ∧ a'.flags = a.flags) : a'.Sound := by
  obtain ⟨hpositionalOnly, hpositional, hkeywordOnly, hflags⟩ := hcounts
  obtain ⟨p, hp⟩ := h.declared
  refine ⟨hconstants ▸ h.supported, hvariables ▸ h.nodup, p, ?_⟩
  exact ⟨hpositionalOnly ▸ hp.positionalOnly, hpositional ▸ hp.positional,
    hkeywordOnly ▸ hp.keywordOnly, hflags ▸ hp.flags, hvariables ▸ hp.leading⟩

/-- A new text leaves a pool without repetitions. -/
theorem nodup_push {pool : Array String} {s : String} (h : pool.toList.Nodup) (hnew : s ∉ pool) :
    (pool.push s).toList.Nodup := by
  rw [Array.toList_push, List.nodup_append]
  refine ⟨h, by simp, fun other hother _ hs heq => ?_⟩
  obtain rfl := List.mem_singleton.mp hs
  exact hnew (heq ▸ Array.mem_toList_iff.mp hother)

/-- A new name is different from those that are there. -/
theorem Sound.internVariable {a : Assembly} (h : a.Sound) (s : String) :
    (a.internVariable s).1.Sound := by
  rcases intern_cases a.variableNames s with ⟨i, -, heq⟩ | ⟨hnew, heq⟩
  · exact h.of_eq rfl (congrArg Prod.fst heq) ⟨rfl, rfl, rfl, rfl⟩
  · have hvariables : (a.internVariable s).1.variableNames = a.variableNames.push s :=
      congrArg Prod.fst heq
    obtain ⟨p, hp⟩ := h.declared
    refine ⟨h.supported, ?_, p, ⟨hp.positionalOnly, hp.positional, hp.keywordOnly, hp.flags, ?_⟩⟩
    · rw [hvariables]
      exact nodup_push h.nodup hnew
    · rw [hvariables, Array.toList_push]
      exact hp.leading.trans (List.prefix_append _ _)

/-- A new constant is. -/
theorem Sound.internConst {a : Assembly} (h : a.Sound) (c : Const) : (a.internConst c).1.Sound := by
  rcases a.internConst_cases c with ⟨message, heq⟩ | ⟨k, hk, ⟨i, -, heq⟩ | heq⟩ <;> rw [heq]
  · exact h.of_eq rfl rfl ⟨rfl, rfl, rfl, rfl⟩
  · exact h
  · obtain ⟨p, hp⟩ := h.declared
    refine ⟨fun other hother => ?_, h.nodup, p, hp.1, hp.2, hp.3, hp.4, hp.5⟩
    rcases Array.mem_push.mp hother with hmem | rfl
    · exact h.supported other hmem
    · exact Const.unsupported?_of_normalize c hk

/-- Declaring a new parameter adds its name. -/
theorem declare_of_not_mem {a : Assembly} {s : String} (hnew : s ∉ a.variableNames) :
    a.declare s = { a with variableNames := a.variableNames.push s } := by
  rcases intern_cases a.variableNames s with ⟨i, hi, -⟩ | ⟨-, heq⟩
  · exact absurd (Array.mem_of_getElem? hi) hnew
  · rw [declare, if_neg (by simpa using hnew), internVariable, heq]

/-- Declaring new parameters adds their names in order. -/
theorem foldl_declare_eq {a : Assembly} {names : List String}
    (h : (names.foldl declare a).mistakes = []) (hnodup : a.variableNames.toList.Nodup) :
    (a.variableNames.toList ++ names).Nodup ∧
      names.foldl declare a = { a with variableNames := a.variableNames ++ names } := by
  induction names generalizing a with
  | nil => simpa using hnodup
  | cons s names ih =>
      have hclean := (grows_foldl_declare (a.declare s) names).clean h
      -- a name that is there already would have been refused
      have hnew : s ∉ a.variableNames := by
        intro hmem
        rw [declare, if_pos (Array.contains_iff_mem.mpr hmem)] at hclean
        exact absurd hclean (mistakes_refuse_ne a _)
      rw [List.foldl_cons, declare_of_not_mem hnew] at h ⊢
      obtain ⟨hall, heq⟩ := ih h (nodup_push hnodup hnew)
      refine ⟨by simpa using hall, ?_⟩
      rw [heq]
      simp

/-- Parameters that are no mistake are the only variables then. -/
theorem declareAll_cases {a : Assembly} {p : Parameters} (h : (a.declareAll p).mistakes = []) :
    p.names.Nodup ∧
      a.declareAll p = { a.count p with variableNames := p.names.toArray } := by
  rw [declareAll_eq] at h ⊢
  split at h
  · exact absurd h (mistakes_refuse_ne a _)
  · rename_i hfirst
    have hempty : (a.count p).variableNames = #[] :=
      Array.eq_empty_of_size_eq_zero (show a.variableNames.size = 0 by omega)
    obtain ⟨hnodup, heq⟩ := foldl_declare_eq h (by simp [hempty])
    rw [if_neg hfirst, heq]
    rw [hempty] at hnodup ⊢
    exact ⟨by simpa using hnodup, by simp⟩

/-- Parameters that are no mistake are the declared ones. -/
theorem declared_declareAll {a : Assembly} {p : Parameters}
    (h : (a.declareAll p).mistakes = []) : (a.declareAll p).Declared p := by
  rw [(declareAll_cases h).2]
  exact ⟨rfl, rfl, rfl, rfl, List.prefix_refl _⟩

/-- Parameters that are declared without a mistake have different names. -/
theorem Sound.declareAll {a : Assembly} (h : a.Sound) {p : Parameters}
    (hclean : (a.declareAll p).mistakes = []) : (a.declareAll p).Sound := by
  obtain ⟨hnodup, heq⟩ := declareAll_cases hclean
  refine ⟨?_, ?_, p, declared_declareAll hclean⟩
  · rw [heq]
    exact h.supported
  · rw [heq]
    exact hnodup

/-- A request that is no mistake keeps the metadata sound. -/
theorem Sound.perform {a : Assembly} (h : a.Sound) {r : Request}
    (hclean : (a.perform r).1.mistakes = []) : (a.perform r).1.Sound := by
  -- what is emitted touches none of the pools
  have hemit {b : Assembly} (hb : b.Sound) {opcode : UInt8} {arg : Int}
      (hclean : (b.emit opcode arg).mistakes = []) : (b.emit opcode arg).Sound := by
    obtain ⟨op, -, -, -, -, heq⟩ := emit_cases hclean
    rw [heq]
    exact hb.of_eq rfl rfl ⟨rfl, rfl, rfl, rfl⟩
  cases r with
  | parameters p => exact h.declareAll hclean
  | const c => exact h.internConst c
  | name s => exact h.of_eq rfl rfl ⟨rfl, rfl, rfl, rfl⟩
  | slot s => exact h.internVariable s
  | emit opcode arg => exact hemit h hclean
  | emitName opcode s =>
      exact hemit (b := (a.internName s).1) (h.of_eq rfl rfl ⟨rfl, rfl, rfl, rfl⟩) hclean
  | emitSlot opcode s => exact hemit (h.internVariable s) hclean
  | jump opcode s =>
      obtain ⟨op, -, -, heq⟩ := emitJump_cases hclean
      show (a.emitJump opcode s).Sound
      rw [heq]
      exact h.of_eq rfl rfl ⟨rfl, rfl, rfl, rfl⟩
  | label s =>
      obtain ⟨-, heq⟩ := place_cases hclean
      show (a.place s).Sound
      rw [heq]
      exact h.of_eq rfl rfl ⟨rfl, rfl, rfl, rfl⟩
  | loadConst c => exact hemit (h.internConst c) hclean

/-- Requests of which none is a mistake keep the metadata sound. -/
theorem Sound.performAll {a : Assembly} (h : a.Sound) {rs : List Request}
    (hclean : (a.performAll rs).mistakes = []) : (a.performAll rs).Sound := by
  induction rs generalizing a with
  | nil => exact h
  | cons r rs ih => exact ih (h.perform ((grows_performAll _ rs).clean hclean)) hclean

end Assembly

end Wordcode
