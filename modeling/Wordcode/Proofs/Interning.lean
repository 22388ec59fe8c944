import Wordcode.Proofs.Assembled
import Mathlib

namespace Wordcode.Assembly

/-! # Interning

The positions that an assembly answers for constants, names and variables are positions in the pools
of the code object, whatever is requested later, and two answers are the same exactly when the
entries are.

* `Distinct` is the invariant of the pools: names, variables and scalar constants do not repeat.
* `Declared.performAll`: parameters stay declared while no others are.
* `Interned` says what the pools of a code object have to do with the answers, and
  `interned_of_assemble` that this holds of everything that is assembled.
-/

/-! ## Pools without repetitions -/

/-- Names and variables occur once in their pools, and scalars once among the constants. -/
structure Distinct (a : Assembly) : Prop where
  names : a.names.toList.Nodup
  variableNames : a.variableNames.toList.Nodup
  scalars : ∀ (i j : Nat) (k : Const), a.constants[i]? = some k → a.constants[j]? = some k →
    k.isScalar = true → i = j

theorem distinct_blank (name file id : String) : (blank name file id).Distinct where
  names := List.nodup_nil
  variableNames := List.nodup_nil
  scalars := by simp [blank]

/-- A name is only appended if it is not there. -/
theorem nodup_intern {pool : Array String} (h : pool.toList.Nodup) (s : String) :
    (intern pool s).1.toList.Nodup := by
  rcases intern_cases pool s with ⟨i, -, heq⟩ | ⟨hnew, heq⟩ <;> rw [heq]
  · exact h
  · exact nodup_push h hnew

/-- A scalar is the same as itself, down to the bits of a float. -/
theorem sameScalar_self {k : Const} (h : k.isScalar = true) : k.sameScalar k = true := by
  cases k <;> simp_all [Const.isScalar, Const.sameScalar]

/-- A scalar that is added was not there before. -/
theorem not_mem_of_internConst {a : Assembly} {c k : Const} (hk : c.normalize = .ok k)
    (hscalar : k.isScalar = true)
    (h : (a.internConst c).1.constants = a.constants.push k) : k ∉ a.constants := by
  unfold internConst at h
  simp only [hk, hscalar, if_true] at h
  split at h
  · simpa using congrArg Array.size h
  · rename_i hnone
    intro hmem
    have hdiffers := Array.findIdx?_eq_none_iff.mp hnone k hmem
    rw [sameScalar_self hscalar] at hdiffers
    cases hdiffers

section

variable {a b : Assembly} (h : a.Distinct)
include h

/-- Only the pools count. -/
theorem Distinct.of_eq (hnames : b.names = a.names) (hvariables : b.variableNames = a.variableNames)
    (hconstants : b.constants = a.constants) : b.Distinct := by
  refine ⟨?_, ?_, ?_⟩
  · rw [hnames]
    exact h.names
  · rw [hvariables]
    exact h.variableNames
  · rw [hconstants]
    exact h.scalars

theorem Distinct.internName (s : String) : (a.internName s).1.Distinct :=
  ⟨nodup_intern h.names s, h.variableNames, h.scalars⟩

theorem Distinct.internVariable (s : String) : (a.internVariable s).1.Distinct :=
  ⟨h.names, nodup_intern h.variableNames s, h.scalars⟩

/-- A constant is only appended if the same one is not there. -/
theorem Distinct.internConst (c : Const) : (a.internConst c).1.Distinct := by
  rcases a.internConst_cases c with ⟨message, heq⟩ | ⟨k, hk, ⟨i, -, heq⟩ | heq⟩
  · rw [heq]
    exact h.of_eq rfl rfl rfl
  · rw [heq]
    exact h
  · have hnew := not_mem_of_internConst (a := a) hk (h := by rw [heq])
    rw [heq]
    refine ⟨h.names, h.variableNames, fun i j k' hi hj hscalar => ?_⟩
    -- of two positions of a scalar either both are old ones or both the new one
    simp only [Array.getElem?_push] at hi hj
    split at hi <;> split at hj
    · omega
    · obtain rfl := Option.some.inj hi
      exact absurd (Array.mem_of_getElem? hj) (hnew hscalar)
    · obtain rfl := Option.some.inj hj
      exact absurd (Array.mem_of_getElem? hi) (hnew hscalar)
    · exact h.scalars i j k' hi hj hscalar

theorem Distinct.emit (opcode : UInt8) (arg : Int) : (a.emit opcode arg).Distinct := by
  unfold Assembly.emit
  split
  · exact h.of_eq rfl rfl rfl
  · exact h.of_eq rfl rfl rfl
  · split <;> exact h.of_eq rfl rfl rfl

/-- Parameters that repeat a name are refused. -/
theorem Distinct.declareAll (p : Parameters) : (a.declareAll p).Distinct := by
  have hdeclare (names : List String) {b : Assembly} (hb : b.Distinct) :
      (names.foldl declare b).Distinct := by
    induction names generalizing b with
    | nil => exact hb
    | cons s names ih =>
        refine ih ?_
        unfold declare
        split
        · exact hb.of_eq rfl rfl rfl
        · exact hb.internVariable s
  rw [declareAll_eq]
  split
  · exact h.of_eq rfl rfl rfl
  · exact hdeclare p.names (h.of_eq rfl rfl rfl)

/-- A request leaves pools without repetitions. -/
theorem Distinct.perform (r : Request) : (a.perform r).1.Distinct := by
  -- jumps and labels do not touch the pools
  cases r with
  | parameters p => exact h.declareAll p
  | const c => exact h.internConst c
  | name s => exact h.internName s
  | slot s => exact h.internVariable s
  | emit opcode arg => exact h.emit opcode arg
  | emitName opcode s => exact (h.internName s).emit opcode _
  | emitSlot opcode s => exact (h.internVariable s).emit opcode _
  | jump opcode s =>
      show (a.emitJump opcode s).Distinct
      unfold emitJump
      split
      · split <;> exact h.of_eq rfl rfl rfl
      · exact h.of_eq rfl rfl rfl
  | label s =>
      show (a.place s).Distinct
      unfold place
      split <;> exact h.of_eq rfl rfl rfl
  | loadConst c => exact (h.internConst c).emit Opcode.loadConst.number _

/-- So does a series of requests. -/
theorem Distinct.performAll (requests : List Request) : (a.performAll requests).Distinct := by
  induction requests generalizing a with
  | nil => exact h
  | cons r rs ih => exact ih (h.perform r)

end

/-- Positions in a pool without repetitions are the same when their entries are. -/
theorem index_iff {pool : Array String} (h : pool.toList.Nodup) {i j : Nat} {s t : String}
    (hi : pool[i]? = some s) (hj : pool[j]? = some t) : i = j ↔ s = t := by
  constructor
  · rintro rfl
    exact Option.some.inj (hi.symm.trans hj)
  · rintro rfl
    rw [← Array.getElem?_toList] at hi hj
    exact (List.getElem?_inj (List.getElem?_eq_some_iff.mp hi).1 h).mp (hi.trans hj.symm)

/-! ## Declared parameters -/

section

variable {a b : Assembly} {p : Parameters} (h : a.Declared p)
include h

/-- Parameters stay declared when variables are added behind them. -/
theorem Declared.of_grows (hgrows : a.Grows b)
    (hcounts : b.positionalOnly = a.positionalOnly ∧ b.positional = a.positional ∧
      b.keywordOnly = a.keywordOnly ∧ b.flags = a.flags) : b.Declared p where
  positionalOnly := hcounts.1.trans h.positionalOnly
  positional := hcounts.2.1.trans h.positional
  keywordOnly := hcounts.2.2.1.trans h.keywordOnly
  flags := hcounts.2.2.2.trans h.flags
  leading := h.leading.trans hgrows.variableNames

theorem Declared.emit (opcode : UInt8) (arg : Int) : (a.emit opcode arg).Declared p := by
  refine h.of_grows (grows_emit a opcode arg) ?_
  unfold Assembly.emit
  split
  · exact ⟨rfl, rfl, rfl, rfl⟩
  · exact ⟨rfl, rfl, rfl, rfl⟩
  · split <;> exact ⟨rfl, rfl, rfl, rfl⟩

theorem Declared.internConst (c : Const) : (a.internConst c).1.Declared p := by
  refine h.of_grows (grows_internConst a c) ?_
  rcases a.internConst_cases c with ⟨message, heq⟩ | ⟨k, -, ⟨i, -, heq⟩ | heq⟩ <;> rw [heq] <;>
    exact ⟨rfl, rfl, rfl, rfl⟩

theorem Declared.internName (s : String) : (a.internName s).1.Declared p :=
  h.of_grows (grows_internName a s) ⟨rfl, rfl, rfl, rfl⟩

theorem Declared.internVariable (s : String) : (a.internVariable s).1.Declared p :=
  h.of_grows (grows_internVariable a s) ⟨rfl, rfl, rfl, rfl⟩

/-- A request for anything but parameters leaves the declared ones as they are. -/
theorem Declared.perform {r : Request} (hr : ∀ p', r ≠ .parameters p') :
    (a.perform r).1.Declared p := by
  -- every other request only adds to the names, after the parameters
  cases r with
  | parameters p' => exact absurd rfl (hr p')
  | const c => exact h.internConst c
  | name s => exact h.internName s
  | slot s => exact h.internVariable s
  | emit opcode arg => exact h.emit opcode arg
  | emitName opcode s => exact (h.internName s).emit opcode _
  | emitSlot opcode s => exact (h.internVariable s).emit opcode _
  | jump opcode s =>
      refine h.of_grows (grows_emitJump a opcode s) ?_
      show (a.emitJump opcode s).positionalOnly = _ ∧ (a.emitJump opcode s).positional = _ ∧
        (a.emitJump opcode s).keywordOnly = _ ∧ (a.emitJump opcode s).flags = _
      unfold emitJump
      split
      · split <;> exact ⟨rfl, rfl, rfl, rfl⟩
      · exact ⟨rfl, rfl, rfl, rfl⟩
  | label s =>
      refine h.of_grows (grows_place a s) ?_
      show (a.place s).positionalOnly = _ ∧ (a.place s).positional = _ ∧
        (a.place s).keywordOnly = _ ∧ (a.place s).flags = _
      unfold place
      split <;> exact ⟨rfl, rfl, rfl, rfl⟩
  | loadConst c => exact (h.internConst c).emit Opcode.loadConst.number _

/-- So does a series of requests. -/
theorem Declared.performAll {requests : List Request}
    (hrequests : ∀ p', .parameters p' ∉ requests) : (a.performAll requests).Declared p := by
  induction requests generalizing a with
  | nil => exact h
  | cons r rs ih =>
      refine ih (h.perform ?_) fun p' hmem => hrequests p' (List.mem_cons_of_mem r hmem)
      rintro p' rfl
      exact hrequests p' List.mem_cons_self

end

/-! ## Answers -/

/-- A position that is answered to one of the requests. -/
def Answers (start : Assembly) (requests : List Request) (r : Request) (i : Nat) : Prop :=
  ∃ before after, requests = before ++ r :: after ∧
    ((start.performAll before).perform r).2 = some i

/-- A code object in whose pools answered positions hold what was asked for: equal positions equal
entries, and equal entries equal positions. Constants stand in their normal form, and only scalars
are shared; doubles are equal when their bits are. The parameters are those that were declared
last. -/
structure Interned (start : Assembly) (requests : List Request) (c : Code) : Prop where
  const : ∀ v i, Answers start requests (.const v) i →
    ∃ k, v.normalize = .ok k ∧ c.constants[i]? = some k
  name : ∀ s i, Answers start requests (.name s) i → c.names[i]? = some s
  slot : ∀ s i, Answers start requests (.slot s) i → c.variableNames[i]? = some s
  const_iff : ∀ v w k l i j, Answers start requests (.const v) i →
    Answers start requests (.const w) j → v.normalize = .ok k → w.normalize = .ok l →
    k.isScalar = true → l.isScalar = true → (i = j ↔ k = l)
  name_iff : ∀ s t i j, Answers start requests (.name s) i → Answers start requests (.name t) j →
    (i = j ↔ s = t)
  slot_iff : ∀ s t i j, Answers start requests (.slot s) i → Answers start requests (.slot t) j →
    (i = j ↔ s = t)
  parameters : ∀ before p after, requests = before ++ .parameters p :: after →
    (∀ p', .parameters p' ∉ after) →
    c.parameterNames = .ok ⟨p.positionalOnly, p.positional, p.keywordOnly⟩ ∧
      c.restName = .ok p.rest? ∧ c.keywordsName = .ok p.keywords?

section

variable {start : Assembly} {requests : List Request}
  (hclean : (start.performAll requests).mistakes = [])

/-- An answer about a name stays true. -/
theorem Answers.name {s : String} {i : Nat} (h : Answers start requests (.name s) i) :
    (start.performAll requests).names[i]? = some s := by
  obtain ⟨before, after, rfl, hi⟩ := h
  obtain rfl := Option.some.inj hi
  rw [performAll_append, performAll_cons]
  exact getElem?_of_leading (grows_performAll _ after).names (getElem?_intern _ s)

/-- An answer about a variable stays true. -/
theorem Answers.slot {s : String} {i : Nat} (h : Answers start requests (.slot s) i) :
    (start.performAll requests).variableNames[i]? = some s := by
  obtain ⟨before, after, rfl, hi⟩ := h
  obtain rfl := Option.some.inj hi
  rw [performAll_append, performAll_cons]
  exact getElem?_of_leading (grows_performAll _ after).variableNames (getElem?_intern _ s)

include hclean in
/-- An answer about a constant that was not refused stays true. -/
theorem Answers.const {v : Const} {i : Nat} (h : Answers start requests (.const v) i) :
    ∃ k, v.normalize = .ok k ∧ (start.performAll requests).constants[i]? = some k := by
  obtain ⟨before, after, hsplit, hi⟩ := h
  obtain rfl := Option.some.inj hi
  obtain ⟨hgrows, hbefore⟩ := clean_before hclean hsplit
  obtain ⟨k, hk, hat⟩ := getElem?_internConst hbefore
  exact ⟨k, hk, getElem?_of_leading hgrows.constants hat⟩

end

/-- What is assembled has the answered positions in its pools, and declares the last parameters. A
list of names in memory is shorter than the largest count. -/
theorem interned_of_assemble {name file id : String} {requests : List Request} {serial : Nat}
    {c : Code} (h : ((blank name file id).performAll requests).assemble serial = .ok c)
    (hsize : c.variableNames.length < 2 ^ 63) : Interned (blank name file id) requests c := by
  have hclean := (clean_of_assemble h).1
  have hdistinct := (distinct_blank name file id).performAll requests
  obtain ⟨bytes, -, rfl, -⟩ := validate_of_assemble h
  obtain ⟨-, -, hconstants, hnames, hvariables⟩ :=
    code_eq ((blank name file id).performAll requests) serial bytes
  -- the pools of the code object are those of the requests, by position
  refine ⟨fun v i hv => ?_, fun s i hs => ?_, fun s i hs => ?_,
    fun v w k l i j hv hw hk hl hscalar _ => ?_,
    fun s t i j hs ht => index_iff hdistinct.names hs.name ht.name,
    fun s t i j hs ht => index_iff hdistinct.variableNames hs.slot ht.slot,
    fun before p after hsplit hlast => ?_⟩
  · rw [hconstants, Array.getElem?_toList]
    exact hv.const hclean
  · rw [hnames, Array.getElem?_toList]
    exact hs.name
  · rw [hvariables, Array.getElem?_toList]
    exact hs.slot
  · obtain ⟨k', hk', hi⟩ := hv.const hclean
    obtain ⟨l', hl', hj⟩ := hw.const hclean
    obtain rfl := Except.ok.inj (hk'.symm.trans hk)
    obtain rfl := Except.ok.inj (hl'.symm.trans hl)
    -- equal constants have one position since a pool has no scalar twice
    constructor
    · rintro rfl
      exact Option.some.inj (hi.symm.trans hj)
    · rintro rfl
      exact hdistinct.scalars i j _ hi hj hscalar
  · have hdeclared : ((blank name file id).performAll requests).Declared p := by
      rw [hsplit, performAll_append, performAll_cons]
      exact (declared_declareAll (clean_before hclean hsplit).2).performAll hlast
    rw [hvariables, Array.length_toList] at hsize
    obtain ⟨-, hdeclares⟩ := hdeclared.declares hdistinct.variableNames hsize serial bytes
    exact ⟨hdeclares.parameterNames_eq, hdeclares.restName_eq, hdeclares.keywordsName_eq⟩

/-- Entries of different kinds with the same text or number stay apart, and locals come behind the
parameters. -/
theorem interned_of_assemble_kinds :
    let requests : List Request := [.parameters { positional := ["x"], rest? := some "xs" },
      .const (.int 1), .const (.bool true), .const (.str "1"), .const (.float 1),
      .const (.foreign (.int "int" 1)), .slot "y", .slot "x", .name "x",
      .emit Opcode.returnValue.number 0]
    ∃ c, ((blank "m" "" "m").performAll requests).assemble 0 = .ok c ∧
      c.variableNames.length < 2 ^ 63 ∧ Interned (blank "m" "" "m") requests c := by
  intro requests
  have hok : (((blank "m" "" "m").performAll requests).assemble 0).toOption.map
      (·.variableNames) = some ["x", "xs", "y"] := by cbv
  cases hassemble : ((blank "m" "" "m").performAll requests).assemble 0 with
  | error e =>
      rw [hassemble] at hok
      cases hok
  | ok c =>
      rw [hassemble] at hok
      have hvariables : c.variableNames = ["x", "xs", "y"] := Option.some.inj hok
      have hsize : c.variableNames.length < 2 ^ 63 := by simp [hvariables]
      exact ⟨c, rfl, hsize, interned_of_assemble hassemble hsize⟩

end Wordcode.Assembly
