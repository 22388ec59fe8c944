import Wordcode.Machine
import Wordcode.Proofs.Sequence
import Mathlib

namespace Wordcode

/-! # Failures without a trace

Only frames write traces. What fails while code is prepared, while arguments are bound or while a
format is applied has no trace yet.

* `Failure.Untraced` is this property of a failure, and `FailsUntraced` that of a computation that
  may fail.
* There is one rule for each way of putting computations together. The lemmas about the computations
  of the machine follow from these rules by going through the definitions.
-/

/-- A failure whose fault, if it has one, no frame has recorded. -/
def Failure.Untraced (e : Failure) : Prop := ∀ f, e.fault? = some f → f.trace = []

namespace Failure

@[grind ←]
theorem untraced_raise (kind : Fault.Kind) (message : String) : (raise kind message).Untraced := by
  intro f h
  cases h
  rfl

@[grind ←]
theorem untraced_malformed (name message : String) : (malformed name message).Untraced :=
  untraced_raise .malformedCode _

@[grind ←]
theorem untraced_wrap (kind : Fault.Kind) (cause : Failure) : (wrap kind cause).Untraced := by
  intro f h
  cases h
  rfl

@[grind ←]
theorem untraced_plain (text : String) : (plain text).Untraced := by
  intro f h
  cases h

theorem untraced_of_not_isError {e : Failure} (h : e.isError = false) : e.Untraced := by
  intro f hf
  cases e with
  | crash | exhausted => cases hf
  | fault | plain | within => simp [isError] at h

@[grind ←]
theorem untraced_crash : crash.Untraced := untraced_of_not_isError rfl

@[grind ←]
theorem untraced_exhausted : exhausted.Untraced := untraced_of_not_isError rfl

@[grind ←]
theorem Untraced.within {e : Failure} (h : e.Untraced) (label : String) :
    (within label e).Untraced := h

end Failure

/-! ## Computations that may fail -/

/-- A computation that only fails untraced. -/
def FailsUntraced {α : Type} (x : Except Failure α) : Prop := ∀ e, x = .error e → e.Untraced

section

variable {α β : Type}

@[grind ←]
theorem failsUntraced_ok (a : α) : FailsUntraced (.ok a) := onlyFails_ok a

@[grind ←]
theorem failsUntraced_pure (a : α) : FailsUntraced (pure a) := failsUntraced_ok a

@[grind ←]
theorem failsUntraced_error {e : Failure} (h : e.Untraced) :
    FailsUntraced (.error e : Except Failure α) := onlyFails_error h

@[grind ←]
theorem failsUntraced_throw {e : Failure} (h : e.Untraced) :
    FailsUntraced (throw e : Except Failure α) := failsUntraced_error h

@[grind ←]
theorem FailsUntraced.bind {x : Except Failure α} {k : α → Except Failure β}
    (hx : FailsUntraced x) (hk : ∀ a, FailsUntraced (k a)) : FailsUntraced (x >>= k) :=
  OnlyFails.bind hx hk

@[grind ←]
theorem FailsUntraced.map {x : Except Failure α} (hx : FailsUntraced x) (f : α → β) :
    FailsUntraced (f <$> x) := OnlyFails.map hx f

@[grind ←]
theorem FailsUntraced.exceptMap {x : Except Failure α} (hx : FailsUntraced x) (f : α → β) :
    FailsUntraced (x.map f) := hx.map f

theorem failsUntraced_foldlM {f : β → α → Except Failure β} {as : List α}
    (h : ∀ a ∈ as, ∀ b, FailsUntraced (f b a)) (b : β) : FailsUntraced (as.foldlM f b) :=
  onlyFails_foldlM h b

theorem failsUntraced_mapM {f : α → Except Failure β} (h : ∀ a, FailsUntraced (f a))
    (as : List α) : FailsUntraced (as.mapM f) := onlyFails_mapM h as

theorem failsUntraced_array_mapM {f : α → Except Failure β} (h : ∀ a, FailsUntraced (f a))
    (as : Array α) : FailsUntraced (as.mapM f) := onlyFails_array_mapM h as

end

/-! ### Keys, indices and slices -/

mutual

theorem failsUntraced_hash : (v : Value) → FailsUntraced v.hash
  | .tuple items _ => by
      rw [Value.hash]
      exact (failsUntraced_hashItems items).exceptMap HashKey.tuple
  | .host ⟨_, convention⟩ => by
      cases convention <;> grind [Value.hash]
  | .none | .bool _ | .int _ | .float .. | .str .. | .range .. | .slice .. | .list _ | .dict _
  | .iterator _ | .function .. | .code .. | .method .. | .builtin _ => by grind [Value.hash]

theorem failsUntraced_hashItems : (vs : List Value) → FailsUntraced (Value.hashItems vs)
  | [] => failsUntraced_ok ""
  | v :: vs => by
      rw [Value.hashItems]
      exact (failsUntraced_hash v).bind fun key => (failsUntraced_hashItems vs).bind fun text =>
        failsUntraced_pure _

end

@[grind ←]
theorem failsUntraced_indexOf (v : Value) (what : String) : FailsUntraced (indexOf v what) := by
  unfold indexOf
  grind

@[grind ←]
theorem failsUntraced_resolveIndex (index length : Int64) (what : String) :
    FailsUntraced (resolveIndex index length what) := by
  unfold resolveIndex
  grind

namespace Slice

@[grind ←]
theorem failsUntraced_stepOf (step : Value) : FailsUntraced (stepOf step) := by
  unfold stepOf
  grind

@[grind ←]
theorem failsUntraced_boundOf (bound : Value) (fallback lower upper length : Int64) :
    FailsUntraced (boundOf bound fallback lower upper length) := by
  unfold boundOf
  grind

@[grind ←]
theorem failsUntraced_positions (start stop step : Value) (length : Int64) :
    FailsUntraced (positions start stop step length) := by
  unfold positions
  grind

@[grind ←]
theorem failsUntraced_indices (start stop step : Value) (length : Int) :
    FailsUntraced (indices start stop step length) := by
  unfold indices
  grind

@[grind ←]
theorem failsUntraced_select {α : Type} (items : List α) (start stop step : Value) :
    FailsUntraced (select items start stop step) := by
  unfold select
  grind

@[grind ←]
theorem failsUntraced_clamp (bound : Value) (fallback length : Nat) :
    FailsUntraced (clamp bound fallback length) := by
  unfold clamp
  grind

@[grind ←]
theorem failsUntraced_assign (items : List Value) (start stop step : Value)
    (values : List Value) : FailsUntraced (assign items start stop step values) := by
  unfold assign
  grind

@[grind ←]
theorem failsUntraced_delete (items : List Value) (start stop step : Value) :
    FailsUntraced (delete items start stop step) := by
  unfold delete
  grind

end Slice

/-! ### The stack -/

namespace Stack

@[grind ←]
theorem failsUntraced_pop (s : Stack) : FailsUntraced s.pop := by
  unfold pop underflow
  grind

@[grind ←]
theorem failsUntraced_peek (s : Stack) (depth : Int) : FailsUntraced (s.peek depth) := by
  unfold peek underflow
  grind

@[grind ←]
theorem failsUntraced_popMany (s : Stack) (count : Int) : FailsUntraced (s.popMany count) := by
  unfold popMany underflow
  grind

end Stack

/-! ### Decoding -/

@[grind ←]
theorem failsUntraced_step (name : String) (s : Scan) (unit : UInt8 × UInt8) :
    FailsUntraced (s.step name unit) := by
  unfold Scan.step
  grind

@[grind ←]
theorem failsUntraced_scan (name : String) (bytes : List UInt8) :
    FailsUntraced (scan name bytes) := by
  have hsteps : FailsUntraced ((unitsOf bytes).foldlM (Scan.step name) {}) :=
    failsUntraced_foldlM (fun unit _ s => failsUntraced_step name s unit) {}
  unfold scan
  grind

namespace Pools

@[grind ←]
theorem failsUntraced_entry {α : Type} (p : Pools) (pool : Array α) (what : String)
    (i : RawInstruction) : FailsUntraced (p.entry pool what i) := by
  unfold entry
  grind

@[grind ←]
theorem failsUntraced_jump (p : Pools) (target : Nat) (i : RawInstruction) :
    FailsUntraced (p.jump target i) := by
  unfold jump
  grind

@[grind ←]
theorem failsUntraced_operand (p : Pools) (i : RawInstruction) :
    FailsUntraced (p.operand i) := by
  unfold operand
  grind

@[grind ←]
theorem failsUntraced_resolve (p : Pools) (i : RawInstruction) : FailsUntraced (p.resolve i) := by
  unfold resolve
  grind

end Pools

@[grind ←]
theorem failsUntraced_decode (c : Code) : FailsUntraced c.decode := by
  unfold Code.decode
  exact (failsUntraced_scan c.name c.instructions).bind fun raw =>
    (failsUntraced_array_mapM (Pools.failsUntraced_resolve _) raw).bind fun instructions =>
      failsUntraced_pure _

/-! ### Binding arguments -/

@[grind ←]
theorem failsUntraced_variablesBetween (c : Code) (start stop : Int64) :
    FailsUntraced (c.variablesBetween start stop) := by
  unfold Code.variablesBetween
  grind

@[grind ←]
theorem failsUntraced_variableAt (c : Code) (i : Int64) : FailsUntraced (c.variableAt i) := by
  unfold Code.variableAt
  grind

@[grind ←]
theorem failsUntraced_parameterNames (c : Code) : FailsUntraced c.parameterNames := by
  unfold Code.parameterNames
  grind

@[grind ←]
theorem failsUntraced_restName (c : Code) : FailsUntraced c.restName := by
  unfold Code.restName
  grind

@[grind ←]
theorem failsUntraced_keywordsName (c : Code) : FailsUntraced c.keywordsName := by
  unfold Code.keywordsName
  grind

namespace Call

@[grind ←]
theorem failsUntraced_namedArguments (c : Call) : FailsUntraced c.namedArguments := by
  unfold namedArguments
  refine failsUntraced_mapM (fun e => ?_) c.keywords
  grind

theorem failsUntraced_fill {o : Opening} (ho : o.missing.Untraced) (p : Progress) :
    FailsUntraced (p.fill o) := by
  unfold Progress.fill
  grind

@[grind ←]
theorem failsUntraced_settle (c : Call) (names : Code.ParameterNames) (keywords? : Option String)
    (p : Progress) : FailsUntraced (c.settle names keywords? p) := by
  unfold settle unexpected
  grind

theorem failsUntraced_positionalOpenings (c : Call) (names : Code.ParameterNames) (p : Progress) :
    FailsUntraced ((c.positionalOpenings names).foldlM Progress.fillOpen p) := by
  refine failsUntraced_foldlM (fun o ho p => ?_) p
  obtain ⟨⟨name, i⟩, -, rfl⟩ := List.mem_map.mp ho
  have hfill := failsUntraced_fill (o := c.positionalOpening names name i)
    (Failure.untraced_raise _ _) p
  unfold Progress.fillOpen
  grind

theorem failsUntraced_keywordOpenings (c : Call) (names : Code.ParameterNames) (p : Progress) :
    FailsUntraced ((c.keywordOpenings names).foldlM Progress.fill p) := by
  refine failsUntraced_foldlM (fun o ho p => ?_) p
  obtain ⟨name, -, rfl⟩ := List.mem_map.mp ho
  exact failsUntraced_fill (Failure.untraced_raise _ _) p

@[grind ←]
theorem failsUntraced_plan (c : Call) : FailsUntraced c.plan := by
  have hpositional := failsUntraced_positionalOpenings c
  have hkeyword := failsUntraced_keywordOpenings c
  unfold plan
  refine (failsUntraced_parameterNames _).bind fun names => ?_
  refine (failsUntraced_namedArguments c).bind fun unused => ?_
  have hchecked (rest? : Option String) : FailsUntraced
      ((c.positionalOpenings names).foldlM Progress.fillOpen ⟨c.collected names rest?, unused⟩ >>=
        fun filled => (c.keywordOpenings names).foldlM Progress.fill filled >>=
          fun all => c.function.code.keywordsName >>= fun name? => c.settle names name? all) := by
    grind
  unfold excessDefaults excess
  grind

end Call

/-! ### Format specifications -/

namespace Spec

@[grind ←]
theorem failsUntraced_parsePrecision (s : Spec) (cs : List Char) :
    FailsUntraced (parsePrecision s cs) := by
  unfold parsePrecision
  grind

@[grind ←]
theorem failsUntraced_parse (text : String) : FailsUntraced (parse text) := by
  unfold parse
  grind

@[grind ←]
theorem failsUntraced_pad (s : Spec) (align : Align) (sign body : List Char) :
    FailsUntraced (pad s align sign body) := by
  unfold pad
  grind

@[grind ←]
theorem failsUntraced_unknownType {α : Type} (c : Char) (typeName : String) :
    FailsUntraced (unknownType c typeName : Except Failure α) := by
  unfold unknownType
  grind

@[grind ←]
theorem failsUntraced_formatStr (s : Spec) (text : String) :
    FailsUntraced (s.formatStr text) := by
  unfold formatStr
  grind

@[grind ←]
theorem failsUntraced_floatBody (s : Spec) (x : Float) : FailsUntraced (s.floatBody x) := by
  unfold floatBody
  grind

@[grind ←]
theorem failsUntraced_formatFloat (s : Spec) (x : Float) : FailsUntraced (s.formatFloat x) := by
  unfold formatFloat
  grind

@[grind ←]
theorem failsUntraced_formatInt (s : Spec) (n : Int64) : FailsUntraced (s.formatInt n) := by
  unfold formatInt
  repeat' split
  all_goals grind

end Spec

end Wordcode
