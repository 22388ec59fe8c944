import Wordcode.Proofs.Artifacts
import Wordcode.Proofs.Sequence
import Mathlib

namespace Wordcode

/-! # Doubles in artifacts

The doubles of a code object, wherever they stand in its constants, come back from an artifact with
their bits. The negative zero is the exception: it is left out as a zero is, and a field that is
left out is the positive zero.

* `Const.at?` is the constant at a position, inside tuples and nested code objects too.
* `Artifact.keeps_of_toCode`: doubles are restored at their positions, whatever else is.
* `Code.floats_of_ofArtifact` puts this together with what is known to come back at all.
* `Code.negativeZero_lost` is the exception.
-/

/-! ## Positions -/

namespace Const

/-- The constants that a constant is made of: the items of a tuple or the pool of a code object. -/
def parts : Const → List Const
  | .code c => c.constants
  | .tuple items => items
  | _ => []

/-- The constant at a position, which is an index for each level, outermost first. -/
def at? : List Nat → Const → Option Const
  | [], k => some k
  | i :: path, k => k.parts[i]?.bind (at? path)

mutual

/-- What holds of a constant when it holds of its parts holds of every constant. -/
theorem induct_parts {P : Const → Prop} (step : ∀ k, (∀ p ∈ k.parts, P p) → P k) : (k : Const) → P k
  | .tuple items => step _ (induct_partsIn step items)
  | .code { constants := cs, .. } => step _ (induct_partsIn step cs)
  | .none | .bool _ | .int _ | .float _ | .str _ | .stray _ | .noCode | .array _ | .foreign _ =>
      step _ (by simp [parts])

theorem induct_partsIn {P : Const → Prop} (step : ∀ k, (∀ p ∈ k.parts, P p) → P k) :
    (ks : List Const) → ∀ k ∈ ks, P k
  | [] => by simp
  | k :: ks => List.forall_mem_cons.mpr ⟨induct_parts step k, induct_partsIn step ks⟩

end

end Const

namespace Artifact

open Code

section

variable {f : UInt64 → UInt64}

/-- A constant that is recorded and restored, with the doubles of the record mapped, as another
constant. -/
def Rereads (f : UInt64 → UInt64) (k k' : Const) : Prop :=
  ∃ r n n', ofConst k = .ok r ∧ toConst (mapConst f r) n = .ok (k', n')

/-! ## Recording -/

/-- A pool is recorded as the items of a tuple are. -/
theorem ofItems_of_ofConsts {name : String} {i : Nat} {ks : List Const} {rs : List ConstRecord}
    (h : ofConsts name i ks = .ok rs) : ofItems ks = .ok rs := by
  induction ks generalizing i rs with
  | nil => rwa [ofConsts] at h
  | cons k ks ih =>
      rw [ofConsts] at h
      split at h
      · rename_i r hr
        obtain ⟨rest, hrest, hrs⟩ := except_bind_eq_ok h
        rw [ofItems, hr, ih hrest]
        exact hrs
      · cases h
      · cases h

/-- The record of a code object has those of its constants. -/
theorem exists_ofItems {c : Code} {r : CodeRecord} (h : ofCode c = .ok r) :
    ∃ rs, ofItems c.constants = .ok rs ∧ r = codeRecord c rs := by
  cases c with
  | mk =>
      rw [ofCode] at h
      obtain ⟨rs, hrs, hr⟩ := except_bind_eq_ok h
      exact ⟨rs, ofItems_of_ofConsts hrs, (Except.ok.inj hr).symm⟩

/-! ## Restoring -/

/-- A reading of which only the failure is put in other words. -/
theorem eq_ok_of_tryCatch {α : Type} {x : Build α} {label : Failure → Failure} {n : Nat}
    {r : α × Nat} (h : tryCatch x (fun e => throw (label e)) n = .ok r) : x n = .ok r := by
  have hcatch : tryCatch (x n) (fun e => throw (label e)) = .ok r := h
  cases hx : x n with
  | error e =>
      rw [hx] at hcatch
      cases hcatch
  | ok r' =>
      rw [hx] at hcatch
      exact hcatch

/-- A pool is restored as the items of a tuple are. -/
theorem toItems_of_toConsts {name : String} {i : Nat} {rs : List ConstRecord} {ks : List Const}
    {n n' : Nat} (h : toConsts name i rs n = .ok (ks, n')) : toItems rs n = .ok (ks, n') := by
  induction rs generalizing i n ks n' with
  | nil => rwa [toConsts] at h
  | cons r rs ih =>
      rw [toConsts] at h
      obtain ⟨k, m, hfirst, h⟩ := stateT_bind_eq_ok h
      obtain ⟨ks', m', hrest, h⟩ := stateT_bind_eq_ok h
      rw [toItems, stateT_bind_of_ok (eq_ok_of_tryCatch hfirst), stateT_bind_of_ok (ih hrest)]
      exact h

/-- The constants of a code object are restored from those of its record. -/
theorem toItems_of_toCode {r : CodeRecord} {c : Code} {n n' : Nat} (h : toCode r n = .ok (c, n')) :
    ∃ m, toItems r.constants n = .ok (c.constants, m) := by
  cases r with
  | mk =>
      rw [toCode] at h
      obtain ⟨ks, m, hconstants, h⟩ := stateT_bind_eq_ok h
      obtain ⟨serial, m', hserial, h⟩ := stateT_bind_eq_ok h
      cases h
      exact ⟨m, toItems_of_toConsts hconstants⟩

/-- Constants are recorded and restored one by one. -/
theorem rereads_items {ks ks' : List Const} {rs : List ConstRecord} {n n' : Nat}
    (hwrite : ofItems ks = .ok rs) (hread : toItems (mapConsts f rs) n = .ok (ks', n')) {i : Nat}
    {k : Const} (hk : ks[i]? = some k) : ∃ k', ks'[i]? = some k' ∧ Rereads f k k' := by
  induction ks generalizing rs ks' n n' i with
  | nil => simp at hk
  | cons k₀ ks ih =>
      rw [ofItems] at hwrite
      obtain ⟨r, hr, hwrite⟩ := except_bind_eq_ok hwrite
      obtain ⟨rs', hrs, hwrite⟩ := except_bind_eq_ok hwrite
      cases hwrite
      rw [mapConsts, toItems] at hread
      obtain ⟨k', m, hfirst, hread⟩ := stateT_bind_eq_ok hread
      obtain ⟨ks'', m', hrest, hread⟩ := stateT_bind_eq_ok hread
      cases hread
      -- the numbers handed out to code objects run on from item to item
      cases i with
      | zero =>
          cases hk
          exact ⟨k', rfl, r, n, m, hr, hfirst⟩
      | succ i => exact ih hrs hrest hk

/-- The constants of a code object that is recorded and restored. -/
theorem rereads_constants {c c' : Code} {r : CodeRecord} {n n' : Nat} (hwrite : ofCode c = .ok r)
    (hread : toCode (mapCode f r) n = .ok (c', n')) {i : Nat} {k : Const}
    (hk : c.constants[i]? = some k) : ∃ k', c'.constants[i]? = some k' ∧ Rereads f k k' := by
  obtain ⟨rs, hrs, rfl⟩ := exists_ofItems hwrite
  obtain ⟨m, hconstants⟩ := toItems_of_toCode hread
  exact rereads_items hrs hconstants hk

theorem eq_of_rereads_float {x : UInt64} {k : Const} (h : Rereads f (.float x) k) :
    k = .float (f x) := by
  obtain ⟨r, n, n', hwrite, hread⟩ := h
  rw [ofConst] at hwrite
  cases hwrite
  cases hread
  rfl

/-- The parts of a constant that is recorded and restored. -/
theorem rereads_parts {k k' : Const} (h : Rereads f k k') (i : Nat) (p : Const)
    (hp : k.parts[i]? = some p) : ∃ p', k'.parts[i]? = some p' ∧ Rereads f p p' := by
  obtain ⟨r, n, n', hwrite, hread⟩ := h
  -- only tuples and code objects have parts
  cases k with
  | tuple ks =>
      rw [ofConst] at hwrite
      obtain ⟨rs, hrs, hr⟩ := except_bind_eq_ok hwrite
      cases hr
      rw [mapConst, toConst] at hread
      obtain ⟨ks', m, hks', hread⟩ := stateT_bind_eq_ok hread
      cases hread
      exact rereads_items hrs hks' hp
  | code c =>
      rw [ofConst] at hwrite
      obtain ⟨codeRecord, hcode, hr⟩ := except_bind_eq_ok hwrite
      cases hr
      rw [mapConst, mapCode?, toConst] at hread
      obtain ⟨c', m, hc', hread⟩ := stateT_bind_eq_ok hread
      cases hread
      exact rereads_constants hcode hc' hp
  | none | bool | int | float | str | stray | noCode | array | foreign =>
      simp [Const.parts] at hp

/-- Every double in a constant comes back at its position. -/
def Keeps (f : UInt64 → UInt64) (k k' : Const) : Prop :=
  ∀ path x, k.at? path = some (.float x) → k'.at? path = some (.float (f x))

/-- Doubles come back in a constant that is recorded and restored. -/
theorem keeps_of_rereads {k k' : Const} (h : Rereads f k k') : Keeps f k k' := by
  intro path x hat
  -- each index of the path leads to parts that are recorded and restored in their turn
  induction path generalizing k k' with
  | nil =>
      cases hat
      rw [eq_of_rereads_float h]
      rfl
  | cons i path ih =>
      obtain ⟨p, hp, hat⟩ := Option.bind_eq_some_iff.mp hat
      obtain ⟨p', hp', hrelated⟩ := rereads_parts h i p hp
      exact Option.bind_eq_some_iff.mpr ⟨p', hp', ih hrelated hat⟩

/-- Doubles come back in a code object that is recorded and restored. -/
theorem keeps_of_toCode {c c' : Code} {r : CodeRecord} {n n' : Nat} (hwrite : ofCode c = .ok r)
    (hread : toCode (mapCode f r) n = .ok (c', n')) : Keeps f (.code c) (.code c') := by
  -- the code object is looked at as a constant, as if it were nested in another one
  refine keeps_of_rereads ⟨.mk "code" false 0 0 [] (some r) [], n, n', ?_, ?_⟩
  · rw [ofConst, hwrite]
    rfl
  · rw [mapConst, mapCode?, toConst, stateT_bind_of_ok hread]
    rfl

end

/-- What comes back is the code object of a record that is found in the bytes. -/
theorem exists_toCode {codec : Codec} {bytes : List UInt8} {c : Code} {n n' : Nat}
    (h : ofArtifact codec bytes n = .ok (c, n')) :
    ∃ a r, codec.decode? bytes = some a ∧ a.code? = some r ∧ toCode r n = .ok (c, n') := by
  unfold ofArtifact at h
  cases hdecode : codec.decode? bytes with
  | none =>
      simp only [hdecode] at h
      cases h
  | some a =>
      simp only [hdecode] at h
      split at h
      · cases h
      · cases hr : a.code? with
        | none =>
            simp only [hr] at h
            cases h
        | some r =>
            simp only [hr] at h
            obtain ⟨c₁, m, hcode, hvalid⟩ := stateT_bind_eq_ok h
            refine ⟨a, r, rfl, hr, ?_⟩
            -- validation only decides whether the code object is returned
            cases hvalidate : c₁.validate with
            | ok =>
                simp only [hvalidate] at hvalid
                cases hvalid
                exact hcode
            | error e =>
                simp only [hvalidate] at hvalid
                cases e <;> cases hvalid

end Artifact

namespace Code

open Artifact

/-- The bits that a double comes back with. -/
theorem restored_eq (x : UInt64) :
    restored x = if x = 0x8000000000000000 then 0 else x := by
  have hlt := x.toNat_lt
  unfold restored
  by_cases hx : x = 0x8000000000000000
  · rw [if_pos hx, hx]
    rfl
  · rw [if_neg hx]
    split
    · rename_i hzero
      -- all bits but the sign are zero, and the sign is clear
      have hmod : x.toNat % Decimal.signBit = 0 := of_decide_eq_true hzero
      have hne : x.toNat ≠ Decimal.signBit := fun h => hx (UInt64.toNat_inj.mp h)
      refine (UInt64.toNat_inj.mp ?_).symm
      show x.toNat = 0
      unfold Decimal.signBit at hmod hne
      omega
    · rfl

/-- Every double of a code object that is a number, wherever it stands in tuples and nested code
objects, stands in the same place of another one with the same bits. Only the negative zero has
become the positive one. -/
def FloatsReturn (c c' : Code) : Prop :=
  ∀ path x, (Const.code c).at? path = some (.float x) → Decimal.isNan x = false →
    (Const.code c').at? path = some (.float (if x = 0x8000000000000000 then 0 else x))

theorem floatsReturn_of_keeps {f : UInt64 → UInt64}
    (hf : ∀ x, Decimal.isNan x = false → f x = restored x) {c c' : Code}
    (h : Keeps f (.code c) (.code c')) : FloatsReturn c c' := by
  intro path x hat hx
  rw [h path x hat, hf x hx, restored_eq]

variable {codec : Codec}

/-- Doubles come back at their positions, whatever else comes back. -/
theorem floatsReturn_of_returns {c c' : Code} {r : CodeRecord} {a : Contents} {bytes : List UInt8}
    {n n' : Nat} (hwrite : ofCode c = .ok r) (hdecode : codec.decode? bytes = some a)
    (hreturns : Returns { version, code? := some r } a)
    (hread : ofArtifact codec bytes n = .ok (c', n')) : FloatsReturn c c' := by
  obtain ⟨f, hf, rfl⟩ := hreturns
  obtain ⟨a', r', hdecode', hr', hcode⟩ := exists_toCode hread
  obtain rfl := Option.some.inj (hdecode.symm.trans hdecode')
  rw [Contents.map, mapCode?] at hr'
  cases hr'
  exact floatsReturn_of_keeps hf (keeps_of_toCode hwrite hcode)

/-- Doubles survive in an artifact. Whenever a code object comes back from the bytes that it was
written as, its doubles have come back too. An accepted code object within the limits of codecs does
come back. -/
theorem floats_of_ofArtifact (hcodec : codec.Lawful) (c : Code) :
    (∀ bytes n c' n', c.toArtifact codec = .ok bytes → bytes.length < Word.modulus →
      ofArtifact codec bytes n = .ok (c', n') → FloatsReturn c c') ∧
    (c.validate = .ok () → c.Fits →
      ∃ bytes, c.toArtifact codec = .ok bytes ∧
        ∀ n, ∃ c' n', ofArtifact codec bytes n = .ok (c', n') ∧ FloatsReturn c c') := by
  constructor
  · -- whatever is read back comes from the record that was written
    intro bytes n c' n' hwrite hlength hread
    obtain ⟨r, hrecord, hbytes⟩ := except_bind_eq_ok hwrite
    cases hbytes
    obtain ⟨a, _, hdecode, -, -⟩ := exists_toCode hread
    exact floatsReturn_of_returns hrecord hdecode (hcodec.eq_of_decode? _ a hlength hdecode) hread
  · intro hvalid hfits
    obtain ⟨bytes, f, hwrite, -, hread⟩ := ofArtifact_toArtifact_floats hcodec hvalid hfits
    refine ⟨bytes, hwrite, fun n => ?_⟩
    obtain ⟨c', n', hc', -⟩ := hread n
    obtain ⟨r, hrecord, hbytes⟩ := except_bind_eq_ok hwrite
    cases hbytes
    obtain ⟨a, hdecode, hreturns⟩ := hcodec.decode?_encode _ (hfits r hrecord)
    exact ⟨c', n', hc', floatsReturn_of_returns hrecord hdecode hreturns hc'⟩

/-- Doubles of different widths in a tuple and in a nested code object. -/
theorem floats_of_ofArtifact_nested :
    let c : Code :=
      { name := "m",
        constants := [.tuple [.float 0x3FF8000000000000],
          .code { name := "f", constants := [.float 0x3FB999999999999A] }] }
    binary.Lawful ∧ ∃ bytes, c.toArtifact binary = .ok bytes ∧
      ∀ n, ∃ c' n', ofArtifact binary bytes n = .ok (c', n') ∧
        (Const.code c').at? [0, 0] = some (.float 0x3FF8000000000000) ∧
        (Const.code c').at? [1, 0] = some (.float 0x3FB999999999999A) := by
  intro c
  have hvalid : c.validate = .ok () := rfl
  have hfits : c.Fits := by
    intro r h
    cases h
    cbv
  obtain ⟨bytes, hwrite, hread⟩ := (floats_of_ofArtifact binary_lawful c).2 hvalid hfits
  refine ⟨binary_lawful, bytes, hwrite, fun n => ?_⟩
  obtain ⟨c', n', hc', hfloats⟩ := hread n
  exact ⟨c', n', hc', hfloats [0, 0] _ rfl (by decide), hfloats [1, 0] _ rfl (by decide)⟩

/-- A negative zero comes back with other bits. -/
theorem negativeZero_lost :
    let c : Code := { name := "m", constants := [.float 0x8000000000000000] }
    ∃ bytes, c.toArtifact binary = .ok bytes ∧
      ∀ n, ∃ c' n', ofArtifact binary bytes n = .ok (c', n') ∧
        ∃ x y, (Const.code c).at? [0] = some (.float x) ∧ Decimal.isNan x = false ∧
          (Const.code c').at? [0] = some (.float y) ∧ y ≠ x := by
  intro c
  have hvalid : c.validate = .ok () := rfl
  have hfits : c.Fits := by
    intro r h
    cases h
    cbv
  obtain ⟨bytes, f, hwrite, hf, hread⟩ := ofArtifact_toArtifact_floats binary_lawful hvalid hfits
  refine ⟨bytes, hwrite, fun n => ?_⟩
  obtain ⟨c', n', hc', hcontent⟩ := hread n
  have hconstants : contentIn c'.constants = [.float 0] := by
    have hpool := congrArg CodeOf.constants hcontent
    rw [content_eq, contentWith_eq] at hpool
    exact hpool.trans (congrArg (fun x => [Const.float x]) (hf 0x8000000000000000 (by decide)))
  refine ⟨c', n', hc', 0x8000000000000000, 0, rfl, by decide, ?_, by decide⟩
  -- all content is kept except the sign, so the pool is the single constant `0.0`
  cases hpool : c'.constants with
  | nil => simp [hpool, contentIn] at hconstants
  | cons k ks =>
      rw [hpool, contentIn, List.cons.injEq] at hconstants
      have hk : k = .float 0 := by
        cases k <;> simp [contentConst] at hconstants ⊢
        exact hconstants.1
      simp [Const.at?, Const.parts, hpool, hk]

end Code

end Wordcode
