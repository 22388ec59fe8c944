import Wordcode.Proofs.Parameters
import Mathlib

namespace Wordcode

/-! # Validation

When a code object is accepted: its own metadata is in order, and so is every code object nested in
its constants, however deep inside tuples it stands.

* `Code.validate_eq_ok_iff` splits acceptance into these two parts.
-/

/-- A code object of the pool that is there and is accepted. -/
def Code.Accepted (child : Option Code) : Prop := ∃ c, child = some c ∧ c.validate = .ok ()

theorem Const.childrenIn_eq (ks : List Const) :
    Const.children.childrenIn ks = ks.flatMap Const.children := by
  induction ks with
  | nil => rfl
  | cons k ks ih => simp [Const.children.childrenIn, ih]

theorem Const.unsupportedIn?_eq_none_iff {ks : List Const} :
    unsupported?.unsupportedIn? ks = Option.none ↔ ∀ k ∈ ks, k.unsupported? = Option.none := by
  induction ks with
  | nil => simp [unsupported?.unsupportedIn?]
  | cons k ks ih =>
      rw [unsupported?.unsupportedIn?, List.forall_mem_cons, ← ih]
      cases k.unsupported? <;> simp

namespace Code

/-- Problems found one after another are none exactly when each part has none. -/
theorem append_eq_ok_nil_iff {x y : Except Failure (List String)} :
    (do return (← x) ++ (← y)) = Except.ok [] ↔ x = .ok [] ∧ y = .ok [] := by
  cases x with
  | error e => simp [bind, Except.bind]
  | ok xs =>
      cases y with
      | error e => simp [bind, Except.bind]
      | ok ys => simp [bind, Except.bind, pure, Except.pure]

theorem problems_eq (c : Code) :
    problems c = do return (← ownProblems c) ++ (← problemsIn c.constants) := by
  cases c
  rw [problems]

theorem validate_eq_ok_iff_problems {c : Code} : c.validate = .ok () ↔ problems c = .ok [] := by
  unfold validate
  cases hproblems : problems c with
  | error e => simp [bind, Except.bind]
  | ok ps =>
      cases ps with
      | nil => simp [bind, Except.bind, pure, Except.pure]
      | cons p ps => simp [bind, Except.bind, throw, throwThe, MonadExceptOf.throw]

mutual

/-- A constant has no problems exactly when the code objects in it are accepted. -/
theorem problemsConst_eq_nil_iff : (k : Const) →
    (problemsConst k = .ok [] ↔ ∀ child ∈ k.children, Accepted child)
  | .code c => by
      rw [problemsConst, Const.children]
      simp only [List.mem_singleton, forall_eq, Accepted, Option.some.injEq, exists_eq_left']
      rw [validate_eq_ok_iff_problems]
      cases problems c with
      | error e => simp [bind, Except.bind]
      | ok ps => cases ps <;> simp [bind, Except.bind, pure, Except.pure]
  | .tuple items => by
      rw [problemsConst, Const.children, Const.childrenIn_eq]
      exact problemsIn_eq_nil_iff items
  | .noCode => by simp [problemsConst, Const.children, Accepted]
  | .none | .bool _ | .int _ | .float _ | .str _ | .stray _ | .array _ | .foreign _ => by
      simp [problemsConst, Const.children]

theorem problemsIn_eq_nil_iff : (ks : List Const) →
    (problemsIn ks = .ok [] ↔ ∀ child ∈ ks.flatMap Const.children, Accepted child)
  | [] => by simp [problemsIn]
  | k :: ks => by
      rw [problemsIn, append_eq_ok_nil_iff, problemsConst_eq_nil_iff k, problemsIn_eq_nil_iff ks]
      simp [or_imp, forall_and]

end

theorem validate_eq_ok_iff {c : Code} :
    c.validate = .ok () ↔ ownProblems c = .ok [] ∧ ∀ child ∈ c.children, Accepted child := by
  rw [validate_eq_ok_iff_problems, problems_eq, append_eq_ok_nil_iff, problemsIn_eq_nil_iff]
  rfl

/-- The metadata of one code object is in order. -/
theorem ownProblems_eq_nil_iff {c : Code} :
    ownProblems c = .ok [] ↔
      c.instructions.length % 2 = 0 ∧ c.parameterProblems = .ok [] ∧ c.flags &&& 0xF3 = 0 ∧
        ∀ k ∈ c.constants, k.unsupported? = none := by
  unfold ownProblems
  cases hparameters : c.parameterProblems with
  | error e => simp [bind, Except.bind]
  | ok ps =>
      have hconstants : (∀ k i, (k, i) ∈ c.constants.zipIdx → k.unsupported? = none) ↔
          ∀ k ∈ c.constants, k.unsupported? = none := by
        constructor
        · intro h k hk
          rcases List.mem_iff_getElem?.mp hk with ⟨i, hi⟩
          exact h k i (List.mem_zipIdx_iff_getElem?.mpr hi)
        · intro h k i hki
          exact h k (List.mem_iff_getElem?.mpr ⟨i, List.mem_zipIdx_iff_getElem?.mp hki⟩)
      simp [bind, Except.bind, pure, Except.pure, hconstants]

end Code

end Wordcode
