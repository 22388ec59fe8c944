import Wordcode.Listing
import Wordcode.Proofs.Requests
import Wordcode.Proofs.Sequence
import Wordcode.Source
import Mathlib

namespace Wordcode.Source

/-! # Lines of a source

What the lines of a source are written for, said without the way in which they are assembled: which
constant a datum stands for, which operator it writes, and what an argument of each kind comes to.
A line that is not refused asks an assembly for just that.

* `Stands`, `Writes` and `Argument` relate what is written to what is meant.
* `Asks` lists what an assembly can be asked for.
* `stands_of_constOf` and `asks_of_requestOf`: what is not refused is of these kinds.
-/

/-! ## What is written -/

/-- The constant that a datum stands for. A sequence stands for a tuple, and a reference to a
function for its code object. An integer is taken as a machine integer. -/
inductive Stands (functions : List (String × Code)) : Datum → Const → Prop
  | null : Stands functions .null .none
  | bool {type : String} {b : Bool} : Stands functions (.bool type b) (.bool b)
  | int {n : Int} : Stands functions (.int "int" n) (.int (Int64.ofInt n))
  | float {type : String} {x : Float} : Stands functions (.float type x) (.ofFloat x)
  | str {type s : String} : Stands functions (.str type s) (.str s)
  | stray {type : String} {s : Text.Stray} : Stands functions (.stray type s) (.stray s)
  | list {type : String} {items : List Datum} {consts : List Const} :
      List.Forall₂ (Stands functions) items consts →
      Stands functions (.list type items) (.tuple consts)
  | func {type name : String} {d : Datum} {c : Code} : d.name? = some name →
      functions.lookup name = some c → Stands functions (.record type [("func", d)]) (.code c)

/-- A datum that writes an operator, by its symbol or by its number. -/
inductive Writes (symbol : String) (number : Nat) : Datum → Prop
  | symbol {type : String} : Writes symbol number (.str type symbol)
  | number : Writes symbol number (.int "int" number)

/-- What the argument of an instruction comes to, by its kind. The place that a label stands for
depends on the other lines. -/
inductive Argument (functions : List (String × Code)) : ArgKind → Option Datum → Operand → Prop
  | none : Argument functions .none none .none
  | const {d : Datum} {c : Const} : Stands functions d c →
      Argument functions .const (some d) (.const c)
  | name {d : Datum} {s : String} : d.name? = some s → Argument functions .name (some d) (.name s)
  | slot {d : Datum} {s : String} : d.name? = some s → Argument functions .slot (some d) (.slot s)
  | jumpAbsolute {d : Datum} {label : String} {offset : Nat} : d.name? = some label →
      Argument functions .jumpAbsolute (some d) (.target offset)
  | jumpRelative {d : Datum} {label : String} {offset : Nat} : d.name? = some label →
      Argument functions .jumpRelative (some d) (.target offset)
  | binaryOperator {o : BinaryOperator} {d : Datum} : Writes o.symbol o.number d →
      Argument functions .binaryOperator (some d) (.binary o)
  | comparison {o : Comparison} {d : Datum} : Writes o.symbol o.number d →
      Argument functions .comparison (some d) (.comparison o)
  | count {n : Nat} : Argument functions .count (some (.int "int" n)) (.number n)
  | flags {n : Nat} : Argument functions .flags (some (.int "int" n)) (.number n)

/-! ## Constants -/

mutual

/-- A datum that is not refused stands for its constant, which is in the form in which constants are
pooled. -/
theorem stands_of_constOf {functions : List (String × Code)} : (d : Datum) → {c : Const} →
    constOf functions d = .ok c → Stands functions d c ∧ c.normalize = .ok c
  | .null, c, h => by
      cases h
      exact ⟨.null, rfl⟩
  | .bool type b, c, h => by
      cases h
      exact ⟨.bool, rfl⟩
  | .float type x, c, h => by
      cases h
      exact ⟨.float, rfl⟩
  | .str type s, c, h => by
      cases h
      exact ⟨.str, rfl⟩
  | .stray type s, c, h => by
      cases h
      exact ⟨.stray, rfl⟩
  | .int type n, c, h => by
      unfold constOf at h
      split at h
      · cases h
        rename_i heq
        cases heq
        exact ⟨.int, rfl⟩
      · cases h
  | .list type items, c, h => by
      rw [constOf] at h
      obtain ⟨consts, hconsts, hc⟩ := except_bind_eq_ok h
      cases hc
      obtain ⟨hstands, hnormal⟩ := stands_of_constsOf items hconsts
      refine ⟨.list hstands, ?_⟩
      rw [Const.normalize, hnormal]
      rfl
  | .record type entries, c, h => by
      by_cases href : ∃ d, entries = [("func", d)]
      · obtain ⟨d, rfl⟩ := href
        rw [constOf] at h
        cases hname : d.name? with
        | none =>
            rw [hname] at h
            cases h
        | some name =>
            simp only [hname] at h
            cases hfunction : functions.lookup name with
            | none =>
                rw [hfunction] at h
                cases h
            | some c' =>
                rw [hfunction] at h
                cases h
                exact ⟨.func hname hfunction, rfl⟩
      · rw [constOf] at h
        · cases h
        · exact fun d heq => href ⟨d, heq⟩
  | .mapping .., c, h | .pointer .., c, h | .code .., c, h | .other .., c, h => by
      cases h

theorem stands_of_constsOf {functions : List (String × Code)} : (ds : List Datum) →
    {cs : List Const} → constsOf functions ds = .ok cs →
    List.Forall₂ (Stands functions) ds cs ∧ Const.normalize.normalizeAll cs = .ok cs
  | [], cs, h => by
      cases h
      exact ⟨.nil, rfl⟩
  | d :: ds, cs, h => by
      rw [constsOf] at h
      obtain ⟨c, hc, h⟩ := except_bind_eq_ok h
      obtain ⟨rest, hrest, h⟩ := except_bind_eq_ok h
      cases h
      obtain ⟨hstands, hnormal⟩ := stands_of_constOf d hc
      obtain ⟨hall, hnormals⟩ := stands_of_constsOf ds hrest
      refine ⟨.cons hstands hall, ?_⟩
      rw [Const.normalize.normalizeAll, hnormal, hnormals]
      rfl

end

/-! ## Operators -/

/-- An operator that is not refused is written by its symbol or by its number. -/
theorem operatorOf_cases {what : String} {ofSymbol : String → Option Nat}
    {ofNumber : Nat → Option Nat} {d : Datum} {n : Nat}
    (h : operatorOf what ofSymbol ofNumber d = .ok n) :
    (∃ type s, d = .str type s ∧ ofSymbol s = some n) ∨
      ∃ m : Nat, d = .int "int" m ∧ ofNumber m = some n := by
  unfold operatorOf at h
  -- an operator is given by its symbol or by its number
  split at h
  · rename_i type s
    cases hs : ofSymbol s with
    | none =>
        rw [hs] at h
        cases h
    | some m =>
        rw [hs] at h
        cases h
        exact Or.inl ⟨type, s, rfl, hs⟩
  · cases h
  · rename_i m
    cases hm : if 0 < m && m < operatorSpace then ofNumber m.toNat else none with
    | none =>
        rw [hm] at h
        cases h
    | some k =>
        rw [hm] at h
        cases h
        split_ifs at hm with hrange
        simp only [Bool.and_eq_true, decide_eq_true_eq] at hrange
        exact Or.inr ⟨m.toNat, by rw [Int.toNat_of_nonneg (by omega)], hm⟩
  · cases h

/-- The operators of a table are written by what the table has for them. -/
theorem exists_writes {α : Type} {symbol : α → String} {number : α → Nat} (all : List α)
    {what : String} {d : Datum} {n : Nat}
    (h : operatorOf what (fun s => (all.find? fun o => symbol o = s).map number)
      (fun n => (all.find? fun o => number o = n).map number) d = .ok n) :
    ∃ o, n = number o ∧ Writes (symbol o) (number o) d := by
  rcases operatorOf_cases h with ⟨type, s, rfl, hs⟩ | ⟨m, rfl, hm⟩
  · obtain ⟨o, ho, rfl⟩ := Option.map_eq_some_iff.mp hs
    have hsymbol : symbol o = s := by simpa using List.find?_some ho
    exact ⟨o, rfl, hsymbol ▸ .symbol⟩
  · obtain ⟨o, ho, rfl⟩ := Option.map_eq_some_iff.mp hm
    have hnumber : number o = m := by simpa using List.find?_some ho
    exact ⟨o, rfl, hnumber ▸ .number⟩

/-! ## Requests -/

/-- What an instruction line can ask an assembly for. -/
inductive Asks (functions : List (String × Code)) (op : Opcode) :
    Option Datum → Assembly.Request → Prop
  | bare : op.argKind = .none → Asks functions op none (.emit op.number 0)
  | const {d : Datum} {c : Const} : op.argKind = .const → Stands functions d c →
      c.normalize = .ok c → Asks functions op (some d) (.loadConst c)
  | name {d : Datum} {s : String} : op.argKind = .name → d.name? = some s →
      Asks functions op (some d) (.emitName op.number s)
  | slot {d : Datum} {s : String} : op.argKind = .slot → d.name? = some s →
      Asks functions op (some d) (.emitSlot op.number s)
  | jump {d : Datum} {label : String} : op.isJump = true → d.name? = some label →
      Asks functions op (some d) (.jump op.number label)
  | binaryOperator {o : BinaryOperator} {d : Datum} : op.argKind = .binaryOperator →
      Writes o.symbol o.number d → Asks functions op (some d) (.emit op.number o.number)
  | comparison {o : Comparison} {d : Datum} : op.argKind = .comparison →
      Writes o.symbol o.number d → Asks functions op (some d) (.emit op.number o.number)
  | number {n : Int} : op.argKind = .count ∨ op.argKind = .flags →
      Asks functions op (some (.int "int" n)) (.emit op.number n)

/-- Whatever a line asks for adds an instruction. -/
theorem Asks.emits {functions : List (String × Code)} {op : Opcode} {arg? : Option Datum}
    {r : Assembly.Request} (h : Asks functions op arg? r) : r.emits = true := by
  cases h <;> rfl

/-- An argument that must be a name is one. -/
theorem name?_of_ok {d : Datum} {message s : String}
    (h : (match d.name? with | some s => .ok s | none => .error message : Except String String) =
      .ok s) : d.name? = some s := by
  cases hname : d.name? with
  | none =>
      rw [hname] at h
      cases h
  | some s' =>
      rw [hname] at h
      cases h
      rfl

/-- A line that is not refused names an opcode and asks for what its argument is written for. -/
theorem asks_of_requestOf {functions : List (String × Code)} {opName : String}
    {arg? : Option Datum} {r : Assembly.Request} (h : requestOf functions opName arg? = .ok r) :
    ∃ op, Opcode.ofName? opName = some op ∧ Asks functions op arg? r := by
  unfold requestOf at h
  cases hop : Opcode.ofName? opName with
  | none =>
      rw [hop] at h
      cases h
  | some op =>
      refine ⟨op, rfl, ?_⟩
      simp only [hop] at h
      by_cases hnone : op.argKind = .none
      · cases arg? with
        | some arg => simp [hnone, bind, Except.bind, throw, throwThe, MonadExceptOf.throw] at h
        | none =>
            simp only [hnone, if_true] at h
            cases h
            exact .bare hnone
      · cases arg? with
        | none => simp [hnone, throw, throwThe, MonadExceptOf.throw] at h
        | some arg =>
            simp only [hnone, if_false] at h
            -- the kind of argument that the opcode takes says how the text is read
            cases hkind : op.argKind with
            | none => exact absurd hkind hnone
            | const =>
                simp only [hkind] at h
                obtain ⟨c, hc, hr⟩ := except_bind_eq_ok h
                cases hr
                obtain ⟨hstands, hnormal⟩ := stands_of_constOf arg hc
                exact .const hkind hstands hnormal
            | name =>
                simp only [hkind] at h
                obtain ⟨s, hs, hr⟩ := except_bind_eq_ok h
                cases hr
                exact .name hkind (name?_of_ok hs)
            | slot =>
                simp only [hkind] at h
                obtain ⟨s, hs, hr⟩ := except_bind_eq_ok h
                cases hr
                exact .slot hkind (name?_of_ok hs)
            | jumpAbsolute | jumpRelative =>
                simp only [hkind] at h
                obtain ⟨s, hs, hr⟩ := except_bind_eq_ok h
                cases hr
                exact .jump (by simp [Opcode.isJump, hkind, ArgKind.isJump]) (name?_of_ok hs)
            | binaryOperator =>
                simp only [hkind] at h
                obtain ⟨n, hn, hr⟩ := except_bind_eq_ok h
                cases hr
                obtain ⟨o, rfl, hwrites⟩ := exists_writes BinaryOperator.all hn
                exact .binaryOperator hkind hwrites
            | comparison =>
                simp only [hkind] at h
                obtain ⟨n, hn, hr⟩ := except_bind_eq_ok h
                cases hr
                obtain ⟨o, rfl, hwrites⟩ := exists_writes Comparison.all hn
                exact .comparison hkind hwrites
            | count | flags =>
                simp only [hkind] at h
                split at h
                · cases h
                  exact .number (by simp [hkind])
                · cases h

end Wordcode.Source
