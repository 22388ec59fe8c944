import Wordcode.Proofs.Equality
import Mathlib

namespace Wordcode

/-! # Values in order

Sequences are ordered by their first items that differ. Which items differ is a question about
equality, and how they are ordered one about order, which is undefined between values of unlike
types. On values without floats and cycles the two fit together.

* `Store.form` is what the order of a value goes by, and `Store.Ordinary.compare?_eq` says that
  order is about nothing else; the count of references in it does not matter.
* `compareItems?_swap`, `compareItems?_eq_iff`, `compareItems?_congr` and `compareItems?_trans`
  bring the laws from items to sequences.
* `Store.compare_partialOrder` is the result.
-/

/-! ## Values without parts -/

namespace Atom

variable {a b c : Atom} {o : Ordering}

/-- The order of values without parts. Numbers and texts have one. -/
def compare? : Atom → Atom → Option Ordering
  | .number m, .number n => some (compare m n)
  | .text t, .text u => some (compare t u)
  | _, _ => Option.none

/-- The other way round, the answer is reversed. -/
theorem compare?_swap (a b : Atom) : b.compare? a = (a.compare? b).map Ordering.swap := by
  cases a <;> cases b
  case number.number m n => exact congrArg some Std.OrientedCmp.eq_swap
  case text.text t u => exact congrArg some Std.OrientedCmp.eq_swap
  all_goals rfl

/-- Atoms compare as equal if they are the same. -/
theorem compare?_eq_iff (h : a.compare? b = some o) : o = .eq ↔ a = b := by
  cases a <;> cases b <;> cases h <;> simp

/-- What compares to anything compares to itself as equal. -/
theorem compare?_self (h : a.compare? b = some o) : a.compare? a = some .eq := by
  cases a <;> cases b <;> cases h <;> simp [compare?]

/-- What comes first comes before what comes after the second. -/
theorem compare?_trans (hab : a.compare? b = some .lt) (hbc : b.compare? c = some .lt) :
    a.compare? c = some .lt := by
  cases a <;> cases b <;> cases c <;> simp only [compare?, Option.some.injEq, reduceCtorEq] at *
  · exact Std.TransCmp.lt_trans hab hbc
  · exact Std.TransCmp.lt_trans hab hbc

end Atom

/-- Without parts the order of lists does not matter. -/
theorem Value.compareWith?_atom {s : Store} {a b : Value} {x : Atom} (eq : Value → Value → Bool)
    (lists : Nat → Nat → Option Ordering) (hatom : a.atom? = some x) (hb : s.Admits b) :
    Value.compareWith? eq lists a b = b.atom?.bind x.compare? := by
  cases a with
  | float | tuple | slice | list | dict => cases hatom
  | _ =>
      cases hatom
      cases b with
      | float => exact hb.elim
      | _ => simp [compareWith?, atom?, Atom.compare?, int?, float?, Range.atom]

/-! ## Sequences -/

section

variable {eq eq' : Value → Value → Bool} {order? order?' : Value → Value → Option Ordering}
  {as as' bs cs : List Value} {o : Ordering}

/-- Tuples are compared item by item. -/
theorem Value.compareTuplesWith?_eq (lists : Nat → Nat → Option Ordering) :
    Value.compareTuplesWith? eq lists as bs =
      compareItems? eq (Value.compareWith? eq lists) as bs := by
  induction as generalizing bs with
  | nil => cases bs <;> simp [compareTuplesWith?, compareItems?]
  | cons a as ih => cases bs <;> simp [compareTuplesWith?, compareItems?, ih]

/-- Only the items themselves are compared. -/
theorem compareItems?_congr_mem
    (h : ∀ a ∈ as, ∀ b ∈ bs, eq a b = eq' a b ∧ order? a b = order?' a b) :
    compareItems? eq order? as bs = compareItems? eq' order?' as bs := by
  induction as generalizing bs with
  | nil => cases bs <;> rfl
  | cons a as ih =>
      cases bs with
      | nil => rfl
      | cons b bs =>
          obtain ⟨heq, horder⟩ := h a List.mem_cons_self b List.mem_cons_self
          have hrest := ih fun x hx y hy =>
            h x (List.mem_cons_of_mem a hx) y (List.mem_cons_of_mem b hy)
          simp only [compareItems?, heq, horder, hrest]

/-- Sequences compare the other way round as their items do. -/
theorem compareItems?_swap
    (h : ∀ a ∈ as, ∀ b ∈ bs, eq b a = eq a b ∧ order? b a = (order? a b).map Ordering.swap) :
    compareItems? eq order? bs as = (compareItems? eq order? as bs).map Ordering.swap := by
  induction as generalizing bs with
  | nil => cases bs <;> rfl
  | cons a as ih =>
      cases bs with
      | nil => rfl
      | cons b bs =>
          obtain ⟨heq, horder⟩ := h a List.mem_cons_self b List.mem_cons_self
          have hrest := ih fun x hx y hy =>
            h x (List.mem_cons_of_mem a hx) y (List.mem_cons_of_mem b hy)
          simp only [compareItems?, heq, horder, hrest, apply_ite (Option.map Ordering.swap)]

/-- A sequence of items that equal themselves compares to itself as equal. -/
theorem compareItems?_self (h : ∀ a ∈ as, eq a a = true) :
    compareItems? eq order? as as = some .eq := by
  induction as with
  | nil => rfl
  | cons a as ih =>
      rw [List.forall_mem_cons] at h
      rw [compareItems?, if_pos h.1, ih h.2]

/-- Sequences compare as equal if they have equal items. -/
theorem compareItems?_eq_iff
    (h : ∀ a ∈ as, ∀ b ∈ bs, ∀ o, order? a b = some o → (o = .eq ↔ eq a b = true))
    (ho : compareItems? eq order? as bs = some o) :
    o = .eq ↔ List.Forall₂ (fun a b => eq a b = true) as bs := by
  induction as generalizing bs with
  | nil => cases bs <;> cases ho <;> simp
  | cons a as ih =>
      cases bs with
      | nil =>
          cases ho
          simp
      | cons b bs =>
          rw [List.forall₂_cons]
          rw [compareItems?] at ho
          -- equal first items leave it to the others
          split at ho
          case isTrue heq =>
            rw [ih (fun x hx y hy => h x (List.mem_cons_of_mem a hx) y (List.mem_cons_of_mem b hy))
              ho]
            simp [heq]
          case isFalse heq =>
            rw [h a List.mem_cons_self b List.mem_cons_self o ho]
            simp [heq]

/-- Sequences that are equal item by item have the same order to another sequence. -/
theorem compareItems?_congr (hmatch : List.Forall₂ (fun a a' => eq a a' = true) as as')
    (h : ∀ a ∈ as, ∀ a' ∈ as', ∀ b ∈ bs, eq a a' = true →
      eq a b = eq a' b ∧ order? a b = order? a' b) :
    compareItems? eq order? as bs = compareItems? eq order? as' bs := by
  induction hmatch generalizing bs with
  | nil => rfl
  | @cons a a' as as' hfirst hmatch ih =>
      cases bs with
      | nil => rfl
      | cons b bs =>
          obtain ⟨heq, horder⟩ :=
            h a List.mem_cons_self a' List.mem_cons_self b List.mem_cons_self hfirst
          have hrest := ih fun x hx x' hx' y hy => h x (List.mem_cons_of_mem a hx) x'
            (List.mem_cons_of_mem a' hx') y (List.mem_cons_of_mem b hy)
          simp only [compareItems?, heq, horder, hrest]

/-- What transitivity takes of three items: equal ones have the same order to the third, and order
is transitive and apart from equality. -/
structure Linked (eq : Value → Value → Bool) (order? : Value → Value → Option Ordering)
    (a b c : Value) : Prop where
  left : eq a b = true → eq a c = eq b c ∧ order? a c = order? b c
  right : eq b c = true → eq a c = eq a b ∧ order? a c = order? a b
  trans : order? a b = some .lt → order? b c = some .lt →
    order? a c = some .lt ∧ eq a c = false

/-- The order of sequences is transitive if the items of the three are linked to each other. -/
theorem compareItems?_trans (h : ∀ a ∈ as, ∀ b ∈ bs, ∀ c ∈ cs, Linked eq order? a b c)
    (hab : compareItems? eq order? as bs = some .lt)
    (hbc : compareItems? eq order? bs cs = some .lt) :
    compareItems? eq order? as cs = some .lt := by
  induction as generalizing bs cs with
  | nil =>
      cases bs with
      | nil => cases hab
      | cons b bs =>
          cases cs with
          | nil => cases hbc
          | cons c cs => rfl
  | cons a as ih =>
      cases bs with
      | nil => cases hab
      | cons b bs =>
          cases cs with
          | nil => cases hbc
          | cons c cs =>
              have hlinked := h a List.mem_cons_self b List.mem_cons_self c List.mem_cons_self
              rw [compareItems?] at hab hbc ⊢
              -- the two orders may be decided by items at different places
              split at hab <;> split at hbc
              case isTrue.isTrue hab' hbc' =>
                rw [if_pos ((hlinked.left hab').1.trans hbc')]
                exact ih (fun x hx y hy z hz => h x (List.mem_cons_of_mem a hx) y
                  (List.mem_cons_of_mem b hy) z (List.mem_cons_of_mem c hz)) hab hbc
              case isTrue.isFalse hab' hbc' =>
                obtain ⟨heq, horder⟩ := hlinked.left hab'
                rw [heq, if_neg hbc', horder, hbc]
              case isFalse.isTrue hab' hbc' =>
                obtain ⟨heq, horder⟩ := hlinked.right hbc'
                rw [heq, if_neg hab', horder, hab]
              case isFalse.isFalse =>
                obtain ⟨horder, heq⟩ := hlinked.trans hab hbc
                rw [heq, if_neg Bool.false_ne_true, horder]

end

/-! ## Forms -/

/-- What the order of a value goes by. -/
inductive Form
  | atom (x : Atom)
  | tuple (items : List Value)
  | list (items : List Value)
  | unordered

namespace Form

/-- The items that take part in the order. -/
def items : Form → List Value
  | .tuple items | .list items => items
  | .atom _ | .unordered => []

/-- The order of forms, given equality and the order of items. -/
def compare? (eq : Value → Value → Bool) (order? : Value → Value → Option Ordering) :
    Form → Form → Option Ordering
  | .atom x, .atom y => x.compare? y
  | .tuple as, .tuple bs | .list as, .list bs => compareItems? eq order? as bs
  | _, _ => none

/-- The equality of forms, given that of items. Forms without an order are not told apart. -/
def Matches (eq : Value → Value → Bool) : Form → Form → Prop
  | .atom x, .atom y => x = y
  | .tuple as, .tuple bs | .list as, .list bs => List.Forall₂ (fun a b => eq a b = true) as bs
  | .unordered, .unordered => True
  | _, _ => False

variable {eq eq' : Value → Value → Bool} {order? order?' : Value → Value → Option Ordering}
  {f g h : Form} {o : Ordering}

/-- A comparison depends only on how items are compared. -/
theorem compare?_congr_mem
    (hitems : ∀ a ∈ f.items, ∀ b ∈ g.items, eq a b = eq' a b ∧ order? a b = order?' a b) :
    compare? eq order? f g = compare? eq' order?' f g := by
  cases f <;> cases g
  case tuple.tuple => exact compareItems?_congr_mem hitems
  case list.list => exact compareItems?_congr_mem hitems
  all_goals rfl

/-- The same for forms. -/
theorem compare?_swap
    (hitems : ∀ a ∈ f.items, ∀ b ∈ g.items,
      eq b a = eq a b ∧ order? b a = (order? a b).map Ordering.swap) :
    compare? eq order? g f = (compare? eq order? f g).map Ordering.swap := by
  cases f <;> cases g
  case atom.atom x y => exact Atom.compare?_swap x y
  case tuple.tuple => exact compareItems?_swap hitems
  case list.list => exact compareItems?_swap hitems
  all_goals rfl

/-- The same for forms. -/
theorem compare?_self (hitems : ∀ a ∈ f.items, eq a a = true)
    (ho : compare? eq order? f g = some o) : compare? eq order? f f = some .eq := by
  cases f with
  | atom x => cases g <;> first | exact Atom.compare?_self ho | cases ho
  | tuple items => exact compareItems?_self hitems
  | list items => exact compareItems?_self hitems
  | unordered => cases ho

/-- Forms compare as equal if they match. -/
theorem compare?_eq_iff
    (hitems : ∀ a ∈ f.items, ∀ b ∈ g.items, ∀ o, order? a b = some o → (o = .eq ↔ eq a b = true))
    (ho : compare? eq order? f g = some o) : o = .eq ↔ f.Matches eq g := by
  cases f <;> cases g
  case atom.atom => exact Atom.compare?_eq_iff ho
  case tuple.tuple => exact compareItems?_eq_iff hitems ho
  case list.list => exact compareItems?_eq_iff hitems ho
  all_goals cases ho

/-- A form compares as a matching one does. -/
theorem compare?_congr (hmatch : f.Matches eq g)
    (hitems : ∀ a ∈ f.items, ∀ a' ∈ g.items, ∀ b ∈ h.items, eq a a' = true →
      eq a b = eq a' b ∧ order? a b = order? a' b) :
    compare? eq order? f h = compare? eq order? g h := by
  cases f <;> cases g <;> try exact hmatch.elim
  case atom.atom => rw [show _ = _ from hmatch]
  case tuple.tuple =>
    cases h
    case tuple => exact compareItems?_congr hmatch hitems
    all_goals rfl
  case list.list =>
    cases h
    case list => exact compareItems?_congr hmatch hitems
    all_goals rfl
  case unordered.unordered => rfl

/-- The order of forms is transitive, if it is for their items. -/
theorem compare?_trans
    (hitems : ∀ a ∈ f.items, ∀ b ∈ g.items, ∀ c ∈ h.items, Linked eq order? a b c)
    (hfg : compare? eq order? f g = some .lt) (hgh : compare? eq order? g h = some .lt) :
    compare? eq order? f h = some .lt := by
  cases f <;> cases g <;> try cases hfg
  all_goals cases h <;> try cases hgh
  case atom.atom.atom => exact Atom.compare?_trans hfg hgh
  case tuple.tuple.tuple => exact compareItems?_trans hitems hfg hgh
  case list.list.list => exact compareItems?_trans hitems hfg hgh

end Form

namespace Store

variable {s : Store} {a b c : Value} {n : Nat} {o : Ordering}

/-- What the order of a value goes by. -/
def form (s : Store) (v : Value) : Form :=
  match v with
  | .tuple items _ => .tuple items
  | .list ref => .list (s.items ref)
  | _ =>
    match v.atom? with
    | some x => .atom x
    | none => .unordered

/-- The items of a value's form are held by the value. -/
theorem holds_of_mem_form (h : b ∈ (s.form a).items) : s.Holds a b := by
  cases a with
  | tuple => exact .item h
  | list => exact .element h
  | _ => cases h

/-! ### The count of references -/

theorem compareUpTo?_tuple {items items' : List Value} {id id' : Nat} :
    s.compareUpTo? n (.tuple items id) (.tuple items' id') =
      compareItems? s.equals (s.compareUpTo? n) items items' := by
  cases n <;> simp [compareUpTo?, Value.compareWith?, Value.compareTuplesWith?_eq]

/-- Comparing lists goes one level deeper. -/
theorem compareUpTo?_list {ref ref' : Nat} :
    s.compareUpTo? (n + 1) (.list ref) (.list ref') =
      compareItems? s.equals (s.compareUpTo? n) (s.items ref) (s.items ref') := by
  simp [compareUpTo?, Value.compareWith?]

/-- A comparison up to a depth only needs to be told how to compare lists. -/
theorem exists_compareWith? (s : Store) (n : Nat) :
    ∃ lists, ∀ a b, s.compareUpTo? n a b = Value.compareWith? s.equals lists a b := by
  cases n <;> exact ⟨_, fun _ _ => rfl⟩

/-- Values of other types have an order that does not go through lists. -/
theorem compareUpTo?_const (m n : Nat) (htuples : ∀ as i bs j, a = .tuple as i → b ≠ .tuple bs j)
    (hlists : ∀ i j, a = .list i → b ≠ .list j) : s.compareUpTo? m a b = s.compareUpTo? n a b := by
  obtain ⟨lists, hm⟩ := s.exists_compareWith? m
  obtain ⟨lists', hn⟩ := s.exists_compareWith? n
  rw [hm, hn]
  cases a <;> cases b <;> first
    | exact (htuples _ _ _ _ rfl rfl).elim
    | exact (hlists _ _ rfl rfl).elim
    | rfl

/-- Another reference makes no difference to a value that reaches no more than are counted. -/
theorem Ordinary.compareUpTo?_succ (ha : s.Ordinary a) :
    ∀ n, s.rank a ≤ n → ∀ b, s.compareUpTo? (n + 1) a b = s.compareUpTo? n a b := by
  induction ha using Ordinary.induction with
  | step a ha ih =>
    intro n hn b
    by_cases htuples : ∃ as i bs j, a = .tuple as i ∧ b = .tuple bs j
    · obtain ⟨as, i, bs, j, rfl, rfl⟩ := htuples
      rw [compareUpTo?_tuple, compareUpTo?_tuple]
      exact compareItems?_congr_mem fun x hx y _ =>
        ⟨rfl, ih x (.item hx) n ((ha.rank_le_of_holds (.item hx)).trans hn) y⟩
    by_cases hlists : ∃ i j, a = .list i ∧ b = .list j
    · obtain ⟨i, j, rfl, rfl⟩ := hlists
      -- one reference less is left for what is held through a reference
      have hpos := ha.rank_pos trivial
      obtain ⟨m, rfl⟩ : ∃ m, n = m + 1 := ⟨n - 1, by omega⟩
      rw [compareUpTo?_list, compareUpTo?_list]
      refine compareItems?_congr_mem fun x hx y _ => ⟨rfl, ih x (.element hx) m ?_ y⟩
      have := ha.rank_lt_of_holds trivial (.element hx)
      omega
    · exact compareUpTo?_const _ _
        (fun as i bs j h h' => htuples ⟨as, i, bs, j, h, h'⟩) fun i j h h' => hlists ⟨i, j, h, h'⟩

/-- Lists are ordered like their items. -/
theorem Ordinary.compare?_list {ref ref' : Nat} (ha : s.Ordinary (.list ref)) :
    s.compare? (.list ref) (.list ref') =
      compareItems? s.equals s.compare? (s.items ref) (s.items ref') := by
  rw [compare?, ← ha.compareUpTo?_succ s.size ha.rank_le_size, compareUpTo?_list]
  rfl

/-- The order of values is the order of their forms. -/
theorem Ordinary.compare?_eq (ha : s.Ordinary a) (hb : s.Ordinary b) :
    s.compare? a b = Form.compare? s.equals s.compare? (s.form a) (s.form b) := by
  obtain ⟨lists, hrun⟩ := s.exists_compareWith? s.size
  change ∀ a b, s.compare? a b = _ at hrun
  -- only tuples and lists compare what they hold
  cases a with
  | float => exact ha.admits_self.elim
  | tuple items id =>
      cases b with
      | tuple items' id' => exact compareUpTo?_tuple
      | _ => exact hrun _ _
  | list ref =>
      cases b with
      | list ref' => exact ha.compare?_list
      | _ => exact hrun _ _
  | slice | dict => cases b <;> exact hrun _ _
  | _ =>
      rw [hrun, Value.compareWith?_atom _ _ rfl hb.admits_self]
      cases b <;> rfl

/-! ### Equality -/

/-- Equal values have equal forms, and values of equal forms are equal if they have an order. -/
theorem Ordinary.matches_iff (hs : s.SoundDicts) (ha : s.Ordinary a) (hb : s.Ordinary b) :
    (s.equals a b = true → (s.form a).Matches s.equals (s.form b)) ∧
      (s.form a ≠ .unordered → (s.form a).Matches s.equals (s.form b) → s.equals a b = true) := by
  cases a with
  | float => exact ha.admits_self.elim
  | tuple items id =>
      rw [equals_tuple_iff]
      constructor
      · rintro ⟨items', id', rfl, hitems⟩
        exact hitems
      · intro _ hmatch
        cases b with
        | tuple items' id' => exact ⟨items', id', rfl, hmatch⟩
        | _ => exact hmatch.elim
  | list ref =>
      -- a list is equal to itself at once, and its items are since they are ordinary
      rw [ha.equals_list_iff]
      constructor
      · rintro ⟨ref', rfl, rfl | hitems⟩
        · exact List.forall₂_same.mpr fun x hx => (ha.held (.element hx)).equals_refl hs
        · exact hitems
      · intro _ hmatch
        cases b with
        | list ref' => exact ⟨ref', rfl, .inr hmatch⟩
        | _ => exact hmatch.elim
  | slice x y z id =>
      rw [equals_slice_iff]
      refine ⟨?_, fun hordered => (hordered rfl).elim⟩
      rintro ⟨x', y', z', id', rfl, -⟩
      trivial
  | dict ref =>
      refine ⟨fun h => ?_, fun hordered => (hordered rfl).elim⟩
      obtain ⟨ref', rfl⟩ := ha.exists_of_equals_dict h
      trivial
  | _ =>
      rw [ha.equals_atom_iff hb rfl]
      cases b <;> simp [form, Value.atom?, Form.Matches]

/-! ## The laws -/

/-- Equality as a test is symmetric. -/
theorem Ordinary.equals_comm (hs : s.SoundDicts) (ha : s.Ordinary a) (hb : s.Ordinary b) :
    s.equals b a = s.equals a b :=
  Bool.eq_iff_iff.mpr ⟨hb.equals_symm hs a ha, ha.equals_symm hs b hb⟩

/-- Equal values are equal to the same values. -/
theorem Ordinary.equals_congr (hs : s.SoundDicts) (ha : s.Ordinary a) (hb : s.Ordinary b)
    (hc : s.Ordinary c) (h : s.equals a b = true) : s.equals a c = s.equals b c :=
  Bool.eq_iff_iff.mpr ⟨hb.equals_trans hs a c ha hc (ha.equals_symm hs b hb h),
    ha.equals_trans hs b c hb hc h⟩

/-- The order of two values, seen from the other side, is the other way around. -/
theorem Ordinary.compare?_swap (hs : s.SoundDicts) (ha : s.Ordinary a) :
    ∀ b, s.Ordinary b → s.compare? b a = (s.compare? a b).map Ordering.swap := by
  induction ha using Ordinary.induction with
  | step a ha ih =>
    intro b hb
    rw [ha.compare?_eq hb, hb.compare?_eq ha]
    refine Form.compare?_swap fun x hx y hy => ?_
    have hx' := holds_of_mem_form hx
    have hy' := hb.held (holds_of_mem_form hy)
    exact ⟨(ha.held hx').equals_comm hs hy', ih x hx' y hy'⟩

/-- A value that has an order to some value has one to itself. -/
theorem Ordinary.compare?_self (hs : s.SoundDicts) (ha : s.Ordinary a) (hb : s.Ordinary b)
    (ho : s.compare? a b = some o) : s.compare? a a = some .eq := by
  rw [ha.compare?_eq hb] at ho
  rw [ha.compare?_eq ha]
  exact Form.compare?_self (fun x hx => (ha.held (holds_of_mem_form hx)).equals_refl hs) ho

/-- Values that have an order are equal when neither comes before the other. -/
theorem Ordinary.compare?_eq_iff (hs : s.SoundDicts) (ha : s.Ordinary a) :
    ∀ b, s.Ordinary b → ∀ o, s.compare? a b = some o → (o = .eq ↔ s.equals a b = true) := by
  induction ha using Ordinary.induction with
  | step a ha ih =>
    intro b hb o ho
    rw [ha.compare?_eq hb] at ho
    have hordered : s.form a ≠ .unordered := by
      intro hform
      rw [hform] at ho
      cases ho
    have hitems := Form.compare?_eq_iff (fun x hx y hy =>
      ih x (holds_of_mem_form hx) y (hb.held (holds_of_mem_form hy))) ho
    obtain ⟨hto, hfrom⟩ := ha.matches_iff hs hb
    exact hitems.trans ⟨hfrom hordered, hto⟩

/-- Equal values have the same order to another value. -/
theorem Ordinary.compare?_congr (hs : s.SoundDicts) (ha : s.Ordinary a) :
    ∀ b c, s.Ordinary b → s.Ordinary c → s.equals a b = true →
      s.compare? a c = s.compare? b c := by
  induction ha using Ordinary.induction with
  | step a ha ih =>
    intro b c hb hc h
    rw [ha.compare?_eq hc, hb.compare?_eq hc]
    refine Form.compare?_congr ((ha.matches_iff hs hb).1 h) fun x hx y hy z hz heq => ?_
    have hx' := holds_of_mem_form hx
    have hy' := hb.held (holds_of_mem_form hy)
    have hz' := hc.held (holds_of_mem_form hz)
    exact ⟨(ha.held hx').equals_congr hs hy' hz' heq, ih x hx' y z hy' hz' heq⟩

/-- A value compares to equal ones alike. -/
theorem Ordinary.compare?_congr_right (hs : s.SoundDicts) (ha : s.Ordinary a) (hb : s.Ordinary b)
    (hc : s.Ordinary c) (h : s.equals b c = true) : s.compare? a c = s.compare? a b := by
  rw [hb.compare?_swap hs a ha, hc.compare?_swap hs a ha, hb.compare?_congr hs c a hc ha h]

/-- The order is transitive, by induction on what the first value holds. -/
theorem Ordinary.compare?_trans (hs : s.SoundDicts) (ha : s.Ordinary a) :
    ∀ b c, s.Ordinary b → s.Ordinary c → s.compare? a b = some .lt → s.compare? b c = some .lt →
      s.compare? a c = some .lt := by
  induction ha using Ordinary.induction with
  | step a ha ih =>
    intro b c hb hc hab hbc
    rw [ha.compare?_eq hb] at hab
    rw [hb.compare?_eq hc] at hbc
    rw [ha.compare?_eq hc]
    -- the items of the forms are held by the values, so the laws hold for them
    refine Form.compare?_trans (fun x hx y hy z hz => ?_) hab hbc
    have hx' := ha.held (holds_of_mem_form hx)
    have hy' := hb.held (holds_of_mem_form hy)
    have hz' := hc.held (holds_of_mem_form hz)
    constructor
    case left =>
      intro heq
      exact ⟨hx'.equals_congr hs hy' hz' heq, hx'.compare?_congr hs y z hy' hz' heq⟩
    case right =>
      intro heq
      refine ⟨?_, hx'.compare?_congr_right hs hy' hz' heq⟩
      rw [hy'.equals_comm hs hx', hz'.equals_comm hs hx', hy'.equals_congr hs hz' hx' heq]
    case trans =>
      intro hxy hyz
      have hxz := ih x (holds_of_mem_form hx) y z hy' hz' hxy hyz
      refine ⟨hxz, Bool.eq_false_iff.mpr fun heq => ?_⟩
      cases (hx'.compare?_eq_iff hs z hz' .lt hxz).mpr heq

/-- Order is a partial order that is consistent with equality, on values without floats and cycles.
It is defined from both sides or from neither, and the other way around from the other side; it is
transitive, which includes that it is defined; and where it is defined, values are equal just when
neither comes before the other. -/
theorem compare_partialOrder (hs : s.SoundDicts) (ha : s.Ordinary a) (hb : s.Ordinary b)
    (hc : s.Ordinary c) :
    s.compare? b a = (s.compare? a b).map Ordering.swap ∧
      (s.compare? a b = some .lt → s.compare? b c = some .lt → s.compare? a c = some .lt) ∧
      ∀ o, s.compare? a b = some o → (o = .eq ↔ s.equals a b = true) :=
  ⟨ha.compare?_swap hs b hb, ha.compare?_trans hs b c hb hc, ha.compare?_eq_iff hs b hb⟩

/-- Two lists of which the first items are equal and the second ones are not. -/
def tied : Store where
  lists := #[[.int 1, .str "x" 0], [.bool true, .str "y" 1]]

/-- The first two tuples differ in the lists, and the third one is longer than the second. -/
theorem compare_partialOrder_nested :
    let a : Value := .tuple [.int 0, .list 0] 2
    let b : Value := .tuple [.bool false, .list 1] 3
    let c : Value := .tuple [.int 0, .list 1, .none] 4
    tied.SoundDicts ∧ tied.Ordinary a ∧ tied.Ordinary b ∧ tied.Ordinary c ∧
      tied.compare? a b = some .lt ∧ tied.compare? b c = some .lt ∧
      tied.compare? b a = some .gt ∧ tied.compare? a c = some .lt := by
  intro a b c
  have hsound : tied.SoundDicts := by
    intro d hd
    cases hd
  have hatom {v : Value} (h : v.atom?.isSome = true) (hv : tied.Admits v) : tied.Ordinary v :=
    .of_atom h hv
  -- the lists hold no other lists
  have hlist (ref : Nat) (href : ref < 2) : tied.Ordinary (.list ref) := by
    refine .list href fun v hv => ?_
    interval_cases ref <;> rcases List.mem_pair.mp hv with rfl | rfl <;> exact hatom rfl trivial
  have ha : tied.Ordinary a := by
    refine .tuple fun v hv => ?_
    rcases List.mem_pair.mp hv with rfl | rfl
    · exact hatom rfl trivial
    · exact hlist 0 (by decide)
  have hb : tied.Ordinary b := by
    refine .tuple fun v hv => ?_
    rcases List.mem_pair.mp hv with rfl | rfl
    · exact hatom rfl trivial
    · exact hlist 1 (by decide)
  have hc : tied.Ordinary c := by
    refine .tuple fun v hv => ?_
    simp only [List.mem_cons, List.not_mem_nil, or_false] at hv
    rcases hv with rfl | rfl | rfl
    · exact hatom rfl trivial
    · exact hlist 1 (by decide)
    · exact hatom rfl trivial
  have hab : tied.compare? a b = some .lt := by cbv
  have hbc : tied.compare? b c = some .lt := by cbv
  obtain ⟨hswap, htrans, -⟩ := compare_partialOrder hsound ha hb hc
  exact ⟨hsound, ha, hb, hc, hab, hbc, by rw [hswap, hab]; rfl, htrans hab hbc⟩

end Store

end Wordcode
