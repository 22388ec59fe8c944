import Wordcode.Store.Format
import Mathlib

namespace Wordcode

/-! # Numerals and their places

The texts that integers are put together from. A numeral is read back by its digits, a grouped one
by leaving out the commas, and a text that is filled up by cutting off what was filled in.

* `IsNumeral` is a numeral in a base, and `isNumeral_toDigits` says that printing gives one.
* `Grouped` is a numeral with commas, and `grouped_groupThousands` says where they are put.
* `Placed` is a text at its place in a field, and `Spec.placed_fillUp` says how it is filled up.
-/

/-! ## Numerals -/

/-- The symbols of digits, with small letters. -/
def smallSymbols : List Char := "0123456789abcdef".toList

/-- The symbols of digits, with capital letters. -/
def capitalSymbols : List Char := "0123456789ABCDEF".toList

/-- The numeral of a number in a base: the symbols of digits that denote the number, most
significant digit first, without leading zeros. -/
def IsNumeral (base : Nat) (symbols : List Char) (n : Nat) (cs : List Char) : Prop :=
  ∃ ds : List Nat, List.Forall₂ (fun d c => symbols[d]? = some c) ds cs ∧ (∀ d ∈ ds, d < base) ∧
    Nat.ofDigits base ds.reverse = n ∧ ds ≠ [] ∧ (ds.head? = some 0 → ds = [0])

/-- The digits of a numeral; zero has one, too. -/
def numeralDigits (base n : Nat) : List Nat :=
  if n = 0 then [0] else (Nat.digits base n).reverse

/-- The library's numerals, digit by digit. -/
theorem toDigits_eq_map {base : Nat} (hbase : 1 < base) (n : Nat) :
    Nat.toDigits base n = (numeralDigits base n).map Nat.digitChar := by
  induction n using Nat.strong_induction_on with
  | _ n ih =>
      rw [Nat.toDigits_eq_if hbase, numeralDigits]
      -- zero is the one number that writes a leading zero
      split_ifs with hlt hzero hzero
      · rw [hzero]
        rfl
      · rw [Nat.digits_of_lt base n hzero hlt]
        rfl
      · omega
      · have hquotient : n / base ≠ 0 := by
          rw [Nat.div_ne_zero_iff]
          omega
        have hdigits := Nat.digits_def' hbase (Nat.pos_of_ne_zero hzero)
        rw [ih _ (Nat.div_lt_self (by omega) hbase), numeralDigits, if_neg hquotient, hdigits,
          List.reverse_cons, List.map_append]
        rfl

theorem numeralDigits_lt {base n : Nat} (hbase : 1 < base) :
    ∀ d ∈ numeralDigits base n, d < base := by
  intro d hd
  unfold numeralDigits at hd
  split at hd
  · rw [List.mem_singleton.mp hd]
    omega
  · exact Nat.digits_lt_base hbase (List.mem_reverse.mp hd)

/-- The digits of a number stand for it. -/
theorem ofDigits_numeralDigits (base n : Nat) :
    Nat.ofDigits base (numeralDigits base n).reverse = n := by
  unfold numeralDigits
  split
  · simp [*]
  · rw [List.reverse_reverse, Nat.ofDigits_digits]

/-- Only the numeral of zero starts with a zero. -/
theorem head?_numeralDigits {base n : Nat} (h : (numeralDigits base n).head? = some 0) :
    numeralDigits base n = [0] := by
  unfold numeralDigits at *
  split at h
  · rw [if_pos ‹_›]
  · rename_i hn
    rw [List.head?_reverse] at h
    have hlast := Nat.getLast_digit_ne_zero base hn
    rw [List.getLast?_eq_some_getLast (Nat.digits_ne_nil_iff_ne_zero.mpr hn)] at h
    exact absurd (Option.some.inj h) hlast

theorem numeralDigits_ne_nil (base n : Nat) : numeralDigits base n ≠ [] := by
  unfold numeralDigits
  split
  · simp
  · simpa using Nat.digits_ne_nil_iff_ne_zero.mpr ‹_›

/-- Printing a number in a base of sixteen at most gives its numeral, in either kind of letters. -/
theorem isNumeral_map_toDigits {base : Nat} (hbase : 1 < base) {symbols : List Char}
    {f : Char → Char} (hsymbols : ∀ d < base, symbols[d]? = some (f d.digitChar)) (n : Nat) :
    IsNumeral base symbols n ((Nat.toDigits base n).map f) := by
  refine ⟨numeralDigits base n, ?_, numeralDigits_lt hbase, ofDigits_numeralDigits base n,
    numeralDigits_ne_nil base n, head?_numeralDigits⟩
  rw [toDigits_eq_map hbase, List.map_map, List.forall₂_map_right_iff, List.forall₂_same]
  exact fun d hd => hsymbols d (numeralDigits_lt hbase d hd)

theorem isNumeral_toDigits {base : Nat} (hbase : 1 < base) (hle : base ≤ 16) (n : Nat) :
    IsNumeral base smallSymbols n (Nat.toDigits base n) := by
  have hsymbols : ∀ d < 16, smallSymbols[d]? = some d.digitChar := by decide
  rw [← List.map_id (Nat.toDigits base n)]
  exact isNumeral_map_toDigits hbase (fun d hd => hsymbols d (hd.trans_le hle)) n

/-- Capital letters are the other digits. -/
theorem isNumeral_toUpper (n : Nat) :
    IsNumeral 16 capitalSymbols n ((Nat.toDigits 16 n).map Char.toUpper) := by
  have hsymbols : ∀ d < 16, capitalSymbols[d]? = some d.digitChar.toUpper := by decide
  exact isNumeral_map_toDigits (by decide) hsymbols n

/-! ## Groups -/

/-- A text with a comma before every group of three characters, counted from the right, but not at
the front. -/
structure Grouped (plain cs : List Char) : Prop where
  plain_eq : cs.filter (· ≠ ',') = plain
  comma_iff : ∀ i c, cs.reverse[i]? = some c → (c = ',' ↔ i % 4 = 3)
  head?_ne : cs.head? ≠ some ','

theorem exists_of_three_lt {ds : List Char} (h : 3 < ds.length) :
    ∃ x y z d rest, ds = x :: y :: z :: d :: rest :=
  match ds, h with
  | x :: y :: z :: d :: rest, _ => ⟨x, y, z, d, rest, rfl⟩

/-- Without its commas a grouped numeral is the numeral. -/
theorem filter_go {ds : List Char} (h : ',' ∉ ds) :
    (Spec.groupThousands.go ds).filter (· ≠ ',') = ds := by
  fun_induction Spec.groupThousands.go ds with
  | case1 a b c d rest ih =>
      simp only [List.mem_cons, not_or] at h
      obtain ⟨ha, hb, hc, hrest⟩ := h
      have hrest' := ih (by simpa using hrest)
      simp only [List.filter_cons, ne_eq, Ne.symm ha, Ne.symm hb, Ne.symm hc, hrest']
      simp
  | case2 ds _ =>
      refine List.filter_eq_self.mpr fun c hc => ?_
      have hne : c ≠ ',' := fun heq => h (heq ▸ hc)
      simp [hne]

/-- The commas among digits that are counted from the right. -/
theorem getElem?_go {ds : List Char} (h : ',' ∉ ds) {i : Nat} {c : Char}
    (hi : (Spec.groupThousands.go ds)[i]? = some c) : c = ',' ↔ i % 4 = 3 := by
  fun_induction Spec.groupThousands.go ds generalizing i with
  | case1 x y z d rest ih =>
      simp only [List.mem_cons, not_or] at h
      obtain ⟨hx, hy, hz, hrest⟩ := h
      -- each turn writes three digits and a comma
      match i with
      | 0 | 1 | 2 | 3 => simp_all [eq_comm]
      | i + 4 =>
          rw [Nat.add_mod_right]
          exact ih (by simpa using hrest) (by simpa using hi)
  | case2 ds hshort =>
      have hne : c ≠ ',' := fun heq => h (heq ▸ List.mem_of_getElem? hi)
      have hlt : i < ds.length := (List.getElem?_eq_some_iff.mp hi).1
      have hthree : ds.length ≤ 3 := by
        by_contra hlong
        obtain ⟨x, y, z, d, rest, rfl⟩ := exists_of_three_lt (Nat.lt_of_not_le hlong)
        exact hshort x y z d rest rfl
      exact iff_of_false hne (by omega)

theorem getLast?_go {ds : List Char} (h : ',' ∉ ds) :
    (Spec.groupThousands.go ds).getLast? ≠ some ',' := by
  fun_induction Spec.groupThousands.go ds with
  | case1 x y z d rest ih =>
      simp only [List.mem_cons, not_or] at h
      have hrest : ',' ∉ d :: rest := by simpa using h.2.2.2
      have hne : Spec.groupThousands.go (d :: rest) ≠ [] := by
        intro hnil
        have hplain := filter_go hrest
        rw [hnil] at hplain
        cases hplain
      have hlast := ih hrest
      rw [List.getLast?_eq_some_getLast hne] at hlast
      simpa [List.getLast?_cons, List.getLast?_eq_some_getLast hne] using hlast
  | case2 ds hshort =>
      exact fun hlast => h (List.mem_of_getLast? hlast)

/-- Grouping at most doubles the length. -/
theorem length_go_le (ds : List Char) :
    (Spec.groupThousands.go ds).length ≤ 2 * ds.length := by
  fun_induction Spec.groupThousands.go ds with
  | case1 x y z d rest ih =>
      simp only [List.length_cons] at *
      omega
  | case2 ds hshort => omega

/-- The groups, from the right. -/
theorem grouped_groupThousands {ds : List Char} (h : ',' ∉ ds) :
    Grouped ds (Spec.groupThousands ds) where
  plain_eq := by
    rw [Spec.groupThousands, List.filter_reverse, filter_go (by simpa using h),
      List.reverse_reverse]
  comma_iff i c hi := by
    rw [Spec.groupThousands, List.reverse_reverse] at hi
    exact getElem?_go (by simpa using h) hi
  head?_ne := by
    rw [Spec.groupThousands, List.head?_reverse]
    exact getLast?_go (by simpa using h)

/-! ## Places -/

/-- A sign and a body in a field: the alignment says where the field is filled up to its width. What
is filled up on both sides has the same on the left and on the right, or one more on the right. -/
def Placed (fill : Char) (align : Align) (width : Nat) (sign body text : List Char) : Prop :=
  ∃ before between after : Nat,
    text = List.replicate before fill ++ sign ++ List.replicate between fill ++ body ++
      List.replicate after fill ∧
    before + between + after = width - (sign.length + body.length) ∧
    match align with
    | .left => before = 0 ∧ between = 0
    | .right => between = 0 ∧ after = 0
    | .center => between = 0 ∧ (after = before ∨ after = before + 1)
    | .inside => before = 0 ∧ after = 0

/-- A text is as long as it is wide, and not shorter than what it is made of. -/
theorem Placed.length_eq {fill : Char} {align : Align} {width : Nat} {sign body text : List Char}
    (h : Placed fill align width sign body text) :
    text.length = max width (sign.length + body.length) := by
  obtain ⟨before, between, after, rfl, hsum, -⟩ := h
  simp only [List.length_append, List.length_replicate]
  omega

/-- Filling up a text to its width puts it where the alignment says. -/
theorem Spec.placed_fillUp (s : Spec) (align : Align) (sign body : List Char) (width : Nat) :
    Placed s.fill align width sign body
      (s.fillUp align sign body (width - (sign.length + body.length))) := by
  generalize hn : width - (sign.length + body.length) = n
  cases align with
  | left => exact ⟨0, 0, n, by simp [fillUp], by omega, rfl, rfl⟩
  | right => exact ⟨n, 0, 0, by simp [fillUp], by omega, rfl, rfl⟩
  | center => exact ⟨n / 2, 0, n - n / 2, by simp [fillUp], by omega, rfl, by omega⟩
  | inside => exact ⟨0, n, 0, by simp [fillUp], by omega, rfl, rfl⟩

end Wordcode
