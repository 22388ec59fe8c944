import Wordcode.Proofs.Hashing
import Wordcode.Store.Repr
import Mathlib

namespace Wordcode.Text

/-! # Reading written texts

A text that a value is written with says where it ends. Where two such texts, each with something
behind it, are one text, they are the same and so is what is behind them.

* `literal_append_inj` is about strings. Whatever characters a string has, `unescape` reads them one
  after another off its literal.
* `repr_append_inj` is about integers, whose digits end before anything that comes behind a
  value.
* `bracketed_inj` is about items in brackets: if each of them can be read, so can all of them.
-/

/-! ## Strings -/

/-- The quotes that literals are written with. -/
def IsQuote (q : Char) : Prop := q = '\'' ∨ q = '"'

/-- A literal is in one of the two quotes. -/
theorem isQuote_literalQuote (cs : List Char) : IsQuote (literalQuote cs) := by
  unfold literalQuote
  split
  · exact .inr rfl
  · exact .inl rfl

/-- The number of a hexadecimal digit. -/
def unhex (c : Char) : Nat := if c.toNat < 58 then c.toNat - 48 else c.toNat - 87

/-- Reads a character that is written in a literal, and what is behind it. -/
def unescape : List Char → Option (Char × List Char)
  | '\\' :: 'n' :: r => some ('\n', r)
  | '\\' :: 'r' :: r => some ('\r', r)
  | '\\' :: 't' :: r => some ('\t', r)
  | '\\' :: 'x' :: c :: d :: r => some (Char.ofNat (16 * unhex c + unhex d), r)
  | '\\' :: c :: r => some (c, r)
  | c :: r => some (c, r)
  | [] => none

/-- A hexadecimal digit is read back. -/
theorem unhex_hexDigit : ∀ n < 16, unhex (hexDigit n) = n := by decide

/-- The two digits of a small number. -/
theorem unescape_hexDigits {n : Nat} (hn : n < 256) (r : List Char) :
    unescape ('\\' :: 'x' :: hexDigits 2 n ++ r) = some (Char.ofNat n, r) := by
  have hhigh : unhex (hexDigit (n / 16 % 16)) = n / 16 % 16 :=
    unhex_hexDigit _ (Nat.mod_lt _ (by decide))
  have hlow : unhex (hexDigit (n % 16)) = n % 16 := unhex_hexDigit _ (Nat.mod_lt _ (by decide))
  have hn' : 16 * (n / 16 % 16) + n % 16 = n := by omega
  show some (Char.ofNat (16 * unhex (hexDigit (n / 16 % 16)) + unhex (hexDigit (n % 16))), r) = _
  rw [hhigh, hlow, hn']

/-- A character that is not a backslash stands for itself. -/
theorem unescape_cons {c : Char} (hc : c ≠ '\\') (r : List Char) :
    unescape (c :: r) = some (c, r) := by
  unfold unescape
  split <;> simp_all

/-- Every character can be read off the way it is written. -/
theorem unescape_literalChar {q : Char} (hq : IsQuote q) (c : Char) (r : List Char) :
    unescape (literalChar q c ++ r) = some (c, r) := by
  unfold literalChar
  -- each escape is read back as the character that it was written for
  split_ifs with hescaped hn hr ht hcontrol
  · have hc : c = '\'' ∨ c = '"' ∨ c = '\\' := by
      rcases hq with rfl | rfl <;> simp at hescaped <;> tauto
    rcases hc with rfl | rfl | rfl <;> rfl
  · rw [hn]
    rfl
  · rw [hr]
    rfl
  · rw [ht]
    rfl
  · have hsmall : c.toNat < 256 := by
      simp at hcontrol
      omega
    exact (unescape_hexDigits hsmall r).trans (by rw [Char.ofNat_toNat])
  · simp only [Bool.or_eq_true, decide_eq_true_eq, not_or] at hescaped
    exact unescape_cons hescaped.2 r

/-- No character is written so that it looks like the end of the literal. -/
theorem literalChar_append_ne {q : Char} (hq : IsQuote q) (c : Char) (r r' : List Char) :
    literalChar q c ++ r ≠ q :: r' := by
  have hbackslash : q ≠ '\\' := by rcases hq with rfl | rfl <;> decide
  intro h
  have hread := unescape_literalChar hq c r
  rw [h, unescape_cons hbackslash] at hread
  obtain ⟨rfl, -⟩ := Prod.mk.inj (Option.some.inj hread)
  -- the quote itself is written with a backslash in front of it
  simp [literalChar, hbackslash.symm] at h

/-- The inside of a literal ends at its quote. -/
theorem flatMap_literalChar_append_inj {q : Char} (hq : IsQuote q) {cs cs' r r' : List Char}
    (h : cs.flatMap (literalChar q) ++ q :: r = cs'.flatMap (literalChar q) ++ q :: r') :
    cs = cs' ∧ r = r' := by
  induction cs generalizing cs' with
  | nil =>
      -- the closing quote is never what a character is written as
      cases cs' with
      | nil => simpa using h
      | cons c' cs' =>
          rw [List.flatMap_cons, List.append_assoc] at h
          exact absurd h.symm (literalChar_append_ne hq c' _ _)
  | cons c cs ih =>
      rw [List.flatMap_cons, List.append_assoc] at h
      cases cs' with
      | nil => exact absurd h (literalChar_append_ne hq c _ _)
      | cons c' cs' =>
          rw [List.flatMap_cons, List.append_assoc] at h
          have hread := congrArg unescape h
          rw [unescape_literalChar hq, unescape_literalChar hq] at hread
          obtain ⟨rfl, hrest⟩ := Prod.mk.inj (Option.some.inj hread)
          obtain ⟨rfl, hr⟩ := ih hrest
          exact ⟨rfl, hr⟩

/-- A string can be read off its literal. -/
theorem literal_append_inj {cs cs' r r' : List Char} (h : literal cs ++ r = literal cs' ++ r') :
    cs = cs' ∧ r = r' := by
  simp only [literal, List.cons_append, List.append_assoc, List.cons.injEq] at h
  obtain ⟨hquote, hbody⟩ := h
  rw [← hquote] at hbody
  exact flatMap_literalChar_append_inj (isQuote_literalQuote cs) hbody

/-! ## Integers -/

/-- The characters that come behind a value: separators and closing brackets. -/
def isStop (c : Char) : Bool := c = ',' || c = ':' || c = ')' || c = ']' || c = '}'

/-- What is behind a value: nothing, or something that starts with a stop. -/
def Stops (r : List Char) : Prop := ∀ c ∈ r.head?, isStop c = true

/-- A text that starts, but not with a stop. -/
def Starts (t : List Char) : Prop := ∃ c, t.head? = some c ∧ isStop c = false

theorem stops_nil : Stops [] := fun _ hc => by cases hc

theorem stops_cons {c : Char} (hc : isStop c = true) (r : List Char) : Stops (c :: r) := by
  intro c' hc'
  obtain rfl : c = c' := by simpa using hc'
  exact hc

/-- What starts a value is told from a stop. -/
theorem Starts.append_ne {t r r' : List Char} (ht : Starts t) {c : Char} (hc : isStop c = true) :
    t ++ r ≠ c :: r' := by
  obtain ⟨c', hhead, hc'⟩ := ht
  intro h
  have hfirst := congrArg List.head? h
  rw [List.head?_append, hhead] at hfirst
  obtain rfl : c' = c := by simpa using hfirst
  simp [hc] at hc'

theorem Starts.append {t : List Char} (ht : Starts t) (r : List Char) : Starts (t ++ r) := by
  obtain ⟨c, hhead, hc⟩ := ht
  exact ⟨c, by rw [List.head?_append, hhead]; rfl, hc⟩

/-- Texts without stops are told apart from what starts with one. -/
theorem append_inj_of_stops {xs ys r r' : List Char} (hxs : ∀ c ∈ xs, isStop c = false)
    (hys : ∀ c ∈ ys, isStop c = false) (hr : Stops r) (hr' : Stops r') (h : xs ++ r = ys ++ r') :
    xs = ys ∧ r = r' := by
  have hread {xs r : List Char} (hxs : ∀ c ∈ xs, isStop c = false) (hr : Stops r) :
      (xs ++ r).takeWhile (fun c => !isStop c) = xs := by
    rw [List.takeWhile_append_of_pos (by simpa using hxs)]
    cases r with
    | nil => simp
    | cons c r => simp [hr c rfl]
  obtain rfl : xs = ys := by rw [← hread hxs hr, ← hread hys hr', h]
  exact ⟨rfl, List.append_cancel_left h⟩

/-- A numeral has no stop in it. -/
theorem isStop_of_mem_repr (n : Int) : ∀ c ∈ n.repr.toList, isStop c = false := by
  intro c hc
  by_contra hstop
  simp only [isStop, Bool.not_eq_false, Bool.or_eq_true, decide_eq_true_eq, or_assoc] at hstop
  have hdigit := isDigit_of_mem_repr hc
  rcases hstop with rfl | rfl | rfl | rfl | rfl <;> exact absurd hdigit (by decide)

theorem toList_repr_ne_nil (n : Int) : n.repr.toList ≠ [] := by
  rw [Int.repr_eq_if]
  split
  · simp
  · simp

/-- An integer can be read off its digits. -/
theorem repr_append_inj {m n : Int} {r r' : List Char} (hr : Stops r) (hr' : Stops r')
    (h : m.repr.toList ++ r = n.repr.toList ++ r') : m = n ∧ r = r' := by
  obtain ⟨hrepr, rfl⟩ :=
    append_inj_of_stops (isStop_of_mem_repr m) (isStop_of_mem_repr n) hr hr' h
  exact ⟨Int.repr_inj.mp (String.toList_inj.mp hrepr), rfl⟩

/-! ## Brackets -/

/-- Texts with a separator in front of each, and a bracket behind them. -/
def continued (close : Char) : List (List Char) → List Char
  | [] => [close]
  | t :: ts => ',' :: ' ' :: (t ++ continued close ts)

/-- What is behind the first item of a tuple: a comma at least. -/
def tupleRest : List (List Char) → List Char
  | [] => [',', ')']
  | t :: ts => continued ')' (t :: ts)

/-- Texts of items inside a bracket, given how the first one is followed by the others. -/
def bracketed (close : Char) (rest : List (List Char) → List Char) : List (List Char) → List Char
  | [] => [close]
  | t :: ts => t ++ rest ts

/-- Texts that are joined and put into brackets. -/
theorem toList_bracketed {left right : String} {opening close : Char}
    (hleft : left.toList = [opening]) (hright : right.toList = [close]) (parts : List String) :
    (left ++ String.intercalate ", " parts ++ right).toList =
      opening :: bracketed close (continued close) (parts.map String.toList) := by
  have hcontinued (t : List Char) (ts : List (List Char)) :
      [',', ' '].intercalate (t :: ts) ++ [close] = t ++ continued close ts := by
    induction ts generalizing t with
    | nil => simp [continued]
    | cons t' ts ih =>
        rw [List.intercalate_cons_cons, List.append_assoc, List.append_assoc, ih t']
        rfl
  rw [String.toList_append, String.toList_append, String.toList_intercalate, hleft, hright]
  cases parts with
  | nil => rfl
  | cons part parts => exact congrArg (opening :: ·) (hcontinued _ _)

section

variable {α : Type} {text : α → List Char} {R : α → α → Prop} {a b : α} {as bs : List α}
  {r r' : List Char} {close : Char}

/-- The texts of two items are told apart, unless the items are related. -/
def Reads (text : α → List Char) (R : α → α → Prop) (a b : α) : Prop :=
  ∀ r r', Stops r → Stops r' → text a ++ r = text b ++ r' → R a b ∧ r = r'

/-- Behind an item comes a comma or the closing bracket. -/
theorem stops_continued (hclose : isStop close = true) (ts : List (List Char)) (r : List Char) :
    Stops (continued close ts ++ r) := by
  cases ts with
  | nil => exact stops_cons hclose r
  | cons t ts => exact stops_cons rfl _

/-- Items behind others can be read if each of them can. -/
theorem continued_inj (hclose : isStop close = true) (hcomma : close ≠ ',')
    (hreads : ∀ a ∈ as, ∀ b ∈ bs, Reads text R a b)
    (h : continued close (as.map text) ++ r = continued close (bs.map text) ++ r') :
    List.Forall₂ R as bs ∧ r = r' := by
  induction as generalizing bs with
  | nil =>
      -- a comma and the closing bracket tell whether another item follows
      cases bs with
      | nil => exact ⟨.nil, (List.cons_eq_cons.mp h).2⟩
      | cons b bs => exact absurd (List.cons_eq_cons.mp h).1 hcomma
  | cons a as ih =>
      cases bs with
      | nil => exact absurd (List.cons_eq_cons.mp h).1.symm hcomma
      | cons b bs =>
          simp only [List.map_cons, continued, List.cons_append, List.append_assoc,
            List.cons.injEq, true_and] at h
          obtain ⟨hab, hrest⟩ := hreads a List.mem_cons_self b List.mem_cons_self _ _
            (stops_continued hclose _ r) (stops_continued hclose _ r') h
          obtain ⟨hrelated, hr⟩ := ih (fun a ha b hb => hreads a (List.mem_cons_of_mem _ ha) b
            (List.mem_cons_of_mem _ hb)) hrest
          exact ⟨.cons hab hrelated, hr⟩

theorem stops_tupleRest (ts : List (List Char)) (r : List Char) : Stops (tupleRest ts ++ r) := by
  cases ts with
  | nil => exact stops_cons rfl _
  | cons t ts => exact stops_continued rfl (t :: ts) r

/-- The other items of a tuple can be read if each of them can. -/
theorem tupleRest_inj (hreads : ∀ a ∈ as, ∀ b ∈ bs, Reads text R a b)
    (h : tupleRest (as.map text) ++ r = tupleRest (bs.map text) ++ r') :
    List.Forall₂ R as bs ∧ r = r' := by
  cases as with
  | nil =>
      cases bs with
      | nil => exact ⟨.nil, List.append_cancel_left h⟩
      | cons b bs => simp [tupleRest, continued] at h
  | cons a as =>
      cases bs with
      | nil => simp [tupleRest, continued] at h
      | cons b bs => exact continued_inj rfl (by decide) hreads h

/-- Items in brackets can be read if the first one can, none looks like the closing bracket, and
the others can be read behind the first one. -/
theorem bracketed_inj {rest : List (List Char) → List Char} (hclose : isStop close = true)
    (hstops : ∀ ts r, Stops (rest ts ++ r))
    (hrest : ∀ as bs, (∀ a ∈ as, ∀ b ∈ bs, Reads text R a b) →
      rest (as.map text) ++ r = rest (bs.map text) ++ r' → List.Forall₂ R as bs ∧ r = r')
    (hstarts : ∀ a ∈ as, Starts (text a)) (hstarts' : ∀ b ∈ bs, Starts (text b))
    (hreads : ∀ a ∈ as, ∀ b ∈ bs, Reads text R a b)
    (h : bracketed close rest (as.map text) ++ r = bracketed close rest (bs.map text) ++ r') :
    List.Forall₂ R as bs ∧ r = r' := by
  cases as with
  | nil =>
      -- no item starts with the closing bracket
      cases bs with
      | nil => exact ⟨.nil, (List.cons_eq_cons.mp h).2⟩
      | cons b bs =>
          rw [List.map_cons, bracketed, List.append_assoc] at h
          exact absurd h.symm ((hstarts' b List.mem_cons_self).append_ne hclose)
  | cons a as =>
      rw [List.map_cons, bracketed, List.append_assoc] at h
      cases bs with
      | nil => exact absurd h ((hstarts a List.mem_cons_self).append_ne hclose)
      | cons b bs =>
          rw [List.map_cons, bracketed, List.append_assoc] at h
          obtain ⟨hab, hothers⟩ := hreads a List.mem_cons_self b List.mem_cons_self _ _
            (hstops _ r) (hstops _ r') h
          obtain ⟨hrelated, hr⟩ := hrest as bs (fun a ha b hb =>
            hreads a (List.mem_cons_of_mem _ ha) b (List.mem_cons_of_mem _ hb)) hothers
          exact ⟨.cons hab hrelated, hr⟩

end

end Wordcode.Text
