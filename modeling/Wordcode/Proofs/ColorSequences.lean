import Wordcode.Table
import Mathlib

namespace Wordcode.Table

/-! # Colour sequences

A text is searched for colour sequences from the left, each from behind the one before. What is left
without them is not searched again, even where their removal has made another one.

* `Table.IsColorSequence` are the sequences, and `Table.Strips` is what is left of a text.
* `Table.strips_iff` says that `Table.stripColor` leaves this.
* `Table.stripColor_append_cons`: a character that stands in no colour sequence divides a text into
  two that are searched on their own, since no sequence is cut by it or goes across it.
* `Table.Occupies` is the number of columns that a text takes, and `Table.displayWidth_flatten` adds
  it up for texts that start with such characters.
-/

/-- A colour sequence: an escape character, a bracket, parameters and the letter `m`. -/
def IsColorSequence (cs : List Char) : Prop :=
  ∃ ps : List Char, (∀ c ∈ ps, isColorParameter c = true) ∧ cs = '\x1b' :: '[' :: (ps ++ ['m'])

/-- A text and what is left of it without its colour sequences. -/
inductive Strips : List Char → List Char → Prop
  | nil : Strips [] []
  | sequence {seq rest out : List Char} : IsColorSequence seq → Strips rest out →
    Strips (seq ++ rest) out
  | keep {c : Char} {rest out : List Char} :
    (∀ seq, IsColorSequence seq → ¬ seq <+: c :: rest) → Strips rest out →
    Strips (c :: rest) (c :: out)

/-- A text takes a number of columns on a terminal that draws one column a character. -/
def Occupies (cs : List Char) (n : Nat) : Prop := ∃ shown, Strips cs shown ∧ shown.length = n

/-- A character that stands in no colour sequence. -/
def Outside (c : Char) : Prop := ∀ seq, IsColorSequence seq → c ∉ seq

variable {c : Char} {cs rest out seq : List Char}

/-! ## What removing colours leaves -/

/-- The length that is recognized is that of a whole color sequence. -/
theorem colorLength?_eq_some_iff {n : Nat} : colorLength? cs = some n ↔
    ∃ ps rest, (∀ c ∈ ps, isColorParameter c = true) ∧ cs = '[' :: (ps ++ 'm' :: rest) ∧
      n = ps.length + 2 := by
  constructor
  · intro h
    unfold colorLength? at h
    split at h
    next cs =>
      split at h
      next rest hdrop =>
        refine ⟨cs.takeWhile isColorParameter, rest, fun c hc => ?_, ?_, ?_⟩
        · exact List.mem_takeWhile_imp hc
        · rw [← hdrop, List.takeWhile_append_dropWhile]
        · simpa using h.symm
      next => cases h
    next => cases h
  · rintro ⟨ps, rest, hps, rfl, rfl⟩
    -- the letter that ends the sequence is no parameter
    have hdrop : (ps ++ 'm' :: rest).dropWhile isColorParameter = 'm' :: rest := by
      rw [List.dropWhile_append_of_pos hps]
      rfl
    have htake : (ps ++ 'm' :: rest).takeWhile isColorParameter = ps := by
      rw [List.takeWhile_append_of_pos hps]
      simp [isColorParameter]
    simp only [colorLength?, hdrop, htake]

/-- The rest of a sequence is dropped. -/
theorem stripColorFrom_eq (n : Nat) (cs : List Char) :
    stripColorFrom n cs = stripColor (cs.drop n) := by
  induction cs generalizing n with
  | nil => cases n <;> rfl
  | cons c cs ih =>
      cases n with
      | zero => rfl
      | succ n => exact ih n

/-- A sequence that is recognized is left out. -/
theorem stripColor_escape {n : Nat} (h : colorLength? cs = some n) :
    stripColor ('\x1b' :: cs) = stripColor (cs.drop n) := by
  rw [← stripColorFrom_eq, stripColor, stripColorFrom, if_pos rfl, h]

/-- So is one that is given. -/
theorem stripColor_sequence (h : IsColorSequence seq) (rest : List Char) :
    stripColor (seq ++ rest) = stripColor rest := by
  obtain ⟨ps, hps, rfl⟩ := h
  have hlength : colorLength? ('[' :: (ps ++ 'm' :: rest)) = some (ps.length + 2) :=
    colorLength?_eq_some_iff.mpr ⟨ps, rest, hps, rfl, rfl⟩
  have hrest : ('[' :: (ps ++ 'm' :: rest)).drop (ps.length + 2) = rest := by
    simp [← List.drop_drop]
  calc stripColor ('\x1b' :: '[' :: (ps ++ ['m']) ++ rest)
      = stripColor ('\x1b' :: '[' :: (ps ++ 'm' :: rest)) := by simp
    _ = stripColor rest := by rw [stripColor_escape hlength, hrest]

/-- A character that begins no sequence stays. -/
theorem stripColor_cons (h : ∀ seq, IsColorSequence seq → ¬ seq <+: c :: rest) :
    stripColor (c :: rest) = c :: stripColor rest := by
  rw [stripColor, stripColorFrom]
  split
  next hc =>
    subst hc
    split
    next n hlength =>
      obtain ⟨ps, rest, hps, rfl, -⟩ := colorLength?_eq_some_iff.mp hlength
      exact absurd ⟨rest, by simp⟩ (h _ ⟨ps, hps, rfl⟩)
    next => rfl
  next => rfl

/-- There is only one way to leave out the sequences. -/
theorem Strips.eq (h : Strips cs out) : stripColor cs = out := by
  induction h with
  | nil => rfl
  | sequence hseq _ ih => rw [stripColor_sequence hseq, ih]
  | keep hnone _ ih => rw [stripColor_cons hnone, ih]

/-- The function leaves them out. -/
theorem strips_stripColor (cs : List Char) : Strips cs (stripColor cs) := by
  -- On the length, since a sequence takes several characters at once.
  induction hn : cs.length using Nat.strong_induction_on generalizing cs with
  | _ n ih =>
    cases cs with
    | nil => exact .nil
    | cons c rest =>
        by_cases hseq : ∃ seq, IsColorSequence seq ∧ seq <+: c :: rest
        · obtain ⟨seq, hseq, rest', hrest⟩ := hseq
          have hpos : 0 < seq.length := by
            obtain ⟨ps, -, rfl⟩ := hseq
            simp
          have hlength := congrArg List.length hrest
          rw [List.length_append, hn] at hlength
          rw [← hrest, stripColor_sequence hseq]
          exact .sequence hseq (ih rest'.length (by omega) rest' rfl)
        · have hnone : ∀ seq, IsColorSequence seq → ¬ seq <+: c :: rest :=
            fun seq h hprefix => hseq ⟨seq, h, hprefix⟩
          rw [stripColor_cons hnone]
          rw [List.length_cons] at hn
          exact .keep hnone (ih rest.length (by omega) rest rfl)

/-- Removing colours leaves what is left of a text without its colour sequences. -/
theorem strips_iff : Strips cs out ↔ stripColor cs = out :=
  ⟨Strips.eq, fun h => h ▸ strips_stripColor cs⟩

/-- The places that a text takes are its display width. -/
theorem occupies_iff {n : Nat} : Occupies cs n ↔ displayWidth cs = n := by
  simp [Occupies, strips_iff, displayWidth]

/-! ## Texts in a row -/

/-- Characters that are in no sequence. -/
theorem outside_of_ne (h : c ∉ ['\x1b', '[', 'm']) (hparameter : isColorParameter c = false) :
    Outside c := by
  rintro seq ⟨ps, hps, rfl⟩ hc
  simp only [List.mem_cons, List.not_mem_nil, or_false, not_or] at h
  simp only [List.mem_cons, List.mem_append, List.not_mem_nil, or_false, h, false_or] at hc
  rw [hps c hc] at hparameter
  cases hparameter

/-- A sequence that starts in front of a character outside of it ends in front of it. -/
theorem prefix_of_prefix_append_cons (hc : c ∉ seq) (h : seq <+: cs ++ c :: rest) :
    seq <+: cs := by
  by_cases hle : seq.length ≤ cs.length
  · exact List.prefix_of_prefix_length_le h (List.prefix_append cs _) hle
  · obtain ⟨more, hmore⟩ := h
    have hget : seq[cs.length]? = some c := by
      rw [← List.getElem?_append_left (by omega), hmore]
      simp
    exact absurd (List.mem_of_getElem? hget) hc

theorem stripColor_outside_cons (hc : Outside c) (rest : List Char) :
    stripColor (c :: rest) = c :: stripColor rest := by
  refine stripColor_cons fun seq hseq hprefix => ?_
  have hempty : seq <+: [] := prefix_of_prefix_append_cons (hc seq hseq) hprefix
  obtain ⟨ps, -, rfl⟩ := hseq
  cases List.prefix_nil.mp hempty

/-- A character that stands in no colour sequence divides a text. -/
theorem stripColor_append_cons (hc : Outside c) (cs rest : List Char) :
    stripColor (cs ++ c :: rest) = stripColor cs ++ c :: stripColor rest := by
  -- On how the first text is searched: it is searched in the same way with more text behind it.
  have hstrips := strips_stripColor cs
  generalize stripColor cs = out at hstrips
  induction hstrips with
  | nil => exact stripColor_outside_cons hc rest
  | @sequence seq cs out hseq _ ih => rw [List.append_assoc, stripColor_sequence hseq, ih]
  | @keep d cs out hnone _ ih =>
      rw [List.cons_append, stripColor_cons, ih, List.cons_append]
      intro seq hseq hprefix
      have hprefix : seq <+: (d :: cs) ++ c :: rest := hprefix
      exact hnone seq hseq (prefix_of_prefix_append_cons (hc seq hseq) hprefix)

/-- Widths add up at a character outside of all sequences. -/
theorem displayWidth_append_cons (hc : Outside c) (cs rest : List Char) :
    displayWidth (cs ++ c :: rest) = displayWidth cs + displayWidth (c :: rest) := by
  simp only [displayWidth, stripColor_append_cons hc, stripColor_outside_cons hc,
    List.length_append]

theorem displayWidth_outside_append (h : ∀ c ∈ cs, Outside c) (rest : List Char) :
    displayWidth (cs ++ rest) = cs.length + displayWidth rest := by
  induction cs with
  | nil => simp
  | cons c cs ih =>
      have hc : Outside c := h c List.mem_cons_self
      have hrest := ih fun d hd => h d (List.mem_cons_of_mem c hd)
      simp only [displayWidth, List.cons_append, stripColor_outside_cons hc, List.length_cons] at *
      omega

theorem displayWidth_append_outside (h : ∀ c ∈ rest, Outside c) (cs : List Char) :
    displayWidth (cs ++ rest) = displayWidth cs + rest.length := by
  cases rest with
  | nil => simp
  | cons c rest =>
      have hrest := displayWidth_outside_append h []
      rw [List.append_nil] at hrest
      rw [displayWidth_append_cons (h c List.mem_cons_self), hrest]
      rfl

/-- Texts that start with characters that stand in no colour sequence take together as many columns
as each on its own. -/
theorem displayWidth_flatten {parts : List (List Char)}
    (h : ∀ part ∈ parts, ∃ c rest, part = c :: rest ∧ Outside c) :
    displayWidth parts.flatten = (parts.map displayWidth).sum := by
  induction parts with
  | nil => rfl
  | cons part parts ih =>
      have hrest := ih fun p hp => h p (List.mem_cons_of_mem part hp)
      rw [List.flatten_cons, List.map_cons, List.sum_cons, ← hrest]
      cases parts with
      | nil => rw [List.flatten_nil, List.append_nil]; rfl
      | cons next parts =>
          obtain ⟨c, rest, rfl, hc⟩ := h next (by simp)
          exact displayWidth_append_cons hc part _

end Wordcode.Table
