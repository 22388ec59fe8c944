import Wordcode.Disassembly
import Wordcode.Proofs.Admission
import Wordcode.Proofs.Prefixes
import Mathlib

namespace Wordcode

/-! # Totals of nested code

Code objects nest through their constants. Flattening, the statistics and the counts of opcodes go
through everything that is nested, each on its own way, and account for the same instruction units.

* `Code.Flattens` says what flattening gives, in terms of the code objects in the constants.
* `Code.Sums` and `Code.Chain` say what the statistics are.
* `Listing.map_number_units`: the units of all instructions are those of the stream.
* `Code.countOps_accounts` is the result.
-/

/-! ## Flattening -/

namespace Code

mutual

/-- A code object, and then everything nested in it. -/
inductive Flattens : Code → List Code → Prop
  | code {c : Code} {codes : List Code} (h : FlattensAll c.children codes) :
    Flattens c (c :: codes)

/-- Code objects in their order, each followed by everything nested in it. One that occurs more
than once is there as often. -/
inductive FlattensAll : List (Option Code) → List Code → Prop
  | nil : FlattensAll [] []
  | cons {d : Code} {codes codes' : List Code} {rest : List (Option Code)} (h : Flattens d codes)
    (hrest : FlattensAll rest codes') : FlattensAll (some d :: rest) (codes ++ codes')

end

/-- Flattening two parts. -/
theorem FlattensAll.append {xs ys : List (Option Code)} {codes codes' : List Code}
    (h : FlattensAll xs codes) (h' : FlattensAll ys codes') :
    FlattensAll (xs ++ ys) (codes ++ codes') := by
  induction xs generalizing codes with
  | nil =>
      cases h
      exact h'
  | cons x xs ih =>
      cases h with
      | cons hfirst hrest =>
          rw [List.append_assoc]
          exact .cons hfirst (ih hrest)

/-- Constants are flattened one after the other. -/
theorem flattenIn_cons_eq_some {k : Const} {ks : List Const} {codes : List Code}
    (h : flattenIn (k :: ks) = some codes) :
    ∃ first rest, flattenConst k = some first ∧ flattenIn ks = some rest ∧
      codes = first ++ rest := by
  rw [flattenIn_cons, Option.bind_eq_some_iff] at h
  obtain ⟨first, hfirst, hmap⟩ := h
  obtain ⟨rest, hrest, rfl⟩ := Option.map_eq_some_iff.mp hmap
  exact ⟨first, rest, hfirst, hrest, rfl⟩

mutual

/-- What flattening gives are the code objects in order, by induction on the code. -/
theorem flattens_of_flatten : (c : CodeOf Const) → {codes : List Code} →
    flatten c = some codes → Flattens c codes
  | c@{ constants := ks, .. }, codes, h => by
      rw [flatten, Option.map_eq_some_iff] at h
      obtain ⟨rest, hrest, rfl⟩ := h
      exact .code (flattensAll_of_flattenIn ks hrest)

theorem flattensAll_of_flattenConst : (k : Const) → {codes : List Code} →
    flattenConst k = some codes → FlattensAll k.children codes
  | .code c, codes, h => by
      rw [flattenConst] at h
      rw [Const.children, ← List.append_nil codes]
      exact .cons (flattens_of_flatten c h) .nil
  | .noCode, codes, h => by
      rw [flattenConst] at h
      cases h
  | .tuple items, codes, h => by
      rw [flattenConst] at h
      rw [Const.children, Const.childrenIn_eq]
      exact flattensAll_of_flattenIn items h
  | .none, codes, h | .bool _, codes, h | .int _, codes, h | .float _, codes, h
  | .str _, codes, h | .stray _, codes, h | .array _, codes, h | .foreign _, codes, h => by
      simp only [flattenConst, Option.some.injEq] at h
      subst h
      exact .nil

theorem flattensAll_of_flattenIn : (ks : List Const) → {codes : List Code} →
    flattenIn ks = some codes → FlattensAll (ks.flatMap Const.children) codes
  | [], codes, h => by
      rw [flattenIn] at h
      cases h
      exact .nil
  | k :: ks, codes, h => by
      obtain ⟨first, rest, hfirst, hrest, rfl⟩ := flattenIn_cons_eq_some h
      exact (flattensAll_of_flattenConst k hfirst).append (flattensAll_of_flattenIn ks hrest)

end

/-! ## Statistics -/

/-- A chain of nested code objects: the first one is among the given ones, and each of the others is
in the constants of the one before. -/
inductive Chain : List (Option Code) → Nat → Prop
  | nil {children : List (Option Code)} : Chain children 0
  | cons {children : List (Option Code)} {d : Code} {n : Nat} (hd : some d ∈ children)
    (h : Chain d.children n) : Chain children (n + 1)

/-- The greatest length of a chain from the given code objects. -/
def Height (children : List (Option Code)) (n : Nat) : Prop := IsGreatest {m | Chain children m} n

/-- A chain below some children is one below more. -/
theorem Chain.mono {xs ys : List (Option Code)} {n : Nat} (h : Chain xs n) (hsub : xs ⊆ ys) :
    Chain ys n := by
  cases h with
  | nil => exact .nil
  | cons hd h => exact .cons (hsub hd) h

theorem height_nil : Height [] 0 := by
  refine ⟨.nil, fun m hm => ?_⟩
  cases hm with
  | nil => exact Nat.le_refl 0
  | cons hd _ => cases hd

/-- The height of two parts is the greater one. -/
theorem Height.append {xs ys : List (Option Code)} {m n : Nat} (hx : Height xs m)
    (hy : Height ys n) : Height (xs ++ ys) (max m n) := by
  constructor
  · rcases max_choice m n with h | h
    · rw [h]
      exact hx.1.mono (List.subset_append_left xs ys)
    · rw [h]
      exact hy.1.mono (List.subset_append_right xs ys)
  · intro l hl
    cases hl with
    | nil => exact Nat.zero_le _
    | cons hd h =>
        rcases List.mem_append.mp hd with hd | hd
        · exact le_max_of_le_left (hx.2 (.cons hd h))
        · exact le_max_of_le_right (hy.2 (.cons hd h))

/-- A code object adds one to the height of what it holds. -/
theorem Height.single (c : Code) {n : Nat} (h : Height c.children n) :
    Height [some c] (n + 1) := by
  refine ⟨.cons (List.mem_singleton_self _) h.1, fun l hl => ?_⟩
  cases hl with
  | nil => exact Nat.zero_le _
  | cons hd hchain =>
      obtain rfl := Option.some.inj (List.mem_singleton.mp hd)
      exact Nat.succ_le_succ (h.2 hchain)

/-- Totals that are sums over code objects. -/
structure Sums (codes : List Code) (s : Stats) : Prop where
  instructionBytes : s.instructionBytes = (codes.map (·.instructions.length)).sum
  constants : s.constants = (codes.map (·.constants.length)).sum
  names : s.names = (codes.map (·.names.length)).sum

theorem sums_nil : Sums [] {} := ⟨rfl, rfl, rfl⟩

/-- Sums of two parts. -/
theorem Sums.append {codes codes' : List Code} {s s' : Stats} (h : Sums codes s)
    (h' : Sums codes' s') : Sums (codes ++ codes') (s.beside s') where
  instructionBytes := by simp [Stats.beside, h.instructionBytes, h'.instructionBytes]
  constants := by simp [Stats.beside, h.constants, h'.constants]
  names := by simp [Stats.beside, h.names, h'.names]

mutual

/-- The statistics of a code object, its own contents included. It is not a function of its own. -/
theorem exists_stats : (c : CodeOf Const) → {codes : List Code} → flatten c = some codes →
    ∃ s, stats c = some s ∧ Sums codes s ∧ s.functions + 1 = codes.length ∧
      Height [some c] s.depth
  | c@{ instructions, constants := ks, names, .. }, codes, h => by
      rw [flatten, Option.map_eq_some_iff] at h
      obtain ⟨rest, hrest, rfl⟩ := h
      obtain ⟨s, hs, hsums, hfunctions, hdepth⟩ := exists_statsIn ks hrest
      refine ⟨{ s with
        instructionBytes := instructions.length + s.instructionBytes
        constants := ks.length + s.constants
        names := names.length + s.names
        depth := s.depth + 1 }, by rw [stats, hs]; rfl, ⟨?_, ?_, ?_⟩, ?_, .single _ hdepth⟩
      · simp [hsums.instructionBytes]
      · simp [hsums.constants]
      · simp [hsums.names]
      · simp [hfunctions]

/-- The statistics of the code objects in a constant. -/
theorem exists_statsConst : (k : Const) → {codes : List Code} → flattenConst k = some codes →
    ∃ s, statsConst k = some s ∧ Sums codes s ∧ s.functions = codes.length ∧
      Height k.children s.depth
  | .code c, codes, h => by
      rw [flattenConst] at h
      obtain ⟨s, hs, hsums, hfunctions, hdepth⟩ := exists_stats c h
      exact ⟨{ s with functions := s.functions + 1 }, by rw [statsConst, hs]; rfl,
        ⟨hsums.1, hsums.2, hsums.3⟩, hfunctions, by rwa [Const.children]⟩
  | .noCode, codes, h => by
      rw [flattenConst] at h
      cases h
  | .tuple items, codes, h => by
      rw [flattenConst] at h
      rw [statsConst, Const.children, Const.childrenIn_eq]
      exact exists_statsIn items h
  | .none, codes, h | .bool _, codes, h | .int _, codes, h | .float _, codes, h
  | .str _, codes, h | .stray _, codes, h | .array _, codes, h | .foreign _, codes, h => by
      simp only [flattenConst, Option.some.injEq] at h
      subst h
      exact ⟨{}, by simp [statsConst], sums_nil, rfl, by simpa [Const.children] using height_nil⟩

/-- The statistics of the code objects in a sequence of constants. -/
theorem exists_statsIn : (ks : List Const) → {codes : List Code} → flattenIn ks = some codes →
    ∃ s, statsIn ks = some s ∧ Sums codes s ∧ s.functions = codes.length ∧
      Height (ks.flatMap Const.children) s.depth
  | [], codes, h => by
      rw [flattenIn] at h
      cases h
      exact ⟨{}, by rw [statsIn], sums_nil, rfl, height_nil⟩
  | k :: ks, codes, h => by
      obtain ⟨first, rest, hfirst, hrest, rfl⟩ := flattenIn_cons_eq_some h
      obtain ⟨s, hs, hsums, hfunctions, hdepth⟩ := exists_statsConst k hfirst
      obtain ⟨s', hs', hsums', hfunctions', hdepth'⟩ := exists_statsIn ks hrest
      refine ⟨s.beside s', by rw [statsIn, hs, hs']; rfl, hsums.append hsums', ?_,
        hdepth.append hdepth'⟩
      rw [List.length_append, ← hfunctions, ← hfunctions']
      rfl

end

end Code

/-! ## Units -/

/-- The opcode bytes of a stream, one for each instruction unit. -/
def Code.unitBytes (c : Code) : List UInt8 := (unitsOf c.instructions).map Prod.fst

/-- The opcodes of the units of an instruction whose operand is not resolved. -/
def RawInstruction.unitOps (r : RawInstruction) : List Opcode :=
  List.replicate (r.size / Opcode.unitSize - 1) .extendedArg ++ [r.op]

/-- The instructions that the units up to a position end, and the prefixes behind them, have the
opcodes of these units. -/
theorem unitOps_instructionAt? {units : List (UInt8 × UInt8)} {n : Nat}
    (hfits : ∀ j < n, Fits units j) :
    (((List.range n).filterMap (instructionAt? units)).flatMap RawInstruction.unitOps ++
        List.replicate (prefixesAt units n).length Opcode.extendedArg).map Opcode.number =
      (units.take n).map Prod.fst := by
  -- the trailing prefixes belong to an instruction that has not ended yet
  induction n with
  | zero => simp [prefixesAt]
  | succ n ih =>
      obtain ⟨op, last, hat, -, -⟩ := hfits n (Nat.lt_succ_self n)
      have htake : units.take (n + 1) = units.take n ++ [(op.number, last)] := by
        rw [List.take_add_one, hat]
        rfl
      rw [htake, List.map_append (f := Prod.fst), ← ih fun j hj => hfits j (Nat.lt_succ_of_lt hj),
        List.range_succ, List.filterMap_append, prefixesAt_succ hat]
      by_cases hext : op = .extendedArg
      · -- the unit is one more prefix
        have hnone : instructionAt? units n = none := by rw [instructionAt?_eq hat, if_pos hext]
        simp [hnone, hext, List.replicate_succ']
      · -- the unit ends an instruction, to which the prefixes belong
        have hsome := instructionAt?_eq hat
        rw [if_neg hext] at hsome
        simp [hsome, hext, RawInstruction.unitOps, Opcode.unitSize]

namespace Listing

variable {c : Code} {l : Listing}

/-- The units of all instructions are those of the stream, in order. -/
theorem map_number_units (h : c.decode = .ok l) :
    (l.instructions.toList.flatMap Instruction.unitOps).map Opcode.number = c.unitBytes := by
  obtain ⟨-, hscan, -, -⟩ := Code.decode_eq_ok_iff.mp h
  obtain ⟨-, hfits, hnone, hraw⟩ := scan_eq_ok_iff_fits.mp hscan
  have hunits := unitOps_instructionAt? hfits
  rw [← hraw, hnone, List.take_length, List.length_nil, List.replicate_zero, List.append_nil,
    raw, Array.toList_map, List.flatMap_map] at hunits
  exact hunits

/-- A unit has two bytes. -/
theorem length_unitBytes (h : c.decode = .ok l) :
    c.instructions.length = 2 * c.unitBytes.length := by
  obtain ⟨-, hscan, -, -⟩ := Code.decode_eq_ok_iff.mp h
  have heven := (scan_eq_ok_iff_fits.mp hscan).1
  rw [Code.unitBytes, List.length_map, length_unitsOf]
  simp only [Opcode.unitSize] at *
  omega

end Listing

/-! ## Counts -/

theorem Opcode.nodup_all : all.Nodup := by decide

theorem Opcode.mem_all (op : Opcode) : op ∈ all := by cases op <;> decide

/-- Operations have different names. -/
theorem Opcode.name_inj {o o' : Opcode} (h : o.name = o'.name) : o = o' := by
  have hnodup : (all.map name).Nodup := by decide
  exact List.inj_on_of_nodup_map hnodup (mem_all o) (mem_all o') h

/-- The counts of a list of opcodes add up to its length. -/
theorem Opcode.sum_count_all (ops : List Opcode) :
    (all.map fun op => ops.count op).sum = ops.length := by
  have hcard := Multiset.sum_count_eq_card (s := all.toFinset) (m := (ops : Multiset Opcode))
    fun op _ => List.mem_toFinset.mpr (mem_all op)
  rw [List.sum_toFinset _ nodup_all] at hcard
  simpa only [Multiset.coe_count, Multiset.coe_card] using hcard

/-- Higher counts come first, and of equal ones the lesser name. -/
theorem countBefore_iff {a b : Opcode × Nat} :
    countBefore a b = true ↔ b.2 < a.2 ∨ a.2 = b.2 ∧ a.1.name ≤ b.1.name := by
  unfold countBefore
  by_cases h : a.2 = b.2 <;> simp [h]

/-- Counts can always be compared. -/
theorem countBefore_total (a b : Opcode × Nat) : (countBefore a b || countBefore b a) = true := by
  rw [Bool.or_eq_true, countBefore_iff, countBefore_iff]
  rcases Nat.lt_trichotomy a.2 b.2 with h | h | h
  · exact .inr (.inl h)
  · exact (String.le_total a.1.name b.1.name).imp (fun hle => .inr ⟨h, hle⟩)
      fun hle => .inr ⟨h.symm, hle⟩
  · exact .inl (.inl h)

/-- Their order is transitive. -/
theorem countBefore_trans (a b c : Opcode × Nat) (hab : countBefore a b = true)
    (hbc : countBefore b c = true) : countBefore a c = true := by
  rw [countBefore_iff] at *
  rcases hab with hab | ⟨hab, hname⟩
  · exact .inl (hbc.elim (fun h => h.trans hab) fun h => h.1 ▸ hab)
  · exact hbc.imp (fun h => hab ▸ h) fun h => ⟨hab.trans h.1, String.le_trans hname h.2⟩

namespace Code

/-- The opcode bytes of some code objects one after another. -/
def unitBytesOf (codes : List Code) : List UInt8 := codes.flatMap unitBytes

/-- Units found by decoding code objects one after another are those of their streams. -/
theorem map_number_flatten {codes : List Code} {ops : List (List Opcode)}
    (h : List.Forall₂ (fun d o => (do
      let listing ← Code.decode d
      return listing.instructions.toList.flatMap Instruction.unitOps) = Except.ok o) codes ops) :
    ops.flatten.map Opcode.number = unitBytesOf codes ∧ ∀ d ∈ codes, ∃ l, d.decode = .ok l := by
  induction h with
  | nil => exact ⟨rfl, by simp⟩
  | @cons d o codes ops hfirst _ ih =>
      obtain ⟨l, hdecode, hunits⟩ := except_bind_eq_ok hfirst
      cases hunits
      refine ⟨?_, List.forall_mem_cons.mpr ⟨⟨l, hdecode⟩, ih.2⟩⟩
      rw [List.flatten_cons, List.map_append, ih.1, Listing.map_number_units hdecode]
      rfl

/-- How often each opcode occurs, in the order of counts. -/
def countsOf (ops : List Opcode) : List (Opcode × Nat) :=
  ((Opcode.all.map fun op => (op, ops.count op)).filter (0 < ·.2)).mergeSort countBefore

/-- A successful count decodes everything that is nested, and counts the units of all streams. -/
theorem countOps_eq_ok {c : Code} {counts : List (Opcode × Nat)} (h : c.countOps = .ok counts) :
    ∃ (codes : List Code) (ops : List Opcode), flatten c = some codes ∧
      (∀ d ∈ codes, ∃ l, d.decode = .ok l) ∧ ops.map Opcode.number = unitBytesOf codes ∧
      counts = countsOf ops := by
  cases hcodes : flatten c with
  | none =>
      simp only [countOps, hcodes] at h
      cases h
  | some codes =>
      simp only [countOps, hcodes] at h
      obtain ⟨ops, hops, hcounts⟩ := except_bind_eq_ok (x := codes.mapM _) h
      cases hcounts
      obtain ⟨hunits, hdecode⟩ := map_number_flatten (mapM_eq_ok_iff.mp hops)
      exact ⟨codes, ops.flatten, rfl, hdecode, hunits, rfl⟩

/-- An operation is listed with how often it occurs, if it occurs. -/
theorem mem_countsOf {ops : List Opcode} {op : Opcode} {n : Nat} :
    (op, n) ∈ countsOf ops ↔ 0 < n ∧ n = ops.count op := by
  simp only [countsOf, List.mem_mergeSort, List.mem_filter, List.mem_map, Prod.mk.injEq,
    decide_eq_true_eq]
  constructor
  · rintro ⟨⟨_, -, rfl, rfl⟩, hpos⟩
    exact ⟨hpos, rfl⟩
  · rintro ⟨hpos, rfl⟩
    exact ⟨⟨op, Opcode.mem_all op, rfl, rfl⟩, hpos⟩

/-- Opcodes that do not occur add nothing. -/
theorem sum_filter_pos (counts : List (Opcode × Nat)) :
    ((counts.filter (0 < ·.2)).map Prod.snd).sum = (counts.map Prod.snd).sum := by
  induction counts with
  | nil => rfl
  | cons p counts ih =>
      rw [List.filter_cons]
      split
      · simp [ih]
      · rename_i hzero
        simp only [decide_eq_true_eq, not_lt, Nat.le_zero] at hzero
        simp [ih, hzero]

/-- The counts add up to the number of operations. -/
theorem sum_countsOf (ops : List Opcode) : ((countsOf ops).map Prod.snd).sum = ops.length := by
  calc ((countsOf ops).map Prod.snd).sum
    _ = (((Opcode.all.map fun op => (op, ops.count op)).filter (0 < ·.2)).map Prod.snd).sum :=
        ((List.mergeSort_perm _ countBefore).map Prod.snd).sum_eq
    _ = (Opcode.all.map fun op => ops.count op).sum := by
        rw [sum_filter_pos, List.map_map]
        rfl
    _ = ops.length := Opcode.sum_count_all ops

/-- No opcode is listed twice, so that the order is strict. -/
theorem pairwise_countsOf (ops : List Opcode) :
    (countsOf ops).Pairwise fun a b => b.2 < a.2 ∨ a.2 = b.2 ∧ a.1.name < b.1.name := by
  have hnodup : ((countsOf ops).map Prod.fst).Nodup := by
    have hall : ((Opcode.all.map fun op => (op, ops.count op)).map Prod.fst).Nodup := by
      rw [List.map_map]
      exact (List.map_id Opcode.all).symm ▸ Opcode.nodup_all
    have hperm := (List.mergeSort_perm ((Opcode.all.map fun op => (op, ops.count op)).filter
      (0 < ·.2)) countBefore).map Prod.fst
    exact hperm.nodup_iff.mpr (hall.sublist (List.filter_sublist.map Prod.fst))
  have hsorted := List.pairwise_mergeSort countBefore_trans countBefore_total
    ((Opcode.all.map fun op => (op, ops.count op)).filter (0 < ·.2))
  refine (hsorted.and (List.pairwise_map.mp hnodup)).imp fun {a b} ⟨hbefore, hne⟩ => ?_
  refine (countBefore_iff.mp hbefore).imp_right fun ⟨hcount, hname⟩ => ⟨hcount, ?_⟩
  exact lt_of_le_of_ne hname fun h => hne (Opcode.name_inj h)

/-- Where the count of opcodes succeeds, it counts every instruction unit once, of the code object
and of everything nested in it, in the strict order of counts and then of names. The statistics are
those of the flattened code objects: there is one more of these than nested ones, the sizes are
sums, and the depth is the greatest length of a chain of nested code objects. -/
theorem countOps_accounts {c : Code} {counts : List (Opcode × Nat)}
    (h : c.countOps = .ok counts) :
    ∃ codes totals, flatten c = some codes ∧ stats c = some totals ∧ Flattens c codes ∧
      (∀ op n, (op, n) ∈ counts ↔ 0 < n ∧ n = (unitBytesOf codes).count op.number) ∧
      (counts.map Prod.snd).sum = (unitBytesOf codes).length ∧
      2 * (counts.map Prod.snd).sum = totals.instructionBytes ∧
      (counts.Pairwise fun a b => b.2 < a.2 ∨ a.2 = b.2 ∧ a.1.name < b.1.name) ∧
      Sums codes totals ∧ totals.functions + 1 = codes.length ∧ Height [some c] totals.depth := by
  obtain ⟨codes, ops, hcodes, hdecode, hunits, rfl⟩ := countOps_eq_ok h
  obtain ⟨totals, hstats, hsums, hfunctions, hdepth⟩ := exists_stats c hcodes
  have hlength : ops.length = (unitBytesOf codes).length := by rw [← hunits, List.length_map]
  -- a unit is two bytes in every code object
  have hbytes : 2 * (unitBytesOf codes).length = totals.instructionBytes := by
    rw [hsums.instructionBytes, unitBytesOf, List.length_flatMap, ← List.sum_map_mul_left]
    refine congrArg List.sum (List.map_congr_left fun d hd => ?_)
    obtain ⟨l, hl⟩ := hdecode d hd
    exact (Listing.length_unitBytes hl).symm
  refine ⟨codes, totals, hcodes, hstats, flattens_of_flatten c hcodes, fun op n => ?_, ?_, ?_,
    pairwise_countsOf ops, hsums, hfunctions, hdepth⟩
  · -- operations are counted by name, bytes by number, and no two share one
    have hcount : (unitBytesOf codes).count op.number = ops.count op := by
      rw [← hunits]
      exact List.count_map_of_injective ops Opcode.number (fun _ _ => Opcode.number_inj.mp) op
    rw [mem_countsOf, hcount]
  · rw [sum_countsOf, hlength]
  · rw [sum_countsOf, hlength, hbytes]

/-- A function that stands twice in a tuple counts twice, and a prefix counts by itself. -/
theorem countOps_accounts_twice :
    let inner : Code := { name := "f", constants := [.none], instructions := [100, 0, 83, 0] }
    let outer : Code :=
      { name := "main", constants := [.tuple [.code inner, .code inner]]
        instructions := [144, 0, 100, 0, 83, 0] }
    let counts : List (Opcode × Nat) := [(.loadConst, 3), (.returnValue, 3), (.extendedArg, 1)]
    outer.countOps = .ok counts ∧ Flattens outer [outer, inner, inner] ∧
      ∃ totals, stats outer = some totals ∧ totals.instructionBytes = 14 ∧ totals.functions = 2 ∧
        Height [some outer] totals.depth := by
  intro inner outer counts
  have hflatten : flatten outer = some [outer, inner, inner] := by cbv
  have hops : ([outer, inner, inner].mapM fun d => do
      let listing ← Code.decode d
      return listing.instructions.toList.flatMap Instruction.unitOps) =
        .ok [[.extendedArg, .loadConst, .returnValue], [.loadConst, .returnValue],
          [.loadConst, .returnValue]] := by
    cbv
  have hsort : countsOf [.extendedArg, .loadConst, .returnValue, .loadConst, .returnValue,
      .loadConst, .returnValue] = counts := by
    have hfilter : ((Opcode.all.map fun op => (op, ([.extendedArg, .loadConst, .returnValue,
        .loadConst, .returnValue, .loadConst, .returnValue] : List Opcode).count op)).filter
          (0 < ·.2)) = [(.returnValue, 3), (.loadConst, 3), (.extendedArg, 1)] := by
      decide
    simp [countsOf, hfilter, List.mergeSort, List.MergeSort.Internal.splitInTwo, countBefore,
      Opcode.name, counts]
  have hcount : outer.countOps = .ok counts := by
    unfold countOps
    rw [hflatten]
    simp only [pure_bind, hops]
    exact congrArg Except.ok hsort
  obtain ⟨codes, totals, hcodes, hstats, hflattens, -, -, hbytes, -, -, hfunctions, hdepth⟩ :=
    countOps_accounts hcount
  obtain rfl := Option.some.inj (hflatten.symm.trans hcodes)
  exact ⟨hcount, hflattens, totals, hstats, hbytes.symm, Nat.succ.inj hfunctions,
    hdepth⟩

end Code

end Wordcode
