import Wordcode.Listing
import Wordcode.Proofs.Sequence
import Mathlib

namespace Wordcode

/-! # Decoding

What a successful decoding says about the stream. Instructions lie one after another and cover the
stream, the table of starts finds each of them by its offset, and every operand is what the
argument of the instruction stands for.

* `Scan.Sound` is the invariant of a scan, and `scan_covers` what is left of it at the end.
* `startsOf_eq_some_iff`: the table of starts.
* `Pools.operand_eq_ok_iff`: the operand of an instruction.
* `Code.decode_eq_ok_iff` puts the parts together, and `Listing.lookup?_eq_some_iff` reads the
  result.
-/

/-! ## Covering a stream -/

/-- Instructions that lie one after another from one offset to another, each a positive number of
units long. -/
def Covers (start : Nat) : List RawInstruction → Nat → Prop
  | [], stop => start = stop
  | r :: rs, stop =>
    r.offset = start ∧ (∃ units, 0 < units ∧ r.size = Opcode.unitSize * units) ∧
      Covers (start + r.size) rs stop

/-- Two stretches that meet. -/
theorem Covers.append {start middle stop : Nat} {rs rs' : List RawInstruction}
    (h : Covers start rs middle) (h' : Covers middle rs' stop) : Covers start (rs ++ rs') stop := by
  induction rs generalizing start with
  | nil =>
      obtain rfl : start = middle := h
      exact h'
  | cons r rs ih => exact ⟨h.1, h.2.1, ih h.2.2⟩

/-- The instruction after each one starts where that one ends; the last one ends the stream. -/
theorem Covers.next {start stop : Nat} {rs : List RawInstruction} (h : Covers start rs stop)
    {r : RawInstruction} (hr : r ∈ rs) : r.next = stop ∨ ∃ r' ∈ rs, r'.offset = r.next := by
  induction rs generalizing start with
  | nil => simp at hr
  | cons r₀ rs ih =>
      obtain ⟨hoffset, -, htail⟩ := h
      rcases List.mem_cons.mp hr with rfl | hmem
      · rw [← hoffset] at htail
        cases rs with
        | nil => exact Or.inl htail
        | cons r₁ rs => exact Or.inr ⟨r₁, by simp, htail.1⟩
      · rcases ih htail hmem with hstop | ⟨r', hr', hnext⟩
        · exact Or.inl hstop
        · exact Or.inr ⟨r', List.mem_cons_of_mem r₀ hr', hnext⟩

/-- The first instruction starts where the stream does. -/
theorem Covers.first {start stop : Nat} {rs : List RawInstruction} (h : Covers start rs stop) :
    start = stop ∨ ∃ r ∈ rs, r.offset = start := by
  cases rs with
  | nil => exact Or.inl h
  | cons r rs => exact Or.inr ⟨r, by simp, h.1⟩

/-- Every instruction lies before the end. -/
theorem Covers.offset_lt {start stop : Nat} {rs : List RawInstruction} (h : Covers start rs stop) :
    start ≤ stop ∧ ∀ r ∈ rs, r.offset < stop := by
  induction rs generalizing start with
  | nil => exact ⟨Nat.le_of_eq h, by simp⟩
  | cons r rs ih =>
      obtain ⟨hoffset, ⟨units, hunits, hsize⟩, htail⟩ := h
      obtain ⟨hle, hall⟩ := ih htail
      have hpos : 0 < r.size := by
        rw [hsize]
        exact Nat.mul_pos (by decide) hunits
      refine ⟨by omega, fun r' hr' => ?_⟩
      rcases List.mem_cons.mp hr' with rfl | hmem
      · omega
      · exact hall r' hmem

/-- From an even offset on, all instructions start at even offsets, and so does what follows. -/
theorem Covers.even {start stop : Nat} {rs : List RawInstruction} (h : Covers start rs stop)
    (hstart : start % 2 = 0) : stop % 2 = 0 ∧ ∀ r ∈ rs, r.offset % 2 = 0 := by
  induction rs generalizing start with
  | nil =>
      obtain rfl : start = stop := h
      exact ⟨hstart, by simp⟩
  | cons r rs ih =>
      obtain ⟨hoffset, ⟨units, -, hsize⟩, htail⟩ := h
      simp only [Opcode.unitSize] at hsize
      obtain ⟨hstop, hall⟩ := ih htail (by omega)
      refine ⟨hstop, fun r' hr' => ?_⟩
      rcases List.mem_cons.mp hr' with rfl | hmem
      · omega
      · exact hall r' hmem

/-! ## Scanning -/

/-- The offset at which the instruction that a scan is about to read starts. -/
def Scan.first (s : Scan) : Nat := if s.pending = 0 then s.offset else s.start

/-- What reading a unit can do: it is one more prefix, or it ends an instruction. -/
theorem Scan.step_cases {name : String} {s s' : Scan} {unit : UInt8 × UInt8}
    (h : s.step name unit = .ok s') :
    ∃ op, Opcode.ofNumber? unit.1 = some op ∧
      ((op = .extendedArg ∧ s.pending ≠ maxPrefixes ∧
        s' = { s with
          offset := s.offset + Opcode.unitSize, start := s.first, pending := s.pending + 1,
          high := s.high * 256 + unit.2.toNat }) ∨
      (op ≠ .extendedArg ∧ (op.hasArg = true ∨ s.pending = 0) ∧
        s' = { offset := s.offset + Opcode.unitSize,
               done := s.done.push ⟨op, if op.hasArg then s.high * 256 + unit.2.toNat else 0,
                 s.first, s.offset + Opcode.unitSize - s.first⟩ })) := by
  unfold Scan.step at h
  cases hop : Opcode.ofNumber? unit.1 with
  | none => simp [hop] at h
  | some op =>
      refine ⟨op, rfl, ?_⟩
      simp only [hop] at h
      -- a unit is a prefix, which must not be one too many, or it ends an instruction
      by_cases hext : op = .extendedArg
      · by_cases hmax : s.pending = maxPrefixes
        · simp [hext, hmax] at h
        · simp only [hext, hmax, if_true, if_false, Except.ok.injEq] at h
          exact Or.inl ⟨hext, hmax, h.symm⟩
      · by_cases harg : op.hasArg = true
        · simp only [hext, harg, if_true, if_false, Except.ok.injEq] at h
          refine Or.inr ⟨hext, Or.inl harg, ?_⟩
          rw [if_pos harg]
          exact h.symm
        · by_cases hpending : 0 < s.pending
          · simp [hext, harg, hpending] at h
          · simp only [hext, harg, hpending, Bool.false_eq_true, if_false, Except.ok.injEq] at h
            refine Or.inr ⟨hext, Or.inr (by omega), ?_⟩
            rw [if_neg harg]
            exact h.symm

/-- What a scan has read lies one after another up to the first pending prefix. -/
structure Scan.Sound (s : Scan) : Prop where
  covers : Covers 0 s.done.toList s.first
  offset_eq : s.offset = s.first + Opcode.unitSize * s.pending
  /-- A prefix is never an instruction of its own. -/
  folded : ∀ r ∈ s.done, r.op ≠ .extendedArg

/-- At first nothing has been read. -/
theorem Scan.sound_initial : Scan.Sound {} where
  covers := rfl
  offset_eq := rfl
  folded := by simp

/-- Reading a unit keeps a scan sound and moves it by one unit. -/
theorem Scan.Sound.step {name : String} {s s' : Scan} {unit : UInt8 × UInt8} (h : s.Sound)
    (hstep : s.step name unit = .ok s') :
    s'.Sound ∧ s'.offset = s.offset + Opcode.unitSize := by
  have hoffset := h.offset_eq
  obtain ⟨op, -, ⟨-, -, rfl⟩ | ⟨hop, -, rfl⟩⟩ := Scan.step_cases hstep
  · -- a prefix is pending and does not move the first offset
    refine ⟨⟨h.covers, ?_, h.folded⟩, rfl⟩
    show s.offset + Opcode.unitSize = s.first + Opcode.unitSize * (s.pending + 1)
    rw [Nat.mul_add]
    omega
  · -- the pending prefixes and this unit are one instruction
    refine ⟨⟨?_, rfl, ?_⟩, rfl⟩
    · have hsize : s.offset + Opcode.unitSize - s.first = Opcode.unitSize * (s.pending + 1) := by
        rw [Nat.mul_add]
        omega
      show Covers 0 (s.done.push _).toList (s.offset + Opcode.unitSize)
      rw [Array.toList_push]
      refine h.covers.append ⟨rfl, ⟨s.pending + 1, Nat.succ_pos _, hsize⟩, ?_⟩
      show s.first + (s.offset + Opcode.unitSize - s.first) = s.offset + Opcode.unitSize
      omega
    · intro r hr
      rcases Array.mem_push.mp hr with hr | rfl
      · exact h.folded r hr
      · exact hop

/-- A scan stays sound to its end. -/
theorem Scan.Sound.run {name : String} {units : List (UInt8 × UInt8)} {s s' : Scan} (h : s.Sound)
    (hrun : units.foldlM (Scan.step name) s = .ok s') :
    s'.Sound ∧ s'.offset = s.offset + Opcode.unitSize * units.length := by
  induction units generalizing s with
  | nil =>
      obtain rfl := Except.ok.inj hrun
      exact ⟨h, rfl⟩
  | cons u us ih =>
      rw [List.foldlM_cons] at hrun
      -- a unit that is refused ends the scan
      cases hstep : s.step name u with
      | error e => simp [hstep, bind, Except.bind] at hrun
      | ok s₁ =>
          obtain ⟨h₁, hoffset⟩ := h.step hstep
          obtain ⟨h', hoffset'⟩ := ih h₁ (by simpa [hstep, bind, Except.bind] using hrun)
          refine ⟨h', ?_⟩
          rw [hoffset', hoffset, List.length_cons, Nat.mul_add]
          omega

/-- What is left of a stream after its units is shorter than one. -/
theorem length_lt_unitSize {bytes : List UInt8}
    (h : ∀ op arg rest, bytes = op :: arg :: rest → False) : bytes.length < Opcode.unitSize := by
  rcases bytes with _ | ⟨op, _ | ⟨arg, rest⟩⟩
  · decide
  · simp [Opcode.unitSize]
  · exact absurd rfl (h op arg rest)

theorem length_unitsOf (bytes : List UInt8) :
    (unitsOf bytes).length = bytes.length / Opcode.unitSize := by
  fun_induction unitsOf bytes with
  | case1 op arg rest ih =>
      rw [List.length_cons, ih]
      simp only [Opcode.unitSize, List.length_cons]
      omega
  | case2 bytes hshort =>
      exact (Nat.div_eq_of_lt (length_lt_unitSize hshort)).symm

/-- A scan of a stream reads all of its units and leaves no prefix pending. -/
theorem scan_eq_ok_iff {name : String} {bytes : List UInt8} {raw : Array RawInstruction} :
    scan name bytes = .ok raw ↔
      bytes.length % Opcode.unitSize = 0 ∧
        ∃ s, (unitsOf bytes).foldlM (Scan.step name) {} = .ok s ∧ s.pending = 0 ∧ s.done = raw := by
  unfold scan
  by_cases hodd : bytes.length % Opcode.unitSize = 0
  · cases hrun : (unitsOf bytes).foldlM (Scan.step name) {} with
    | error e => simp [hodd, bind, Except.bind]
    | ok s =>
        by_cases hpending : 0 < s.pending
        · simp [hodd, bind, Except.bind, hpending, throw, throwThe, MonadExceptOf.throw,
            Nat.ne_of_gt hpending]
        · simp [hodd, bind, Except.bind, pure, Except.pure, Nat.eq_zero_of_not_pos hpending]
  · simp [hodd, bind, Except.bind, throw, throwThe, MonadExceptOf.throw]

/-- The instructions of a stream cover it, and none of them is a prefix. -/
theorem scan_covers {name : String} {bytes : List UInt8} {raw : Array RawInstruction}
    (h : scan name bytes = .ok raw) :
    Covers 0 raw.toList bytes.length ∧ ∀ r ∈ raw, r.op ≠ .extendedArg := by
  obtain ⟨heven, s, hrun, hpending, rfl⟩ := scan_eq_ok_iff.mp h
  obtain ⟨hsound, hoffset⟩ := Scan.sound_initial.run hrun
  have hend : s.first = bytes.length := by
    have hfirst := hsound.offset_eq
    rw [length_unitsOf] at hoffset
    simp only [hpending, Opcode.unitSize] at hfirst hoffset heven
    omega
  exact ⟨hend ▸ hsound.covers, hsound.folded⟩

/-! ## Starts -/

/-- One more instruction in the table of starts. -/
theorem join_push_append_replicate (starts : Array (Option Nat)) (i n t j : Nat) :
    (((starts.push (some i)).append (Array.replicate n none))[t]?).join = some j ↔
      (starts[t]?).join = some j ∨ (t = starts.size ∧ j = i) := by
  rw [Array.append_eq_append]
  rcases Nat.lt_trichotomy t starts.size with hlt | rfl | hgt
  · rw [Array.getElem?_append_left (by simp; omega), Array.getElem?_push_lt hlt,
      Array.getElem?_eq_getElem hlt]
    simp [Nat.ne_of_lt hlt]
  · rw [Array.getElem?_append_left (by simp), Array.getElem?_push_size]
    simp [eq_comm]
  · rw [Array.getElem?_append_right (by simp; omega), Array.getElem?_replicate,
      Array.getElem?_eq_none (Nat.le_of_lt hgt)]
    split_ifs <;> simp [Nat.ne_of_gt hgt]

/-- The running state of `startsOf`. -/
theorem foldl_starts {start stop : Nat} {rs : List RawInstruction} (h : Covers start rs stop)
    (i : Nat) (starts : Array (Option Nat)) (hsize : Opcode.unitSize * starts.size = start)
    (t j : Nat) :
    (((rs.foldl (fun (i, starts) r =>
      (i + 1, (starts.push (some i)).append
        (Array.replicate (r.size / Opcode.unitSize - 1) none))) (i, starts)).2)[t]?).join = some j ↔
      (starts[t]?).join = some j ∨
        ∃ k r, rs[k]? = some r ∧ r.offset = Opcode.unitSize * t ∧ j = i + k := by
  induction rs generalizing start i starts with
  | nil => simp
  | cons r rs ih =>
      obtain ⟨hoffset, ⟨units, hunits, hunitsize⟩, htail⟩ := h
      -- the table has one entry for each unit, and an instruction sets the first of its entries
      rw [List.foldl_cons, ih htail, join_push_append_replicate, or_assoc]
      · refine or_congr_right ?_
        constructor
        · rintro (⟨rfl, rfl⟩ | ⟨k, r', hr', hoffset', rfl⟩)
          · exact ⟨0, r, rfl, by rw [hoffset, hsize], rfl⟩
          · exact ⟨k + 1, r', hr', hoffset', by omega⟩
        · rintro ⟨k, r', hr', hoffset', rfl⟩
          cases k with
          | zero =>
              obtain rfl : r = r' := by simpa using hr'
              refine Or.inl ⟨?_, rfl⟩
              simp only [Opcode.unitSize] at hsize hoffset'
              omega
          | succ k => exact Or.inr ⟨k, r', hr', hoffset', by omega⟩
      · simp only [Array.append_eq_append, Array.size_append, Array.size_push,
          Array.size_replicate, hunitsize, ← hsize, Opcode.unitSize]
        omega

/-- The table of starts finds an instruction by its offset. -/
theorem startsOf_eq_some_iff {raw : Array RawInstruction} {stop : Nat}
    (h : Covers 0 raw.toList stop) {t j : Nat} :
    ((startsOf raw)[t]?).join = some j ↔
      ∃ r, raw[j]? = some r ∧ r.offset = Opcode.unitSize * t := by
  have hfold := foldl_starts h 0 #[] rfl t j
  rw [Array.foldl_toList] at hfold
  rw [startsOf, hfold]
  simp

/-! ## Operands -/

/-- An offset at which an instruction starts. -/
def Pools.Starts (p : Pools) (target : Nat) : Prop :=
  target % 2 = 0 ∧ ((p.starts[target / 2]?).join).isSome = true

/-- The starts are the offsets of the instructions. -/
theorem Pools.starts_iff {p : Pools} {raw : Array RawInstruction} (hp : p.starts = startsOf raw)
    {stop : Nat} (h : Covers 0 raw.toList stop) {target : Nat} :
    p.Starts target ↔ ∃ r ∈ raw, r.offset = target := by
  unfold Pools.Starts
  rw [hp, Option.isSome_iff_exists]
  simp only [startsOf_eq_some_iff h, Opcode.unitSize]
  constructor
  · rintro ⟨heven, j, r, hr, hoffset⟩
    exact ⟨r, Array.mem_of_getElem? hr, by omega⟩
  · rintro ⟨r, hr, rfl⟩
    have heven := (h.even (Nat.zero_mod 2)).2 r (Array.mem_toList_iff.mpr hr)
    obtain ⟨j, hj⟩ := Array.getElem?_of_mem hr
    exact ⟨heven, j, r, hj, by omega⟩

/-- What the argument of an instruction stands for. -/
def Pools.Denotes (p : Pools) (i : RawInstruction) (o : Operand) : Prop :=
  match i.op.argKind with
  | .none => o = .none
  | .const => ∃ c, p.constants[i.arg]? = some c ∧ o = .const c
  | .name => ∃ s, p.names[i.arg]? = some s ∧ o = .name s
  | .slot => ∃ s, p.variableNames[i.arg]? = some s ∧ o = .slot s
  | .jumpAbsolute => p.Starts i.arg ∧ o = .target i.arg
  | .jumpRelative => p.Starts (i.next + i.arg) ∧ o = .target (i.next + i.arg)
  | .binaryOperator =>
    ∃ b, BinaryOperator.ofNumber? (i.arg % operatorSpace) = some b ∧ o = .binary b
  | .comparison => ∃ c, Comparison.ofNumber? (i.arg % operatorSpace) = some c ∧ o = .comparison c
  | .count | .flags => o = .number i.arg

/-- A jump is resolved if its target is a start. -/
theorem Pools.jump_eq_ok_iff {p : Pools} {target : Nat} {i : RawInstruction} {o : Operand} :
    p.jump target i = .ok o ↔ p.Starts target ∧ o = .target target := by
  unfold Pools.jump Pools.Starts
  split_ifs with h
  · simp only [Bool.and_eq_true, decide_eq_true_eq] at h
    simp [h, eq_comm]
  · simp only [Bool.and_eq_true, decide_eq_true_eq] at h
    simp [h]

/-- Looking an argument up in a pool and wrapping what is found. -/
theorem Pools.map_entry_eq_ok_iff {α : Type} {p : Pools} {pool : Array α} {what : String}
    {i : RawInstruction} {wrap : α → Operand} {o : Operand} :
    wrap <$> p.entry pool what i = .ok o ↔ ∃ a, pool[i.arg]? = some a ∧ o = wrap a := by
  unfold Pools.entry
  cases hentry : pool[i.arg]? with
  | none => simp [Functor.map, Except.map]
  | some a => simp [Functor.map, Except.map, eq_comm]

/-- An operand is what the argument denotes. -/
theorem Pools.operand_eq_ok_iff {p : Pools} {i : RawInstruction} {o : Operand} :
    p.operand i = .ok o ↔ p.Denotes i o := by
  unfold Pools.operand Pools.Denotes
  cases i.op.argKind with
  | none | count | flags => simp [eq_comm]
  | const | name | slot => exact map_entry_eq_ok_iff
  | jumpAbsolute | jumpRelative => exact jump_eq_ok_iff
  | binaryOperator =>
      cases hop : BinaryOperator.ofNumber? (i.arg % operatorSpace) <;> simp [eq_comm]
  | comparison =>
      cases hop : Comparison.ofNumber? (i.arg % operatorSpace) <;> simp [eq_comm]

/-- Resolving adds the operand to an instruction. -/
theorem Pools.resolve_eq_ok_iff {p : Pools} {r : RawInstruction} {i : Instruction} :
    p.resolve r = .ok i ↔ i.toRawInstruction = r ∧ p.Denotes r i.operand := by
  unfold Pools.resolve
  rw [← operand_eq_ok_iff]
  cases hoperand : p.operand r with
  | error e => simp [Except.map]
  | ok o =>
      simp only [Except.map, Except.ok.injEq]
      constructor
      · rintro rfl
        exact ⟨rfl, rfl⟩
      · rintro ⟨rfl, rfl⟩
        rfl

/-! ## Decoding a code object -/

/-- The pools of a code object whose stream holds the given instructions. -/
def Code.pools (c : Code) (raw : Array RawInstruction) : Pools :=
  ⟨c.name, c.constants.toArray, c.names.toArray, c.variableNames.toArray, startsOf raw⟩

/-- The instructions of a listing without their operands. -/
def Listing.raw (l : Listing) : Array RawInstruction :=
  l.instructions.map (·.toRawInstruction)

theorem Listing.getElem?_raw (l : Listing) (j : Nat) :
    l.raw[j]? = l.instructions[j]?.map (·.toRawInstruction) := by
  simp [raw]

theorem Listing.mem_raw {l : Listing} {r : RawInstruction} :
    r ∈ l.raw ↔ ∃ i ∈ l.instructions, i.toRawInstruction = r := by
  simp [raw]

/-- Resolving all instructions keeps each of them and finds its operand. -/
theorem Pools.mapM_resolve_eq_ok_iff {p : Pools} {raw : Array RawInstruction} {l : Listing} :
    raw.mapM p.resolve = .ok l.instructions ↔
      raw = l.raw ∧ ∀ i ∈ l.instructions, p.Denotes i.toRawInstruction i.operand := by
  simp only [array_mapM_eq_ok_iff, Pools.resolve_eq_ok_iff]
  rw [← Array.toList_inj, Listing.raw, Array.toList_map]
  simp only [← Array.mem_toList_iff]
  -- both lists are gone through together
  induction l.instructions.toList generalizing raw with
  | nil => simp
  | cons i is ih =>
      cases hraw : raw.toList with
      | nil => simp
      | cons r rs =>
          have hih := @ih rs.toArray
          simp only [List.forall₂_cons, List.map_cons, List.cons.injEq,
            List.forall_mem_cons] at hih ⊢
          rw [hih]
          constructor
          · rintro ⟨⟨rfl, hi⟩, rfl, his⟩
            exact ⟨⟨rfl, rfl⟩, hi, his⟩
          · rintro ⟨⟨rfl, rfl⟩, hi, his⟩
            exact ⟨⟨rfl, hi⟩, rfl, his⟩

/-- A listing is the code, its scanned instructions and what their arguments denote. -/
theorem Code.decode_eq_ok_iff {c : Code} {l : Listing} :
    c.decode = .ok l ↔
      l.code = c ∧ scan c.name c.instructions = .ok l.raw ∧ l.starts = startsOf l.raw ∧
        ∀ i ∈ l.instructions, (c.pools l.raw).Denotes i.toRawInstruction i.operand := by
  unfold Code.decode
  cases hscan : scan c.name c.instructions with
  | error e => simp [bind, Except.bind]
  | ok raw =>
      have hpools : (⟨c.name, c.constants.toArray, c.names.toArray, c.variableNames.toArray,
        startsOf raw⟩ : Pools) = c.pools raw := rfl
      simp only [bind, Except.bind, pure, Except.pure, Except.ok.injEq, hpools]
      constructor
      · intro h
        -- the stream has been scanned, and its instructions are resolved
        cases hresolve : raw.mapM (c.pools raw).resolve with
        | error e => simp [hresolve] at h
        | ok is =>
            simp only [hresolve, Except.ok.injEq] at h
            subst h
            obtain ⟨hraw, hdenotes⟩ :=
              Pools.mapM_resolve_eq_ok_iff (l := ⟨c, is, startsOf raw⟩).mp hresolve
            rw [← hraw]
            exact ⟨rfl, rfl, rfl, hdenotes⟩
      · rintro ⟨rfl, rfl, hstarts, hdenotes⟩
        rw [Pools.mapM_resolve_eq_ok_iff.mpr ⟨rfl, hdenotes⟩]
        simp only [← hstarts]

/-- Decoding succeeds when the stream can be scanned and every argument stands for something. -/
theorem Code.exists_decode {c : Code} {raw : Array RawInstruction}
    (hscan : scan c.name c.instructions = .ok raw)
    (hdenotes : ∀ r ∈ raw, ∃ o, (c.pools raw).Denotes r o) :
    ∃ l, c.decode = .ok l ∧ l.raw = raw := by
  have hresolve : ∀ r ∈ raw, ∃ i, (c.pools raw).resolve r = .ok i := by
    intro r hr
    obtain ⟨o, ho⟩ := hdenotes r hr
    exact ⟨{ r with operand := o }, Pools.resolve_eq_ok_iff.mpr ⟨rfl, ho⟩⟩
  obtain ⟨is, his⟩ := array_mapM_isOk hresolve
  obtain ⟨hraw, hall⟩ := Pools.mapM_resolve_eq_ok_iff (l := ⟨c, is, startsOf raw⟩).mp his
  refine ⟨⟨c, is, startsOf raw⟩, Code.decode_eq_ok_iff.mpr ⟨rfl, ?_, ?_, ?_⟩, hraw.symm⟩
  · rw [← hraw]
    exact hscan
  · rw [← hraw]
  · rw [← hraw]
    exact hall

/-! ## Reading a listing -/

namespace Listing

variable {c : Code} {l : Listing} (h : c.decode = .ok l)
include h

/-- The instructions of a listing lie one after another and cover the stream. -/
theorem covers_raw : Covers 0 l.raw.toList l.endOffset := by
  obtain ⟨rfl, hscan, -⟩ := Code.decode_eq_ok_iff.mp h
  exact (scan_covers hscan).1

/-- A prefix is never an instruction of its own. -/
theorem op_ne_extendedArg {i : Instruction} (hi : i ∈ l.instructions) : i.op ≠ .extendedArg := by
  obtain ⟨rfl, hscan, -⟩ := Code.decode_eq_ok_iff.mp h
  exact (scan_covers hscan).2 _ (mem_raw.mpr ⟨i, hi, rfl⟩)

/-- Instructions start at even offsets. -/
theorem offset_even {i : Instruction} (hi : i ∈ l.instructions) : i.offset % 2 = 0 :=
  ((covers_raw h).even (Nat.zero_mod 2)).2 _
    (Array.mem_toList_iff.mpr (mem_raw.mpr ⟨i, hi, rfl⟩))

/-- No instruction starts at the end. -/
theorem offset_lt_endOffset {i : Instruction} (hi : i ∈ l.instructions) :
    i.offset < l.endOffset :=
  (covers_raw h).offset_lt.2 _ (Array.mem_toList_iff.mpr (mem_raw.mpr ⟨i, hi, rfl⟩))

/-- The index finds the instruction that starts at an offset. -/
theorem indexOf?_eq_some_iff {offset : Int} {j : Nat} :
    l.indexOf? offset = some j ↔
      ∃ i, l.instructions[j]? = some i ∧ (i.offset : Int) = offset := by
  have hstarts {t : Nat} : ((l.starts[t]?).join) = some j ↔
      ∃ i, l.instructions[j]? = some i ∧ i.offset = Opcode.unitSize * t := by
    rw [(Code.decode_eq_ok_iff.mp h).2.2.1, startsOf_eq_some_iff (covers_raw h)]
    simp [getElem?_raw]
  unfold indexOf?
  split_ifs with hoffset
  · simp only [Bool.and_eq_true, decide_eq_true_eq] at hoffset
    rw [hstarts]
    refine exists_congr fun i => and_congr_right fun hi => ?_
    simp only [Opcode.unitSize]
    omega
  · simp only [Bool.and_eq_true, decide_eq_true_eq] at hoffset
    simp only [false_iff, not_exists, not_and]
    rintro i hi rfl
    -- the index is asked for an offset that is odd or outside the stream
    have heven := offset_even h (Array.mem_of_getElem? hi)
    omega

/-- Looking an offset up finds the instruction that starts there. -/
theorem lookup?_eq_some_iff {offset : Int} {i : Instruction} :
    l.lookup? offset = some i ↔ i ∈ l.instructions ∧ (i.offset : Int) = offset := by
  unfold lookup?
  simp only [bind, Option.bind_eq_some_iff, indexOf?_eq_some_iff h]
  constructor
  · rintro ⟨j, ⟨i', hi', hoffset⟩, hi⟩
    obtain rfl : i' = i := by simpa [hi'] using hi
    exact ⟨Array.mem_of_getElem? hi, hoffset⟩
  · rintro ⟨hmem, hoffset⟩
    obtain ⟨j, hj⟩ := Array.getElem?_of_mem hmem
    exact ⟨j, ⟨i, hj, hoffset⟩, hj⟩

/-- Jumps may lead to the offsets at which instructions start. -/
theorem starts_iff {target : Nat} :
    (c.pools l.raw).Starts target ↔ ∃ i ∈ l.instructions, i.offset = target := by
  rw [Pools.starts_iff rfl (covers_raw h)]
  constructor
  · rintro ⟨r, hr, hoffset⟩
    obtain ⟨i, hi, rfl⟩ := mem_raw.mp hr
    exact ⟨i, hi, hoffset⟩
  · rintro ⟨i, hi, hoffset⟩
    exact ⟨_, mem_raw.mpr ⟨i, hi, rfl⟩, hoffset⟩

/-- The stream starts with an instruction, unless there is none. -/
theorem zero_cases : l.endOffset = 0 ∨ ∃ i ∈ l.instructions, i.offset = 0 := by
  rcases (covers_raw h).first with hend | ⟨r, hr, hoffset⟩
  · exact Or.inl hend.symm
  · obtain ⟨i, hi, rfl⟩ := mem_raw.mp (Array.mem_toList_iff.mp hr)
    exact Or.inr ⟨i, hi, hoffset⟩

/-- After each instruction comes another one or the end. -/
theorem next_cases {i : Instruction} (hi : i ∈ l.instructions) :
    i.next = l.endOffset ∨ ∃ i' ∈ l.instructions, i'.offset = i.next := by
  have hmem := Array.mem_toList_iff.mpr (mem_raw.mpr ⟨i, hi, rfl⟩)
  rcases (covers_raw h).next hmem with hend | ⟨r, hr, hoffset⟩
  · exact Or.inl hend
  · obtain ⟨i', hi', rfl⟩ := mem_raw.mp (Array.mem_toList_iff.mp hr)
    exact Or.inr ⟨i', hi', hoffset⟩

end Listing

end Wordcode
