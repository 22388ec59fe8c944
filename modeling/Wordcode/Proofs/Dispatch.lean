import Wordcode.Machine
import Wordcode.Proofs.Decoding
import Wordcode.Proofs.StackDiscipline
import Mathlib

namespace Wordcode

/-! # Dispatch

Prepared code cannot derail the machine. A frame that runs it is always at the start of an
instruction or at the end of the stream, and every instruction it comes to has what its handler
takes for granted.

* `Loaded.Fits` is what handlers take for granted, and `Loaded.Sound.fits` finds it in every
  decoded instruction.
* `Machine.after` computes where a frame gets by a number of instructions.
* `Config.OnTrack` is the invariant of a running frame, `Steps.onTrack` its step and
  `Reaches.onTrack` its run.
* `runFrom_cases` lists the ways in which a frame can stop running.
-/

/-! ## Prepared code -/

/-- What preparing a code object ensures. -/
structure Loaded.Sound (l : Loaded) : Prop where
  decode_eq : l.code.decode = .ok l.listing
  size_eq : l.constants.size = l.code.constants.length

/-- Preparing a code object accepts it, decodes it, and converts each constant. -/
theorem Machine.prepare_cases {c : Code} {l : Loaded} {w w' : World}
    (h : prepare c w = .ok l w') : c.validate = .ok () ∧ l.code = c ∧ l.Sound := by
  unfold prepare at h
  cases hvalid : c.validate with
  | error e =>
      rw [hvalid] at h
      cases h
  | ok u =>
      rw [hvalid] at h
      obtain ⟨listing, w₁, hdecode, hrest⟩ := bind_eq_ok h
      obtain ⟨constants, w₂, hconstants, hpure⟩ := bind_eq_ok hrest
      cases hpure
      -- there is a value for each constant
      have hlength := length_of_mapM hconstants
      refine ⟨rfl, rfl, ?_, by simpa using hlength⟩
      cases hresult : c.decode with
      | error e =>
          rw [hresult] at hdecode
          cases hdecode
      | ok listing' =>
          rw [hresult] at hdecode
          cases hdecode
          rfl

/-- Code that is in order is prepared. -/
theorem Machine.prepare_eq {c : Code} {listing : Listing} {constants : List Value} {w w' : World}
    (hvalidate : c.validate = .ok ()) (hdecode : c.decode = .ok listing)
    (hconstants : (c.constants.zipIdx.mapM fun (k, i) =>
      (Op.labelled s!"{c.name}: constant {i}" (Op.ofConst k) : Op Value) : Exec (List Value)) w =
        .ok constants w') :
    prepare c w = .ok ⟨c, listing, constants.toArray⟩ w' := by
  have hlisting : Exec.ofExcept c.decode w = .ok listing w := by rw [hdecode]; rfl
  unfold prepare
  rw [hvalidate]
  exact (bind_of_ok hlisting).trans (bind_of_ok hconstants)

/-- What the handler of an instruction takes for granted. -/
structure Loaded.Fits (l : Loaded) (i : Instruction) : Prop where
  /-- There is a handler. -/
  handled : i.op ≠ .extendedArg
  /-- A jump has a target, and an instruction starts there. -/
  jump : i.op ∈ [.jumpForward, .jumpAbsolute, .popJumpIfTrue, .popJumpIfFalse, .jumpIfTrueOrPop,
      .jumpIfFalseOrPop, .forIter] →
    ∃ target i', Frame.jump i = pure (.jump target) ∧ l.listing.lookup? target = some i'
  binary : i.op ∈ [.binaryOp, .inplaceOp] → ∃ o, Act.provided i.binary? = pure o
  comparison : i.op = .compareOp → ∃ c, Act.provided i.comparison? = pure c
  name : i.op ∈ [.loadName, .loadFast, .loadGlobal, .storeName, .storeFast, .storeGlobal,
      .deleteName, .deleteFast, .deleteGlobal, .loadMethod] →
    ∃ s, Act.provided i.name? = pure s
  constant : i.op = .loadConst → ∃ v, Act.provided l.constants[i.arg]? = pure v

namespace Loaded.Sound

variable {l : Loaded} (h : l.Sound)
include h

theorem denotes {i : Instruction} (hi : i ∈ l.listing.instructions) :
    (l.code.pools l.listing.raw).Denotes i.toRawInstruction i.operand :=
  (Code.decode_eq_ok_iff.mp h.decode_eq).2.2.2 i hi

/-- The target of a jump is the start of an instruction. -/
theorem target_cases {i : Instruction} (hi : i ∈ l.listing.instructions)
    (hjump : i.op.isJump = true) :
    ∃ target i', i.target? = some target ∧ l.listing.lookup? target = some i' := by
  have hdenotes := h.denotes hi
  have hlookup {target : Nat} (hstarts : (l.code.pools l.listing.raw).Starts target) :
      ∃ i', l.listing.lookup? target = some i' := by
    obtain ⟨i', hi', hoffset⟩ := (Listing.starts_iff h.decode_eq).mp hstarts
    exact ⟨i', (Listing.lookup?_eq_some_iff h.decode_eq).mpr ⟨hi', by rw [hoffset]⟩⟩
  unfold Pools.Denotes at hdenotes
  unfold Opcode.isJump at hjump
  unfold Instruction.target?
  -- absolute and relative jumps are resolved to the start of an instruction
  cases hkind : i.op.argKind with
  | jumpAbsolute =>
      simp only [hkind] at hdenotes
      obtain ⟨hstarts, hoperand⟩ := hdenotes
      obtain ⟨i', hi'⟩ := hlookup hstarts
      exact ⟨_, i', by rw [hoperand], hi'⟩
  | jumpRelative =>
      simp only [hkind] at hdenotes
      obtain ⟨hstarts, hoperand⟩ := hdenotes
      obtain ⟨i', hi'⟩ := hlookup hstarts
      exact ⟨_, i', by rw [hoperand], hi'⟩
  | _ => simp [hkind, ArgKind.isJump] at hjump

/-- Decoding provides what handlers take for granted. -/
theorem fits {i : Instruction} (hi : i ∈ l.listing.instructions) : l.Fits i := by
  have hdenotes := h.denotes hi
  unfold Pools.Denotes at hdenotes
  refine ⟨Listing.op_ne_extendedArg h.decode_eq hi, ?_, ?_, ?_, ?_, ?_⟩
  · intro hop
    have hjumps : ∀ op ∈ [Opcode.jumpForward, .jumpAbsolute, .popJumpIfTrue, .popJumpIfFalse,
        .jumpIfTrueOrPop, .jumpIfFalseOrPop, .forIter], op.isJump = true := by decide
    obtain ⟨target, i', htarget, hi'⟩ := h.target_cases hi (hjumps _ hop)
    exact ⟨target, i', by rw [Frame.jump, htarget], hi'⟩
  · intro hop
    have hkinds : ∀ op ∈ [Opcode.binaryOp, .inplaceOp], op.argKind = .binaryOperator := by decide
    simp only [hkinds _ hop] at hdenotes
    obtain ⟨o, -, hoperand⟩ := hdenotes
    exact ⟨o, by rw [Instruction.binary?, hoperand]; rfl⟩
  · intro hop
    simp only [show i.op.argKind = .comparison by rw [hop]; rfl] at hdenotes
    obtain ⟨c, -, hoperand⟩ := hdenotes
    exact ⟨c, by rw [Instruction.comparison?, hoperand]; rfl⟩
  · intro hop
    -- names and slots come from two pools of texts
    have hkinds : ∀ op ∈ [Opcode.loadName, .loadFast, .loadGlobal, .storeName, .storeFast,
        .storeGlobal, .deleteName, .deleteFast, .deleteGlobal, .loadMethod],
        op.argKind = .name ∨ op.argKind = .slot := by decide
    unfold Instruction.name?
    rcases hkinds _ hop with hkind | hkind
    · simp only [hkind] at hdenotes
      obtain ⟨s, -, hoperand⟩ := hdenotes
      exact ⟨s, by rw [hoperand]; rfl⟩
    · simp only [hkind] at hdenotes
      obtain ⟨s, -, hoperand⟩ := hdenotes
      exact ⟨s, by rw [hoperand]; rfl⟩
  · intro hop
    simp only [show i.op.argKind = .const by rw [hop]; rfl] at hdenotes
    obtain ⟨c, hentry, -⟩ := hdenotes
    obtain ⟨hlt, -⟩ := Array.getElem?_eq_some_iff.mp hentry
    have hsize : i.arg < l.constants.size := by
      rw [h.size_eq]
      simpa [Code.pools] using hlt
    exact ⟨_, by rw [Array.getElem?_eq_getElem hsize]; rfl⟩

end Loaded.Sound

/-! ## Running a frame -/

/-- A frame that is about to execute the instruction at an offset. -/
structure Config where
  offset : Nat
  frame : Frame
  world : World

namespace Config

/-- The instruction at hand, if there is one. -/
def instruction? (c : Config) : Option Instruction :=
  c.frame.code.listing.lookup? c.offset

/-- The frame runs the given code, and is at the start of an instruction or at the end. -/
structure OnTrack (l : Loaded) (c : Config) : Prop where
  code_eq : c.frame.code = l
  place : c.offset = l.listing.endOffset ∨ ∃ i, l.listing.lookup? c.offset = some i

end Config

namespace Machine

variable {m : Machine} {s : Surroundings}

/-- Executing the instruction at hand takes a frame to the next one. -/
inductive Steps (m : Machine) (s : Surroundings) : Config → Config → Prop
  | next {c : Config} {i : Instruction} {f : Frame} {w : World} :
    c.instruction? = some i → m.turn s c.frame i c.world = .ok (.next, f) w →
    Steps m s c ⟨i.next, f, w⟩
  | jump {c : Config} {i : Instruction} {target : Nat} {f : Frame} {w : World} :
    c.instruction? = some i → m.turn s c.frame i c.world = .ok (.jump target, f) w →
    Steps m s c ⟨target, f, w⟩

/-- Any number of instructions one after another. -/
abbrev Reaches (m : Machine) (s : Surroundings) : Config → Config → Prop :=
  Relation.ReflTransGen (Steps m s)

/-- What a frame comes to by the instruction at hand, if that does not end it. -/
def step? (m : Machine) (s : Surroundings) (c : Config) : Option Config :=
  match c.instruction? with
  | none => none
  | some i =>
    match m.turn s c.frame i c.world with
    | .ok (.next, f) w => some ⟨i.next, f, w⟩
    | .ok (.jump target, f) w => some ⟨target, f, w⟩
    | _ => none

theorem steps_iff_step?_eq {c c' : Config} : Steps m s c c' ↔ step? m s c = some c' := by
  constructor
  · intro h
    unfold step?
    cases h with
    | next hi hturn => simp only [hi, hturn]
    | jump hi hturn => simp only [hi, hturn]
  · intro h
    unfold step? at h
    -- a turn that leaves the frame or fails is no step
    split at h
    · cases h
    · next hi =>
      split at h
      · next hturn =>
        cases h
        exact .next hi hturn
      · next hturn =>
        cases h
        exact .jump hi hturn
      · cases h

/-- What a frame comes to by so many instructions, if it gets so far. -/
def after (m : Machine) (s : Surroundings) : Nat → Config → Option Config
  | 0, c => some c
  | n + 1, c => (step? m s c).bind (after m s n)

/-- Around executing an instruction, a machine only keeps its records. -/
theorem execute_of_turn {f f' : Frame} {i : Instruction} {flow : Flow} {w w' : World}
    (h : m.turn s f i w = .ok (flow, f') w') :
    ∃ w₁, (Frame.execute s i).run f w₁ = .ok (flow, f') w' := by
  obtain ⟨_, w₁, -, hrest⟩ := bind_eq_ok h
  obtain ⟨_, w₂, -, hexecute⟩ := bind_eq_ok hrest
  exact ⟨w₂, hexecute⟩

/-- A successful instruction keeps to its effect, and to the code of its frame. -/
theorem effect_of_turn {f f' : Frame} {i : Instruction} {flow : Flow} {w w' : World}
    (h : m.turn s f i w = .ok (flow, f') w') :
    f'.code = f.code ∧ i.Effect flow ((f'.stack.length : Int) - f.stack.length) := by
  obtain ⟨w₁, hexecute⟩ := execute_of_turn h
  exact Frame.execute_ensures s i f w₁ flow f' w' hexecute

/-- An instruction leaves a frame on track. -/
theorem Steps.onTrack {l : Loaded} (hl : l.Sound) {c c' : Config} (h : Steps m s c c')
    (hc : c.OnTrack l) : c'.OnTrack l := by
  have hmem {i : Instruction} (hi : c.instruction? = some i) : i ∈ l.listing.instructions := by
    rw [Config.instruction?, hc.code_eq] at hi
    exact ((Listing.lookup?_eq_some_iff hl.decode_eq).mp hi).1
  cases h with
  | next hi hturn =>
      obtain ⟨hcode, -⟩ := effect_of_turn hturn
      refine ⟨hcode.trans hc.code_eq, ?_⟩
      rcases Listing.next_cases hl.decode_eq (hmem hi) with hend | ⟨i', hi', hoffset⟩
      · exact Or.inl hend
      · refine Or.inr ⟨i', (Listing.lookup?_eq_some_iff hl.decode_eq).mpr ⟨hi', ?_⟩⟩
        rw [hoffset]
  | jump hi hturn =>
      obtain ⟨hcode, ⟨hjump, htarget⟩, -⟩ := effect_of_turn hturn
      refine ⟨hcode.trans hc.code_eq, ?_⟩
      -- control goes to the target of the instruction, where decoding has found another one
      obtain ⟨target', i', htarget', hi'⟩ := hl.target_cases (hmem hi) hjump
      obtain rfl := Option.some.inj (htarget.symm.trans htarget')
      exact Or.inr ⟨i', hi'⟩

/-- A frame that starts on track stays on track. -/
theorem Reaches.onTrack {l : Loaded} (hl : l.Sound) {c c' : Config} (h : Reaches m s c c')
    (hc : c.OnTrack l) : c'.OnTrack l := by
  induction h with
  | refl => exact hc
  | tail _ hstep ih => exact hstep.onTrack hl ih

/-- A new frame is on track. -/
theorem onTrack_start {l : Loaded} (hl : l.Sound) (locals : Locals) (w : World) :
    Config.OnTrack l ⟨0, { code := l, locals }, w⟩ := by
  refine ⟨rfl, ?_⟩
  rcases Listing.zero_cases hl.decode_eq with hend | ⟨i, hi, hoffset⟩
  · exact Or.inl hend.symm
  · refine Or.inr ⟨i, (Listing.lookup?_eq_some_iff hl.decode_eq).mpr ⟨hi, ?_⟩⟩
    rw [hoffset]

/-- At the end of the stream there is no instruction. -/
theorem lookup?_endOffset {l : Loaded} (hl : l.Sound) :
    l.listing.lookup? l.listing.endOffset = none := by
  rw [Option.eq_none_iff_forall_ne_some]
  intro i hi
  obtain ⟨hmem, hoffset⟩ := (Listing.lookup?_eq_some_iff hl.decode_eq).mp hi
  have hlt := Listing.offset_lt_endOffset hl.decode_eq hmem
  omega

/-! ## Stopping -/

/-- The ways in which a frame stops: it returns, an instruction fails, it falls off the end of the
stream, or the number of steps does not suffice. -/
inductive Stops (m : Machine) (s : Surroundings) (l : Loaded) :
    Config → EStateM.Result Failure World (Value × Nat) → Prop
  | returned {c : Config} {i : Instruction} {v : Value} {f : Frame} {w : World} :
    c.instruction? = some i → i.op = .returnValue →
    m.turn s c.frame i c.world = .ok (.leave v, f) w → Stops m s l c (.ok (v, f.stack.length) w)
  | failed {c : Config} {i : Instruction} {e : Failure} {w : World} :
    c.instruction? = some i → m.turn s c.frame i c.world = .error e w →
    Stops m s l c (.error e w)
  | ended {c : Config} : c.offset = l.listing.endOffset →
    Stops m s l c (.error (malformed l.code.name
      "reached the end of the instruction stream without returning") c.world)
  | exhausted {c : Config} : Stops m s l c (.error .exhausted c.world)

/-- A frame runs instruction by instruction, and then stops. -/
theorem runFrom_cases {l : Loaded} (hl : l.Sound) (steps : Nat) {c : Config} (hc : c.OnTrack l) :
    ∃ c', Reaches m s c c' ∧ Stops m s l c' (m.runFrom s steps c.offset c.frame c.world) := by
  induction steps generalizing c with
  | zero => exact ⟨c, .refl, .exhausted⟩
  | succ steps ih =>
      cases hlookup : c.frame.code.listing.lookup? c.offset with
      | none =>
          -- on track, only the end has no instruction
          have hend : c.offset = l.listing.endOffset := by
            rcases hc.place with hend | ⟨i, hi⟩
            · exact hend
            · rw [← hc.code_eq, hlookup] at hi
              simp at hi
          have hrun : m.runFrom s (steps + 1) c.offset c.frame c.world =
              .error (strayed c.frame c.offset) c.world := by
            rw [runFrom, hlookup]
            rfl
          have hfault : strayed c.frame c.offset = malformed l.code.name
              "reached the end of the instruction stream without returning" := by
            rw [strayed, hc.code_eq, if_pos (Nat.le_of_eq hend.symm)]
          rw [hrun, hfault]
          exact ⟨c, .refl, .ended hend⟩
      | some i =>
          cases hturn : m.turn s c.frame i c.world with
          | error e w =>
              have hrun : m.runFrom s (steps + 1) c.offset c.frame c.world = .error e w := by
                rw [runFrom, hlookup]
                exact bind_of_error hturn
              rw [hrun]
              exact ⟨c, .refl, .failed hlookup hturn⟩
          | ok p w =>
              obtain ⟨flow, f⟩ := p
              cases flow with
              | next =>
                  have hrun : m.runFrom s (steps + 1) c.offset c.frame c.world =
                      m.runFrom s steps i.next f w := by
                    rw [runFrom, hlookup]
                    exact bind_of_ok hturn
                  have hstep : Steps m s c ⟨i.next, f, w⟩ := .next hlookup hturn
                  obtain ⟨c', hreach, hstops⟩ := ih (hstep.onTrack hl hc)
                  rw [hrun]
                  exact ⟨c', .head hstep hreach, hstops⟩
              | jump target =>
                  have hrun : m.runFrom s (steps + 1) c.offset c.frame c.world =
                      m.runFrom s steps target f w := by
                    rw [runFrom, hlookup]
                    exact bind_of_ok hturn
                  have hstep : Steps m s c ⟨target, f, w⟩ := .jump hlookup hturn
                  obtain ⟨c', hreach, hstops⟩ := ih (hstep.onTrack hl hc)
                  rw [hrun]
                  exact ⟨c', .head hstep hreach, hstops⟩
              | leave v =>
                  have hrun : m.runFrom s (steps + 1) c.offset c.frame c.world =
                      .ok (v, f.stack.length) w := by
                    rw [runFrom, hlookup]
                    exact bind_of_ok hturn
                  obtain ⟨-, hreturn, -⟩ := effect_of_turn hturn
                  rw [hrun]
                  exact ⟨c, .refl, .returned hlookup hreturn hturn⟩

/-- Prepared code cannot derail the machine. A frame that runs it is always at the end of the
stream, or at the start of an instruction that has all its handler takes for granted. From there it
runs on until it returns, an instruction fails, it reaches the end, or the number of steps does not
suffice. -/
theorem onTrack_of_reaches {code : Code} {l : Loaded} {w₀ w₁ : World}
    (hprepare : prepare code w₀ = .ok l w₁) {locals : Locals} {w : World} {c : Config}
    (hreach : Reaches m s ⟨0, { code := l, locals }, w⟩ c) :
    c.frame.code = l ∧
      ((c.offset = l.listing.endOffset ∧ c.instruction? = none) ∨
        ∃ i, c.instruction? = some i ∧ i ∈ l.listing.instructions ∧ i.offset = c.offset ∧
          l.Fits i) ∧
      ∀ steps, ∃ c', Reaches m s c c' ∧
        Stops m s l c' (m.runFrom s steps c.offset c.frame c.world) := by
  obtain ⟨-, -, hl⟩ := prepare_cases hprepare
  have hc := Reaches.onTrack hl hreach (onTrack_start hl locals w)
  refine ⟨hc.code_eq, ?_, fun steps => runFrom_cases hl steps hc⟩
  -- the run is past the last instruction or at the start of one
  rcases hc.place with hend | ⟨i, hi⟩
  · refine Or.inl ⟨hend, ?_⟩
    rw [Config.instruction?, hc.code_eq, hend, lookup?_endOffset hl]
  · obtain ⟨hmem, hoffset⟩ := (Listing.lookup?_eq_some_iff hl.decode_eq).mp hi
    refine Or.inr ⟨i, ?_, hmem, by exact_mod_cast hoffset, hl.fits hmem⟩
    rw [Config.instruction?, hc.code_eq, hi]

/-- A frame that has loaded a constant and is about to return it. -/
theorem onTrack_of_reaches_return :
    let code : Code := { name := "main", instructions := [100, 0, 83, 0], constants := [.none] }
    let load : Instruction := ⟨⟨.loadConst, 0, 0, 2⟩, .const .none⟩
    let leave : Instruction := ⟨⟨.returnValue, 0, 2, 2⟩, .none⟩
    let l : Loaded := ⟨code, ⟨code, #[load, leave], #[some 0, some 1]⟩, #[.none]⟩
    let s : Surroundings := ⟨fun _ _ _ => throw .crash, 0⟩
    let c : Config := ⟨2, { code := l, locals := .globals, stack := [.none] },
      { sites := [⟨"main", "", 0, "LOAD_CONST"⟩] }⟩
    prepare code {} = .ok l {} ∧ Reaches {} s ⟨0, { code := l, locals := .globals }, {}⟩ c ∧
      c.frame.code = l ∧
      ((c.offset = l.listing.endOffset ∧ c.instruction? = none) ∨
        ∃ i, c.instruction? = some i ∧ i ∈ l.listing.instructions ∧ i.offset = c.offset ∧
          l.Fits i) ∧
      ∀ steps, ∃ c', Reaches {} s c c' ∧
        Stops {} s l c' (runFrom {} s steps c.offset c.frame c.world) := by
  intro code load leave l s c
  have hvalidate : code.validate = .ok () := by cbv
  have hdecode : code.decode = .ok l.listing := by cbv
  have hprepare : prepare code {} = .ok l {} := prepare_eq hvalidate hdecode rfl
  have hlookup : l.listing.lookup? (0 : Nat) = some load := by cbv
  have hturn : turn {} s { code := l, locals := .globals } load {} =
      .ok (.next, c.frame) c.world := by cbv
  -- the first instruction has been executed
  have hstep : Steps {} s ⟨0, { code := l, locals := .globals }, {}⟩ c :=
    @Steps.next {} s ⟨0, { code := l, locals := .globals }, {}⟩ load _ _ hlookup hturn
  have hreach : Reaches {} s ⟨0, { code := l, locals := .globals }, {}⟩ c := .single hstep
  exact ⟨hprepare, hreach, onTrack_of_reaches hprepare hreach⟩

end Machine

end Wordcode
