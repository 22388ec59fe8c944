import Wordcode.Proofs.Assembled
import Wordcode.Proofs.Lines
import Mathlib

namespace Wordcode.Source

/-! # The meaning of a source

A source means what it says. The code object built from it has one instruction for each line that
names an opcode, with the argument that the line spells out, every jump leads to the instruction
behind its label, and so on for all nested functions, which come from the file of the source around
them unless they name their own.

A jump has 32 bits for its distance. In a stream that is too long for this it carries what is left
of the distance, and leads to its label only where nothing is lost.

* `Describes` relates the lines of a source to a listing, `Means` a source to a code object.
* `exists_requests`: the assembly of a source is made of what its lines ask for.
* `Asks.argument`: the instruction of a line has the argument that is written there.
* `means_of_assemble`: what is built from a source is what the source means.
-/

open Assembly (Item blank)

/-! ## What a source says -/

/-- The name of the opcode and the argument on a line that adds an instruction. -/
def Step.instruction? (s : Step) : Option (String × Option Datum) :=
  match s.action with
  | .label _ => none
  | .instruction opName arg? => some (opName, arg?)

/-- The lines that add instructions, in order. -/
def instructionLines (steps : List Step) : List (String × Option Datum) :=
  steps.filterMap Step.instruction?

/-- A label is placed behind a number of instructions. -/
def Places (steps : List Step) (label : String) (k : Nat) : Prop :=
  ∃ before line after, steps = before ++ ⟨line, .label label⟩ :: after ∧
    (instructionLines before).length = k

/-- An instruction with the opcode that a line names and the argument that it spells out. -/
structure Spells (functions : List (String × Code)) (line : String × Option Datum)
    (i : Instruction) : Prop where
  opcode : Opcode.ofName? line.1 = some i.op
  argument : Argument functions i.op.argKind line.2 i.operand

/-- A listing with the instructions of lines, one for one and in order, in which jumps lead to the
first instruction behind their label as far as their arguments reach. -/
structure Describes (functions : List (String × Code)) (steps : List Step) (l : Listing) :
    Prop where
  lines : List.Forall₂ (Spells functions) (instructionLines steps) l.instructions.toList
  jumps : ∀ (j : Nat) (i : Instruction) (opName label : String) (d : Datum),
    (instructionLines steps)[j]? = some (opName, some d) → d.name? = some label → label ≠ "" →
    l.instructions[j]? = some i → i.op.isJump = true →
    ∃ k, (∀ k', Places steps label k' ↔ k' = k) ∧ i.arg = l.distance i k % 2 ^ 32 ∧
      (l.distance i k < 2 ^ 32 →
        ∃ i', l.instructions[k]? = some i' ∧ i.target? = some i'.offset)

mutual

/-- A code object with the name and the file of a source, or those it has from outside where the
source has none, and with the instructions of its lines. References to functions are to the code
objects built from the functions, and these mean the functions. -/
inductive Means : String → String → Source → Code → Prop
  | mk {name file : String} {b : Body} {functions : List (String × Option Source)}
      {codes : List (String × Code)} {c : Code} {n n' : Nat} :
      assembleAll (if b.file = "" then file else b.file) functions n = .ok (codes, n') →
      MeansAll (if b.file = "" then file else b.file) functions codes →
      c.name = (if b.name = "" then name else b.name) →
      c.file = (if b.file = "" then file else b.file) →
      (∀ l, c.decode = .ok l → Describes codes b.steps l) →
      Means name file (.mk b functions) c

/-- Code objects under the names of functions, each of which means the function. -/
inductive MeansAll : String → List (String × Option Source) → List (String × Code) → Prop
  | nil {file : String} : MeansAll file [] []
  | cons {name file : String} {source : Source} {c : Code}
      {functions : List (String × Option Source)} {codes : List (String × Code)} :
      Means name file source c → MeansAll file functions codes →
      MeansAll file ((name, some source) :: functions) ((name, c) :: codes)

end

/-! ## What lines ask for -/

/-- What a line asks an assembly for. -/
def Step.Asks (functions : List (String × Code)) (s : Step) (r : Assembly.Request) : Prop :=
  match s.action with
  | .label label => r = .label label
  | .instruction opName arg? =>
    ∃ op, Opcode.ofName? opName = some op ∧ Source.Asks functions op arg? r

/-- The assembly of a body before its lines. -/
def opening (b : Body) (name file : String) : Assembly :=
  (blank name file "").performAll (.parameters b.parameters :: b.locals.map .slot)

/-- Parameters and variables add neither instructions nor labels. -/
theorem opening_eq (b : Body) (name file : String) :
    (opening b name file).items = #[] ∧ (opening b name file).labels = [] := by
  have hslots (names : List String) (a : Assembly) :
      (a.performAll (names.map .slot)).items = a.items ∧
        (a.performAll (names.map .slot)).labels = a.labels := by
    induction names generalizing a with
    | nil => exact ⟨rfl, rfl⟩
    | cons s names ih => exact ih (a.internVariable s).1
  obtain ⟨hitems, hlabels⟩ :=
    hslots b.locals ((blank name file "").declareAll b.parameters)
  exact ⟨hitems.trans (Assembly.items_declareAll _ _),
    hlabels.trans (Assembly.labels_declareAll _ _)⟩

/-- The assembly of a source is made of what its lines ask for, one request a line. -/
theorem exists_requests {b : Body} {name file : String} {functions : List (String × Code)}
    {a : Assembly} (h : assembly b name file functions = .ok a) :
    ∃ rs, List.Forall₂ (Step.Asks functions) b.steps rs ∧
      a = (opening b name file).performAll rs := by
  have hstart : ({ name, file : Assembly }).performAll
      (.parameters b.parameters :: b.locals.map .slot) = opening b name file := rfl
  simp only [assembly, hstart] at h
  generalize opening b name file = start at h ⊢
  -- by induction on the steps, each of which makes one request
  generalize b.steps = steps at h ⊢
  induction steps generalizing start with
  | nil =>
      cases h
      exact ⟨[], .nil, rfl⟩
  | cons s steps ih =>
      rw [List.foldlM_cons] at h
      obtain ⟨a₁, hstep, hrest⟩ := except_bind_eq_ok h
      obtain ⟨rs, hasks, rfl⟩ := ih a₁ hrest
      cases haction : s.action with
      | label label =>
          rw [haction] at hstep
          cases hstep
          exact ⟨.label label :: rs, .cons (by simp [Step.Asks, haction]) hasks, rfl⟩
      | instruction opName arg? =>
          rw [haction] at hstep
          cases hrequest : requestOf functions opName arg? with
          | error e =>
              simp only [hrequest] at hstep
              cases hstep
          | ok r =>
              simp only [hrequest] at hstep
              cases hstep
              have hr := asks_of_requestOf hrequest
              exact ⟨r :: rs, .cons (by simpa [Step.Asks, haction] using hr) hasks, rfl⟩

/-- A line stands somewhere among the steps. -/
theorem exists_split {steps : List Step} {j : Nat} {line : String × Option Datum}
    (h : (instructionLines steps)[j]? = some line) :
    ∃ before s after, steps = before ++ s :: after ∧ (instructionLines before).length = j ∧
      s.instruction? = some line := by
  induction steps generalizing j with
  | nil => simp [instructionLines] at h
  | cons s steps ih =>
      unfold instructionLines at h ih ⊢
      -- labels are no instructions, so they are passed over
      cases hs : s.instruction? with
      | none =>
          rw [List.filterMap_cons_none hs] at h
          obtain ⟨before, s', after, rfl, hlength, hs'⟩ := ih h
          exact ⟨s :: before, s', after, rfl, by rwa [List.filterMap_cons_none hs], hs'⟩
      | some line' =>
          rw [List.filterMap_cons_some hs] at h
          cases j with
          | zero =>
              obtain rfl : line' = line := by simpa using h
              exact ⟨[], s, steps, rfl, rfl, hs⟩
          | succ j =>
              obtain ⟨before, s', after, rfl, hlength, hs'⟩ := ih (by simpa using h)
              refine ⟨s :: before, s', after, rfl, ?_, hs'⟩
              rw [List.filterMap_cons_some hs, List.length_cons, hlength]

/-- Two lists that are related item by item are split alike. -/
theorem forall₂_split {α β : Type} {R : α → β → Prop} {before after : List α} {x : α} {ys : List β}
    (h : List.Forall₂ R (before ++ x :: after) ys) :
    ∃ before' y after', ys = before' ++ y :: after' ∧ List.Forall₂ R before before' ∧ R x y := by
  induction before generalizing ys with
  | nil =>
      cases h with
      | cons hy _ => exact ⟨[], _, _, rfl, .nil, hy⟩
  | cons x' before ih =>
      cases h with
      | cons hy hrest =>
          obtain ⟨before', y, after', rfl, hbefore, hx⟩ := ih hrest
          exact ⟨_ :: before', y, after', rfl, .cons hy hbefore, hx⟩

/-- Each line adds one instruction, and each label none. -/
theorem length_emitted {functions : List (String × Code)} {steps : List Step}
    {rs : List Assembly.Request}
    (hasks : List.Forall₂ (Step.Asks functions) steps rs) {a : Assembly}
    (hclean : (a.performAll rs).mistakes = []) :
    (a.emitted rs).length = (instructionLines steps).length := by
  induction hasks generalizing a with
  | nil => rfl
  | @cons s r steps rs hr hasks ih =>
      have hfirst := (Assembly.grows_performAll (a.perform r).1 rs).clean hclean
      have hrest := ih hclean
      unfold instructionLines at hrest ⊢
      rw [Assembly.emitted, List.length_append, hrest]
      -- a label emits nothing, and an instruction emits itself
      cases haction : s.action with
      | label label =>
          simp only [Step.Asks, haction] at hr
          rw [hr, List.filterMap_cons_none (by simp [Step.instruction?, haction])]
          simp [Assembly.Request.item?]
      | instruction opName arg? =>
          simp only [Step.Asks, haction] at hr
          obtain ⟨op, -, hr⟩ := hr
          obtain ⟨item, hitem⟩ :=
            Option.isSome_iff_exists.mp (Assembly.Request.isSome_item? hfirst hr.emits)
          rw [hitem, List.filterMap_cons_some
            (b := (opName, arg?)) (by simp [Step.instruction?, haction])]
          simp [Nat.add_comm]

/-! ## What instructions say -/

/-- An opcode whose argument is a constant loads it. -/
theorem eq_loadConst {op : Opcode} (h : op.argKind = .const) : op = .loadConst := by
  cases op <;> first | rfl | cases h

/-- The instruction of a line has the opcode that the line names. -/
theorem Asks.op_eq {functions : List (String × Code)} {op : Opcode} {arg? : Option Datum}
    {r : Assembly.Request} (hr : Asks functions op arg? r) {a : Assembly} {item : Item}
    (hitem : r.item? a = some item) : item.op = op := by
  cases hr with
  | const hkind _ _ =>
      obtain rfl := Option.some.inj hitem
      exact (eq_loadConst hkind).symm
  | bare _ | name _ | slot _ | jump _ | binaryOperator _ _ | comparison _ _ | number _ =>
      obtain ⟨op', hop', rfl⟩ := Option.map_eq_some_iff.mp hitem
      exact Option.some.inj (hop'.symm.trans (Opcode.ofNumber?_number op))

section

variable {a final : Assembly} {serial : Nat} {bytes : List UInt8} {l : Listing} {i : Instruction}
  (hdecode : (final.code serial bytes).decode = .ok l) (hi : i ∈ l.instructions)
include hdecode hi

/-- A constant that was pooled before the end is found where it was pooled. -/
theorem operand_const {k : Const} (hnormal : k.normalize = .ok k)
    (hgrow : (a.internConst k).1.Grows final) (hclean : final.mistakes = [])
    (hkind : i.op.argKind = .const) (harg : i.arg = (a.internConst k).2) :
    i.operand = .const k := by
  obtain ⟨-, -, hconstants, -, -⟩ := Assembly.code_eq final serial bytes
  obtain ⟨k', hk', hat⟩ := Assembly.getElem?_internConst (hgrow.clean hclean)
  obtain rfl : k = k' := Except.ok.inj (hnormal.symm.trans hk')
  obtain ⟨k', hat', hoperand⟩ := (Listing.refers_of_decode hdecode hi).const hkind
  rw [hconstants, harg, Array.getElem?_toList,
    Assembly.getElem?_of_leading hgrow.constants hat] at hat'
  obtain rfl := Option.some.inj hat'
  exact hoperand

/-- A name that was pooled before the end is found where it was pooled. -/
theorem operand_name {s : String} (hgrow : (a.internName s).1.Grows final)
    (hkind : i.op.argKind = .name) (harg : i.arg = (a.internName s).2) : i.operand = .name s := by
  obtain ⟨-, -, -, hnames, -⟩ := Assembly.code_eq final serial bytes
  have hat := Assembly.getElem?_of_leading hgrow.names (Assembly.getElem?_intern a.names s)
  obtain ⟨s', hat', hoperand⟩ := (Listing.refers_of_decode hdecode hi).name hkind
  rw [hnames, harg, Array.getElem?_toList] at hat'
  obtain rfl := Option.some.inj (hat.symm.trans hat')
  exact hoperand

/-- A variable that was pooled before the end is found where it was pooled. -/
theorem operand_slot {s : String} (hgrow : (a.internVariable s).1.Grows final)
    (hkind : i.op.argKind = .slot) (harg : i.arg = (a.internVariable s).2) :
    i.operand = .slot s := by
  obtain ⟨-, -, -, -, hvariables⟩ := Assembly.code_eq final serial bytes
  have hat := Assembly.getElem?_of_leading hgrow.variableNames
    (Assembly.getElem?_intern a.variableNames s)
  obtain ⟨s', hat', hoperand⟩ := (Listing.refers_of_decode hdecode hi).slot hkind
  rw [hvariables, harg, Array.getElem?_toList] at hat'
  obtain rfl := Option.some.inj (hat.symm.trans hat')
  exact hoperand

end

/-- The instruction that a line asks for has the argument that is written there. The assembly at the
end has all that was pooled for the line. -/
theorem Asks.argument {functions : List (String × Code)} {op : Opcode} {arg? : Option Datum}
    {r : Assembly.Request} (hr : Asks functions op arg? r) {a final : Assembly}
    (hgrows : (a.perform r).1.Grows final) (hclean : final.mistakes = []) {item : Item}
    (hitem : r.item? a = some item) {serial : Nat} {bytes : List UInt8} {l : Listing}
    (hdecode : (final.code serial bytes).decode = .ok l) {i : Instruction}
    (hi : i ∈ l.instructions) (hop : i.op = op) (harg : item.label? = none → i.arg = item.arg) :
    Argument functions op.argKind arg? i.operand := by
  have hdenotes := Listing.denotes hdecode hi
  have htakes (hkind : op.argKind ≠ .none) : op.hasArg = true :=
    (Opcode.hasArg_iff_argKind_ne_none op).mpr hkind
  -- what is pooled for the line is still in its place at the end, since assemblies only grow
  cases hr with
  | bare hkind =>
      simp only [Pools.Denotes, hop, hkind] at hdenotes
      rw [hkind, hdenotes]
      exact .none
  | @const d k hkind hstands hnormal =>
      obtain rfl : _ = item := by simpa [Assembly.Request.item?] using hitem
      have hgrow : (a.internConst k).1.Grows final :=
        (Assembly.grows_emit _ Opcode.loadConst.number _).trans hgrows
      rw [hkind, operand_const hdecode hi hnormal hgrow hclean (by rw [hop, hkind]) (harg rfl)]
      exact .const hstands
  | @name d s hkind hname =>
      obtain rfl : _ = item := by
        simpa [Assembly.Request.item?, htakes (by simp [hkind])] using hitem
      have hgrow : (a.internName s).1.Grows final :=
        (Assembly.grows_emit _ op.number _).trans hgrows
      rw [hkind, operand_name hdecode hi hgrow (by rw [hop, hkind]) (harg rfl)]
      exact .name hname
  | @slot d s hkind hname =>
      obtain rfl : _ = item := by
        simpa [Assembly.Request.item?, htakes (by simp [hkind])] using hitem
      have hgrow : (a.internVariable s).1.Grows final :=
        (Assembly.grows_emit _ op.number _).trans hgrows
      rw [hkind, operand_slot hdecode hi hgrow (by rw [hop, hkind]) (harg rfl)]
      exact .slot hname
  | @jump d label hjump hname =>
      -- the argument is filled in at the end, and the operand has nothing but the target
      unfold Pools.Denotes at hdenotes
      rw [hop] at hdenotes
      by_cases habs : op.argKind = .jumpAbsolute
      · simp only [habs] at hdenotes ⊢
        rw [hdenotes.2]
        exact .jumpAbsolute hname
      · have hrelative := Opcode.argKind_of_isJump hjump habs
        simp only [hrelative] at hdenotes ⊢
        rw [hdenotes.2]
        exact .jumpRelative hname
  | @binaryOperator o d hkind hwrites =>
      obtain rfl : _ = item := by
        simpa [Assembly.Request.item?, htakes (by simp [hkind])] using hitem
      have hnumber : i.arg % operatorSpace = o.number := by
        rw [harg rfl]
        cases o <;> rfl
      simp only [Pools.Denotes, hop, hkind, hnumber, BinaryOperator.ofNumber?_number] at hdenotes
      obtain ⟨o', ho', hoperand⟩ := hdenotes
      obtain rfl := Option.some.inj ho'
      rw [hoperand, hkind]
      exact .binaryOperator hwrites
  | @comparison o d hkind hwrites =>
      obtain rfl : _ = item := by
        simpa [Assembly.Request.item?, htakes (by simp [hkind])] using hitem
      have hnumber : i.arg % operatorSpace = o.number := by
        rw [harg rfl]
        cases o <;> rfl
      simp only [Pools.Denotes, hop, hkind, hnumber, Comparison.ofNumber?_number] at hdenotes
      obtain ⟨o', ho', hoperand⟩ := hdenotes
      obtain rfl := Option.some.inj ho'
      rw [hoperand, hkind]
      exact .comparison hwrites
  | @number n hkind =>
      obtain ⟨-, -, -, hnonneg, -, -⟩ := Assembly.emit_cases (hgrows.clean hclean)
      obtain ⟨m, rfl⟩ := Int.eq_ofNat_of_zero_le hnonneg
      have hnone : op.argKind ≠ .none := by rcases hkind with hkind | hkind <;> simp [hkind]
      obtain rfl : _ = item := by simpa [Assembly.Request.item?, htakes hnone] using hitem
      have harg' : i.arg = m := harg rfl
      rcases hkind with hkind | hkind
      · simp only [Pools.Denotes, hop, hkind, harg'] at hdenotes ⊢
        rw [hdenotes]
        exact .count
      · simp only [Pools.Denotes, hop, hkind, harg'] at hdenotes ⊢
        rw [hdenotes]
        exact .flags

/-! ## Bodies -/

section

variable {functions : List (String × Code)} {steps : List Step} {rs : List Assembly.Request}
  {start : Assembly} {serial : Nat} {c : Code} {l : Listing}
  (hasks : List.Forall₂ (Step.Asks functions) steps rs)
  (h : (start.performAll rs).assemble serial = .ok c) (hitems : start.items = #[])
include hasks h hitems

/-- The instruction line at a position is a request, and its instruction is at that position. -/
theorem exists_item {j : Nat} {line : String × Option Datum}
    (hline : (instructionLines steps)[j]? = some line) :
    ∃ before r after op item, rs = before ++ r :: after ∧ Opcode.ofName? line.1 = some op ∧
      Asks functions op line.2 r ∧ r.item? (start.performAll before) = some item ∧
      (start.performAll rs).items[j]? = some item := by
  have hclean := (Assembly.clean_of_assemble h).1
  obtain ⟨before', s, after', rfl, hlength, hs⟩ := exists_split hline
  obtain ⟨before, r, after, rfl, hbefore, hr⟩ := forall₂_split hasks
  -- what comes before the step has emitted as many instructions as there are lines before it
  have hfirst := (Assembly.clean_before hclean rfl).2
  have hearlier := (Assembly.grows_perform (start.performAll before) r).clean hfirst
  cases haction : s.action with
  | label label => simp [Step.instruction?, haction] at hs
  | instruction opName arg? =>
      obtain rfl : (opName, arg?) = line := by simpa [Step.instruction?, haction] using hs
      simp only [Step.Asks, haction] at hr
      obtain ⟨op, hop, hr⟩ := hr
      obtain ⟨item, hitem⟩ :=
        Option.isSome_iff_exists.mp (Assembly.Request.isSome_item? hfirst hr.emits)
      refine ⟨before, r, after, op, item, rfl, hop, hr, hitem, ?_⟩
      rw [Assembly.getElem?_items hclean hitems, Assembly.emitted_append, Assembly.emitted, hitem,
        List.getElem?_append_right (by rw [length_emitted hbefore hearlier, hlength]),
        length_emitted hbefore hearlier, hlength, Nat.sub_self]
      rfl

variable (hlabels : start.labels = [])
include hlabels

/-- The place of a label is where the assembly has it. -/
theorem places_iff {label : String} {k : Nat} :
    Places steps label k ↔ (start.performAll rs).labels.lookup label = some k := by
  have hclean := (Assembly.clean_of_assemble h).1
  have hbefore {before : List Assembly.Request} {label : String} {after : List Assembly.Request}
      (hrs : rs = before ++ .label label :: after) :
      (start.performAll before).mistakes = [] :=
    (Assembly.grows_perform _ _).clean (Assembly.clean_before hclean hrs).2
  rw [Assembly.lookup_eq_iff h hitems hlabels]
  constructor
  · rintro ⟨before', line, after', rfl, rfl⟩
    obtain ⟨before, r, after, hrs, hsplit, hr⟩ := forall₂_split hasks
    obtain rfl : r = .label label := hr
    exact ⟨before, after, hrs, length_emitted hsplit (hbefore hrs)⟩
  · rintro ⟨before, after, hrs, rfl⟩
    obtain ⟨before', ⟨line, action⟩, after', hsteps, hsplit, hs⟩ :=
      forall₂_split (hrs ▸ hasks).flip
    cases action with
    | label label' =>
        obtain rfl : label = label' := by simpa [flip, Step.Asks] using hs
        exact ⟨before', line, after', hsteps, (length_emitted hsplit.flip (hbefore hrs)).symm⟩
    | instruction opName arg? =>
        -- an instruction line never asks for a label
        obtain ⟨op, -, hr⟩ := hs
        cases hr

variable (hdecode : c.decode = .ok l)
include hdecode

omit hlabels in
/-- The instruction of a line says what is written there. -/
theorem spells_of_lies {widths : List Nat} (hlies : (start.performAll rs).Lies widths l) {j : Nat}
    {line : String × Option Datum} (hline : (instructionLines steps)[j]? = some line)
    {i : Instruction} (hi : l.instructions[j]? = some i) : Spells functions line i := by
  have hclean := (Assembly.clean_of_assemble h).1
  obtain ⟨bytes, -, rfl, -⟩ := Assembly.validate_of_assemble h
  obtain ⟨before, r, after, op, item, hrs, hop, hr, hitem, hat⟩ :=
    exists_item hasks h hitems hline
  have hlt := (Assembly.item_sound hclean
    ((Assembly.getElem?_items hclean hitems j).symm.trans hat)).arg_lt
  have hiop : i.op = op := (hlies.op_eq hat hi).trans (hr.op_eq hitem)
  have hargument := hr.argument (Assembly.clean_before hclean hrs).1 hclean hitem hdecode
    (Array.mem_of_getElem? hi) hiop (hlies.arg_eq hat hi hlt)
  rw [← hiop] at hop hargument
  exact ⟨hop, hargument⟩

/-- A jump line with a label leads to the label. -/
theorem leads_of_lies {widths : List Nat} (hlies : (start.performAll rs).Lies widths l) {j : Nat}
    {opName label : String} {d : Datum}
    (hline : (instructionLines steps)[j]? = some (opName, some d)) (hname : d.name? = some label)
    (hlabel : label ≠ "") {i : Instruction} (hi : l.instructions[j]? = some i)
    (hjump : i.op.isJump = true) :
    ∃ k, (∀ k', Places steps label k' ↔ k' = k) ∧ i.arg = l.distance i k % 2 ^ 32 ∧
      (l.distance i k < 2 ^ 32 →
        ∃ i', l.instructions[k]? = some i' ∧ i.target? = some i'.offset) := by
  obtain ⟨before, r, after, op, item, -, -, hr, hitem, hat⟩ := exists_item hasks h hitems hline
  have hitemop := hlies.op_eq hat hi
  have hopjump : op.isJump = true := by rwa [← hr.op_eq hitem, ← hitemop]
  -- of the requests with a text, only a jump is for an opcode that jumps
  obtain rfl : r = .jump op.number label := by
    cases hr with
    | jump _ hname' => rw [Option.some.inj (hname'.symm.trans hname)]
    | const hkind _ _ | name hkind _ | slot hkind _ | binaryOperator hkind _ | comparison hkind _ =>
        simp [Opcode.isJump, hkind, ArgKind.isJump] at hopjump
    | number _ => cases hname
  have hitemlabel : item.label? = some label := by
    obtain ⟨op', -, rfl⟩ := Option.map_eq_some_iff.mp hitem
    simp [hlabel]
  obtain ⟨k, hk⟩ := Assembly.exists_lookup h (Array.mem_of_getElem? hat) hitemlabel
  obtain ⟨harg, hforward⟩ := hlies.jump (Assembly.linked_of_assemble h hitems hlabels) hat
    hitemlabel (hitemop ▸ hjump) hk hi
  refine ⟨k, fun k' => ?_, harg, fun hfits => ?_⟩
  · rw [places_iff hasks h hitems hlabels, hk, Option.some.injEq, eq_comm]
  · rw [Nat.mod_eq_of_lt hfits] at harg
    exact Listing.exists_target hdecode (Array.mem_of_getElem? hi) hjump harg hforward

/-- The listing of a body is described by its lines. -/
theorem describes_of_assemble : Describes functions steps l := by
  have hclean := (Assembly.clean_of_assemble h).1
  obtain ⟨widths, hlies⟩ := Assembly.exists_lies h hitems hlabels hdecode
  have hsize : (instructionLines steps).length = l.instructions.toList.length :=
    calc (instructionLines steps).length = (start.emitted rs).length :=
          (length_emitted hasks hclean).symm
      _ = (start.performAll rs).items.size := by
          rw [← Assembly.items_eq hclean hitems, Array.length_toList]
      _ = l.instructions.toList.length := by rw [Array.length_toList, hlies.size_eq]
  constructor
  · rw [List.forall₂_iff_get]
    refine ⟨hsize, fun j hj hj' => ?_⟩
    exact spells_of_lies hasks h hitems hdecode hlies (List.getElem?_eq_getElem hj)
      (Array.getElem?_eq_getElem (by simpa using hj'))
  · intro j i opName label d hline hname hlabel hi hjump
    exact leads_of_lies hasks h hitems hlabels hdecode hlies hline hname hlabel hi hjump

end

/-! ## Sources -/

/-- The code object of a body has its name and its file and is described by its lines. -/
theorem describes_of_assembly {b : Body} {name file : String} {functions : List (String × Code)}
    {a : Assembly} (ha : assembly b name file functions = .ok a) {serial : Nat} {c : Code}
    (h : a.assemble serial = .ok c) :
    c.name = name ∧ c.file = file ∧ ∀ l, c.decode = .ok l → Describes functions b.steps l := by
  obtain ⟨rs, hasks, rfl⟩ := exists_requests ha
  obtain ⟨hitems, hlabels⟩ := opening_eq b name file
  obtain ⟨bytes, -, hcode, -⟩ := Assembly.validate_of_assemble h
  have hgrows : (blank name file "").Grows ((opening b name file).performAll rs) :=
    (Assembly.grows_performAll _ _).trans (Assembly.grows_performAll _ rs)
  refine ⟨?_, ?_, fun l hdecode => describes_of_assemble hasks h hitems hlabels hdecode⟩
  · rw [hcode, (Assembly.code_eq _ _ _).1, hgrows.name]
    rfl
  · rw [hcode, Assembly.file_code, hgrows.file]
    rfl

/-- A construction that hands out no serial numbers. -/
theorem build_lift_eq_ok {α : Type} {x : Except Failure α} {n n' : Nat} {a : α}
    (h : (liftM x : Build α) n = .ok (a, n')) : x = .ok a := by
  obtain ⟨a', hx, ha⟩ := except_bind_eq_ok (show (x >>= fun a => pure (a, n)) = .ok (a, n') from h)
  cases ha
  exact hx

/-- What is built from functions means them when that is so for each of them. -/
theorem meansAll_of_assembleAll {functions : List (String × Option Source)} {file : String}
    (hmeans : ∀ name source, (name, some source) ∈ functions → ∀ {n n' : Nat} {c : Code},
      source.assemble name file n = .ok (c, n') → Means name file source c)
    {n n' : Nat} {codes : List (String × Code)}
    (h : assembleAll file functions n = .ok (codes, n')) : MeansAll file functions codes := by
  induction functions generalizing n codes with
  | nil =>
      rw [assembleAll] at h
      cases h
      exact .nil
  | cons entry rest ih =>
      obtain ⟨name, source?⟩ := entry
      cases source? with
      | none =>
          rw [assembleAll] at h
          cases h
      | some source =>
          rw [assembleAll] at h
          -- the functions are assembled one after the other, and share the supply of identities
          obtain ⟨c, n₁, hc, h⟩ := stateT_bind_eq_ok h
          obtain ⟨others, n₂, hothers, h⟩ := stateT_bind_eq_ok h
          cases h
          refine .cons (hmeans name source List.mem_cons_self hc) (ih ?_ hothers)
          exact fun name' source' hmem => hmeans name' source' (List.mem_cons_of_mem _ hmem)

/-- What is built from a source is what the source means. -/
theorem means_of_assemble : (source : Source) → ∀ {name file : String} {n n' : Nat} {c : Code},
    source.assemble name file n = .ok (c, n') → Means name file source c
  | .mk b functions, name, file, n, n', c, h => by
      rw [assemble] at h
      obtain ⟨codes, n₁, hcodes, h⟩ := stateT_bind_eq_ok h
      obtain ⟨a, n₂, ha, h⟩ := stateT_bind_eq_ok h
      obtain ⟨serial, n₃, -, h⟩ := stateT_bind_eq_ok h
      obtain ⟨hname, hfile, hdescribes⟩ :=
        describes_of_assembly (build_lift_eq_ok ha) (build_lift_eq_ok h)
      have hmeans := meansAll_of_assembleAll
        (fun _ function hmem => means_of_assemble function) hcodes
      exact .mk hcodes hmeans hname hfile hdescribes
termination_by source => sizeOf source
decreasing_by
  have hlt := List.sizeOf_lt_of_mem hmem
  simp only [Prod.mk.sizeOf_spec, Option.some.sizeOf_spec] at hlt
  simp only [mk.sizeOf_spec]
  omega

/-- A loop around a call of a nested function, with jumps both ways. -/
def loopSource : Source :=
  .mk
    { name := "main"
      steps :=
        [⟨1, .instruction "LOAD_CONST" (some (.record "map" [("func", .str "string" "f")]))⟩,
          ⟨2, .instruction "MAKE_FUNCTION" (some (.int "int" 0))⟩,
          ⟨3, .instruction "STORE_NAME" (some (.str "string" "f"))⟩,
          ⟨4, .label "loop"⟩,
          ⟨5, .instruction "LOAD_CONST" (some (.list "[]any" [.int "int" 1, .null]))⟩,
          ⟨6, .instruction "POP_JUMP_IF_FALSE" (some (.str "string" "loop"))⟩,
          ⟨7, .instruction "JUMP_FORWARD" (some (.str "string" "end"))⟩,
          ⟨8, .instruction "NOP" none⟩,
          ⟨9, .label "end"⟩,
          ⟨10, .instruction "LOAD_NAME" (some (.str "string" "f"))⟩,
          ⟨11, .instruction "RETURN_VALUE" none⟩] }
    [("f", some (.mk
      { parameters := { positional := ["x"] }
        steps :=
          [⟨13, .instruction "LOAD_FAST" (some (.str "string" "x"))⟩,
            ⟨14, .instruction "LOAD_FAST" (some (.str "string" "x"))⟩,
            ⟨15, .instruction "BINARY_OP" (some (.str "string" "+"))⟩,
            ⟨16, .instruction "RETURN_VALUE" none⟩] } []))]

theorem means_of_assemble_loop :
    let f : Code :=
      { name := "f", file := "m.py"
        instructions := [124, 0, 124, 0, 170, 1, 83, 0], variableNames := ["x"], positional := 1 }
    let main : Code :=
      { serial := 1, id := .ofSerial 1, name := "main", file := "m.py"
        instructions := [100, 0, 132, 0, 90, 0, 100, 1, 114, 6, 110, 2, 9, 0, 101, 0, 83, 0]
        constants := [.code f, .tuple [.int 1, .none]], names := ["f"] }
    loopSource.assemble "<module>" "m.py" 0 = .ok (main, 2) ∧ f.decode.isOk = true ∧
      main.decode.isOk = true ∧ Means "<module>" "m.py" loopSource main := by
  intro f main
  have h : loopSource.assemble "<module>" "m.py" 0 = .ok (main, 2) := by cbv
  exact ⟨h, by cbv, by cbv, means_of_assemble loopSource h⟩

end Wordcode.Source
