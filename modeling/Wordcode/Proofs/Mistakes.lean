import Wordcode.Proofs.Assembled
import Mathlib

namespace Wordcode

/-! # Mistakes

Assembling reports what is wrong with the requests, and reports nothing else. What is wrong is said
about the requests themselves and the order they come in, not about the states in between.

* `Request.Mistaken` says which requests are mistakes after which others, and
  `mistakes_performAll` that exactly these are noted.
* `Wrong` lists everything that can be wrong with a series of requests.
* `Encodes` says that jumps were encoded to the places of their labels.
* `fails_iff_wrong`: assembling fails exactly on what is wrong, and otherwise encodes every jump.
  The empty label is no label.
-/

/-- Constants that can be pooled: all but those of a foreign type, of which only two kinds of
integers and one kind of doubles count as constants. -/
def Const.poolable : Const → Bool
  | .tuple items | .array items => poolableAll items
  | .foreign (.int t _) => t = "int" || t = "int32"
  | .foreign (.float t _) => t = "float32"
  | .foreign _ => false
  | _ => true
where
  /-- Sequences of constants that can be pooled. -/
  poolableAll : List Const → Bool
    | [] => true
    | c :: cs => c.poolable && poolableAll cs

/-- The constants that can be pooled are those with a normal form. -/
theorem Const.exists_normalize_iff : (c : Const) →
    ((∃ k, c.normalize = .ok k) ↔ c.poolable = true)
  | .tuple items | .array items => by
      rw [normalize, poolable, ← exists_normalizeAll_iff items]
      cases normalize.normalizeAll items <;> simp [Functor.map, Except.map]
  | .foreign d => by
      cases d <;> simp only [normalize, poolable] <;> first
        | (split_ifs with h <;> simpa using h)
        | simp
  | .none | .bool _ | .int _ | .float _ | .str _ | .stray _ | .code _ | .noCode => by
      simp [normalize, poolable]
where
  /-- The same for sequences. -/
  exists_normalizeAll_iff : (cs : List Const) →
      ((∃ ks, normalize.normalizeAll cs = .ok ks) ↔ poolable.poolableAll cs = true)
    | [] => by simp [normalize.normalizeAll, poolable.poolableAll]
    | c :: cs => by
        rw [normalize.normalizeAll, poolable.poolableAll, Bool.and_eq_true,
          ← exists_normalize_iff c, ← exists_normalizeAll_iff cs]
        cases c.normalize <;> cases normalize.normalizeAll cs <;>
          simp [bind, Except.bind, pure, Except.pure]

namespace Assembly

/-! ## Mistaken requests -/

/-- An opcode and an argument of which no instruction can be made: there is no such opcode, it is
the prefix, or the argument is out of range. -/
def Unencodable (opcode : UInt8) (arg : Int) : Prop :=
  (∀ op, Opcode.ofNumber? opcode = some op → op = .extendedArg) ∨ arg < 0 ∨ 2 ^ 32 ≤ arg

/-- Whether a request gives a name to a variable. -/
def Request.declares : Request → Bool
  | .parameters p => !p.names.isEmpty
  | .slot _ | .emitSlot .. => true
  | .const _ | .name _ | .emit .. | .emitName .. | .jump .. | .label _ | .loadConst _ => false

/-- A request that is a mistake after the ones before it: parameters that come after variables or
repeat a name, a constant of a foreign type, an instruction that cannot be made, a jump that is
none, or a label that was placed already. -/
def Request.Mistaken (start : Assembly) (before : List Request) : Request → Prop
  | .parameters p => (∃ r ∈ before, r.declares = true) ∨ ¬ p.names.Nodup
  | .const c => c.poolable = false
  | .name _ | .slot _ => False
  | .emit opcode arg => Unencodable opcode arg
  | .emitName opcode s => Unencodable opcode ((start.performAll before).internName s).2
  | .emitSlot opcode s => Unencodable opcode ((start.performAll before).internVariable s).2
  | .jump opcode _ => ∀ op, Opcode.ofNumber? opcode = some op → op.isJump = false
  | .label s => .label s ∈ before
  | .loadConst c => c.poolable = false ∨
      Unencodable Opcode.loadConst.number ((start.performAll before).internConst c).2

section

variable (a : Assembly)

/-- Noting a mistake leaves no list of mistakes empty. -/
theorem mistakes_refuse_iff (message : String) {P : Prop} (h : P) :
    (a.refuse message).mistakes = [] ↔ a.mistakes = [] ∧ ¬ P := by
  simp [refuse, h]

/-- An instruction is a mistake if it cannot be encoded. -/
theorem mistakes_emit (opcode : UInt8) (arg : Int) :
    (a.emit opcode arg).mistakes = [] ↔ a.mistakes = [] ∧ ¬ Unencodable opcode arg := by
  have hmax : maxArgument = 2 ^ 32 - 1 := rfl
  unfold emit
  -- an unknown operation, a prefix, or an argument out of range
  split
  · rename_i hnone
    exact a.mistakes_refuse_iff _ (Or.inl (by simp [hnone]))
  · rename_i hextended
    exact a.mistakes_refuse_iff _ (Or.inl (by simp [hextended]))
  · rename_i op hne hop
    split
    · rename_i hrange
      refine a.mistakes_refuse_iff _ (Or.inr ?_)
      simp only [Bool.or_eq_true, decide_eq_true_eq] at hrange
      omega
    · rename_i hrange
      simp only [Bool.or_eq_true, decide_eq_true_eq] at hrange
      refine (and_iff_left ?_).symm
      rintro (hextended | hout)
      · exact hne (hextended op hop)
      · omega

/-- Emitting a jump is a mistake if the operation is not one of a jump. -/
theorem mistakes_emitJump (opcode : UInt8) (label : String) :
    (a.emitJump opcode label).mistakes = [] ↔ a.mistakes = [] ∧
      ¬ ∀ op, Opcode.ofNumber? opcode = some op → op.isJump = false := by
  unfold emitJump
  split
  · rename_i op hop
    split
    · rename_i hjump
      exact (and_iff_left (by simp [hop, hjump])).symm
    · rename_i hjump
      exact a.mistakes_refuse_iff _ (by simpa [hop] using hjump)
  · rename_i hnone
    exact a.mistakes_refuse_iff _ (by simp [hnone])

/-- A constant is a mistake if it cannot be pooled. -/
theorem mistakes_internConst (c : Const) :
    (a.internConst c).1.mistakes = [] ↔ a.mistakes = [] ∧ ¬ c.poolable = false := by
  rw [Bool.not_eq_false, ← Const.exists_normalize_iff]
  unfold internConst
  cases hc : c.normalize with
  | error type => simp [refuse]
  | ok k =>
      simp only [Except.ok.injEq, exists_eq', and_true]
      split <;> rfl

/-- Declaring new names notes no mistake. -/
theorem foldl_declare_of_nodup {a : Assembly} {names : List String}
    (h : (a.variableNames.toList ++ names).Nodup) :
    (names.foldl declare a).mistakes = a.mistakes := by
  induction names generalizing a with
  | nil => rfl
  | cons s names ih =>
      have hnew : s ∉ a.variableNames := by
        rw [List.nodup_append] at h
        exact fun hmem => h.2.2 s (Array.mem_toList_iff.mpr hmem) s List.mem_cons_self rfl
      rw [List.foldl_cons, declare_of_not_mem hnew]
      exact ih (by simpa using h)

/-- Parameters are a mistake behind other variables, or if a name is repeated. -/
theorem mistakes_declareAll (p : Parameters) :
    (a.declareAll p).mistakes = [] ↔
      a.mistakes = [] ∧ ¬ (a.variableNames ≠ #[] ∨ ¬ p.names.Nodup) := by
  rw [declareAll_eq]
  split
  · rename_i hlate
    exact a.mistakes_refuse_iff _ (Or.inl (by rintro hempty; simp [hempty] at hlate))
  · rename_i hfirst
    have hempty : a.variableNames = #[] := Array.eq_empty_of_size_eq_zero (by omega)
    have hcount : (a.count p).variableNames = #[] := hempty
    -- a repeated name is the only mistake left once the declaration is the first
    constructor
    · intro hclean
      refine ⟨(grows_foldl_declare (a.count p) p.names).clean hclean, ?_⟩
      have hnodup := (foldl_declare_eq hclean (by simp [hcount])).1
      simpa [hempty, hcount] using hnodup
    · rintro ⟨hclean, hright⟩
      rw [foldl_declare_of_nodup (by simpa [hempty, hcount] using hright)]
      exact hclean

end

/-- Pooling a text leaves the pool with an entry. -/
theorem intern_ne_empty (pool : Array String) (s : String) : (intern pool s).1 ≠ #[] := by
  have hat := getElem?_intern pool s
  intro hempty
  simp [hempty] at hat

/-- A parameter that is declared is a variable. -/
theorem declare_ne_empty (a : Assembly) (s : String) : (a.declare s).variableNames ≠ #[] := by
  unfold declare
  split
  · rename_i hold
    intro hempty
    rw [show a.variableNames = #[] from hempty] at hold
    simp at hold
  · exact intern_ne_empty a.variableNames s

/-- Pools that are only added to stay without entries only when there were none. -/
theorem Grows.ne_empty {a a' : Assembly} (h : a.Grows a') (hne : a.variableNames ≠ #[]) :
    a'.variableNames ≠ #[] := by
  intro hempty
  have hleading := h.variableNames
  simp [hempty, hne] at hleading

theorem variableNames_emit (a : Assembly) (opcode : UInt8) (arg : Int) :
    (a.emit opcode arg).variableNames = a.variableNames := by
  unfold emit
  split
  · rfl
  · rfl
  · split <;> rfl

theorem variableNames_internConst (a : Assembly) (c : Const) :
    (a.internConst c).1.variableNames = a.variableNames := by
  rcases a.internConst_cases c with ⟨message, heq⟩ | ⟨k, -, ⟨i, -, heq⟩ | heq⟩ <;> rw [heq]
  rfl

/-- There are variables after a request when there were some before or it names one. -/
theorem variableNames_perform (a : Assembly) (r : Request) :
    (a.perform r).1.variableNames ≠ #[] ↔ a.variableNames ≠ #[] ∨ r.declares = true := by
  -- parameters are refused once there are variables, and are the first ones otherwise
  cases r with
  | parameters p =>
      show (a.declareAll p).variableNames ≠ #[] ↔ _ ∨ (!p.names.isEmpty) = true
      rw [declareAll_eq]
      split
      · rename_i hlate
        have hne : a.variableNames ≠ #[] := by
          rintro hempty
          simp [hempty] at hlate
        simp [hne, refuse]
      · rename_i hfirst
        have hempty : a.variableNames = #[] := Array.eq_empty_of_size_eq_zero (by omega)
        cases p.names with
        | nil => simp [count, hempty]
        | cons s names =>
            have hne := (grows_foldl_declare ((a.count p).declare s) names).ne_empty
              (declare_ne_empty _ s)
            simpa using hne
  | const c => simp [perform, Request.declares, variableNames_internConst]
  | name s => simp [perform, Request.declares, internName]
  | slot s => simpa [perform, Request.declares, internVariable] using intern_ne_empty _ s
  | emit opcode arg => simp [perform, Request.declares, variableNames_emit]
  | emitName opcode s =>
      simp [perform, Request.declares, emitName, variableNames_emit, internName]
  | emitSlot opcode s =>
      simpa [perform, Request.declares, emitVariable, variableNames_emit, internVariable] using
        intern_ne_empty _ s
  | jump opcode s =>
      have heq : (a.emitJump opcode s).variableNames = a.variableNames := by
        unfold emitJump
        split
        · split <;> rfl
        · rfl
      simp [perform, Request.declares, heq]
  | label s =>
      have heq : (a.place s).variableNames = a.variableNames := by
        unfold place
        split <;> rfl
      simp [perform, Request.declares, heq]
  | loadConst c =>
      simp [perform, Request.declares, loadConst, variableNames_emit, variableNames_internConst]

/-- There are variables if a request declares some. -/
theorem variableNames_performAll (a : Assembly) (rs : List Request) :
    (a.performAll rs).variableNames ≠ #[] ↔
      a.variableNames ≠ #[] ∨ ∃ r ∈ rs, r.declares = true := by
  induction rs generalizing a with
  | nil => simp
  | cons r rs ih =>
      rw [performAll_cons, ih, variableNames_perform, List.exists_mem_cons_iff, or_assoc]

section

variable {start : Assembly} (hlabels : start.labels = []) (hvariables : start.variableNames = #[])
include hlabels hvariables

/-- A request notes a mistake exactly when it is one. -/
theorem mistakes_perform (before : List Request) (r : Request) :
    ((start.performAll before).perform r).1.mistakes = [] ↔
      (start.performAll before).mistakes = [] ∧ ¬ r.Mistaken start before := by
  -- each request makes its own checks, in the state that the earlier ones have left
  generalize ha : start.performAll before = a
  cases r with
  | parameters p =>
      have hdeclared := variableNames_performAll start before
      rw [ha, hvariables] at hdeclared
      show (a.declareAll p).mistakes = [] ↔ _
      rw [mistakes_declareAll, hdeclared]
      simp [Request.Mistaken]
  | const c => exact a.mistakes_internConst c
  | name s => simp [perform, internName, Request.Mistaken]
  | slot s => simp [perform, internVariable, Request.Mistaken]
  | emit opcode arg => exact a.mistakes_emit opcode arg
  | emitName opcode s =>
      rw [Request.Mistaken, ha]
      exact (a.internName s).1.mistakes_emit opcode _
  | emitSlot opcode s =>
      rw [Request.Mistaken, ha]
      exact (a.internVariable s).1.mistakes_emit opcode _
  | jump opcode s => exact a.mistakes_emitJump opcode s
  | label s =>
      have hplaced := isSome_lookup_performAll start before s
      rw [ha, hlabels] at hplaced
      show (a.place s).mistakes = [] ↔ a.mistakes = [] ∧ ¬ .label s ∈ before
      rw [place, show .label s ∈ before ↔ (a.labels.lookup s).isSome by simpa using hplaced.symm]
      split
      · rename_i hold
        exact a.mistakes_refuse_iff _ hold
      · rename_i hnew
        exact (and_iff_left hnew).symm
  | loadConst c =>
      rw [Request.Mistaken, ha, not_or, ← and_assoc, ← mistakes_internConst]
      exact (a.internConst c).1.mistakes_emit _ _

/-- Requests note a mistake exactly when one of them is one. -/
theorem mistakes_performAll (requests : List Request) :
    (start.performAll requests).mistakes = [] ↔ start.mistakes = [] ∧
      ∀ before r after, requests = before ++ r :: after → ¬ r.Mistaken start before := by
  -- the last request comes after all others, so the induction takes requests off the end
  induction requests using List.reverseRecOn with
  | nil => simp
  | append_singleton rs r ih =>
      rw [performAll_append, performAll_cons, performAll_nil,
        mistakes_perform hlabels hvariables, ih, and_assoc]
      refine and_congr_right fun _ => ⟨?_, ?_⟩
      · rintro ⟨hrest, hlast⟩ before r' after hsplit
        rcases List.eq_nil_or_concat' after with rfl | ⟨after, last, rfl⟩
        · obtain ⟨rfl, hr⟩ := List.append_inj' hsplit rfl
          obtain rfl := List.singleton_inj.mp hr
          exact hlast
        · rw [← List.cons_append, ← List.append_assoc] at hsplit
          exact hrest before r' after (List.append_inj' hsplit rfl).1
      · intro hall
        refine ⟨fun before r' after hsplit => ?_, hall rs r [] rfl⟩
        exact hall before r' (after ++ [r]) (by simp [hsplit])

end

/-! ## What is wrong -/

/-- Something is wrong with a series of requests: one of them is a mistake after the ones before it,
a jump names a label that is never placed, a relative jump one that is not placed after it, or the
code object is not accepted. A jump to the empty label names no label. -/
inductive Wrong (start : Assembly) (requests : List Request) (serial : Nat) : Prop
  | mistaken {before : List Request} {r : Request} {after : List Request} :
      requests = before ++ r :: after → r.Mistaken start before → Wrong start requests serial
  | undefined {opcode : UInt8} {s : String} : .jump opcode s ∈ requests → s ≠ "" →
      .label s ∉ requests → Wrong start requests serial
  | backward {before : List Request} {opcode : UInt8} {op : Opcode} {s : String}
      {after : List Request} : requests = before ++ .jump opcode s :: after →
      Opcode.ofNumber? opcode = some op → op.argKind = .jumpRelative → s ≠ "" →
      .label s ∉ after → Wrong start requests serial
  | refused {bytes : List UInt8} {e : Failure} : (start.performAll requests).stream = .ok bytes →
      ((start.performAll requests).code serial bytes).validate = .error e →
      Wrong start requests serial

section

variable {start : Assembly} {requests : List Request}
  (hclean : (start.performAll requests).mistakes = []) (hitems : start.items = #[])
include hclean hitems

/-- A jump adds its instruction behind those of the requests before it. -/
theorem items_jump {before after : List Request} {opcode : UInt8} {s : String}
    (hsplit : requests = before ++ .jump opcode s :: after) :
    ∃ op, Opcode.ofNumber? opcode = some op ∧ op.isJump = true ∧
      (start.performAll requests).items[(start.emitted before).length]? =
        some { op, label? := if s = "" then none else some s } := by
  obtain ⟨op, hop, hjump, -⟩ := emitJump_cases (clean_before hclean hsplit).2
  refine ⟨op, hop, hjump, ?_⟩
  rw [getElem?_items hclean hitems, hsplit, emitted_append,
    List.getElem?_append_right (Nat.le_refl _)]
  simp [emitted, Request.item?, hop]

/-- Jumps to placed labels can be laid out, relative ones when the label is placed after them. -/
theorem linked_of_placed
    (hplaced : ∀ opcode s, .jump opcode s ∈ requests → s ≠ "" → .label s ∈ requests)
    (hforward : ∀ before opcode op s after, requests = before ++ .jump opcode s :: after →
      Opcode.ofNumber? opcode = some op → op.argKind = .jumpRelative → s ≠ "" →
      .label s ∈ after) :
    (start.performAll requests).Linked := by
  have hlookup {s : String} {before after : List Request}
      (hsplit : requests = before ++ .label s :: after) :
      (start.performAll requests).labels.lookup s = some (start.emitted before).length := by
    have hat := lookup_label hitems (hsplit ▸ hclean)
    rwa [← hsplit] at hat
  intro i item s hitem hlabel
  rw [getElem?_items hclean hitems] at hitem
  obtain ⟨before, r, after, hsplit, hlength, hr⟩ := emitted_split hitem
  obtain ⟨opcode, rfl, hop⟩ := Request.eq_jump hr hlabel
  -- a jump to the empty label is not labelled
  have hname : s ≠ "" := by
    rintro rfl
    obtain ⟨op, -, rfl⟩ := Option.map_eq_some_iff.mp hr
    simp at hlabel
  obtain ⟨before', after', hsplit'⟩ :=
    List.append_of_mem (hplaced opcode s (by simp [hsplit]) hname)
  refine ⟨_, hlookup hsplit', ?_, fun hkind => ?_⟩
  · rw [← Array.length_toList, items_eq hclean hitems, hsplit', emitted_append, List.length_append]
    exact Nat.le_add_right _ _
  · -- the label that comes after a relative jump is the only one of that name
    have hrelative := Opcode.argKind_of_isJump
      ((item_sound hclean hitem).labelled (by simp [hlabel])).1 hkind
    obtain ⟨mid, rest, rfl⟩ :=
      List.append_of_mem (hforward before opcode item.op s after hsplit hop hrelative hname)
    have hsplitLater : requests = (before ++ .jump opcode s :: mid) ++ .label s :: rest := by
      simpa using hsplit
    have hlater := hlookup hsplitLater
    rw [Option.some.inj ((hlookup hsplit').symm.trans hlater)]
    simp [emitted_append, emitted, hr, ← hlength]

end

/-- A label that lies behind the instructions of a jump is placed after it. -/
theorem mem_after_of_lt {start : Assembly} {before before' after after' : List Request}
    {opcode : UInt8} {s : String}
    (hsplit : before ++ .jump opcode s :: after = before' ++ .label s :: after')
    (hlt : (start.emitted before).length < (start.emitted before').length) : .label s ∈ after := by
  rcases List.append_eq_append_iff.mp hsplit with ⟨mid, rfl, htail⟩ | ⟨mid, rfl, -⟩
  · cases mid with
    | nil => simp at htail
    | cons r mid =>
        obtain ⟨-, rfl⟩ := List.cons_eq_cons.mp htail
        simp
  · rw [emitted_append, List.length_append] at hlt
    omega

/-- Assembling succeeds exactly when nothing is wrong. -/
theorem exists_assemble_iff (name file id : String) (requests : List Request) (serial : Nat) :
    (∃ c, ((blank name file id).performAll requests).assemble serial = .ok c) ↔
      ¬ Wrong (blank name file id) requests serial := by
  have hmistakes : ((blank name file id).performAll requests).mistakes = [] ↔ _ :=
    mistakes_performAll rfl rfl requests
  constructor
  · rintro ⟨c, hc⟩ hwrong
    have hclean := (clean_of_assemble hc).1
    -- each thing that can be wrong is found by one of the checks
    cases hwrong with
    | mistaken hsplit hr => exact (hmistakes.mp hclean).2 _ _ _ hsplit hr
    | undefined hjump hname hmissing =>
        obtain ⟨before, after, hsplit⟩ := List.append_of_mem hjump
        obtain ⟨op, -, -, hitem⟩ := items_jump hclean rfl hsplit
        obtain ⟨k, hk⟩ := exists_lookup hc (Array.mem_of_getElem? hitem) (if_neg hname)
        obtain ⟨before', after', hplaced⟩ := exists_label (by rfl) hk
        exact hmissing (by simp [hplaced])
    | backward hsplit hop hrelative hname hearlier =>
        obtain ⟨op', hop', -, hitem⟩ := items_jump hclean rfl hsplit
        obtain rfl := Option.some.inj (hop'.symm.trans hop)
        obtain ⟨k, hk, -, hlater⟩ := linked_of_assemble hc rfl rfl _ _ _ hitem (if_neg hname)
        obtain ⟨before', after', hplaced, rfl⟩ := (lookup_eq_iff hc rfl rfl).mp hk
        exact hearlier (mem_after_of_lt (hsplit.symm.trans hplaced) (hlater (by simp [hrelative])))
    | refused hstream hvalid =>
        obtain ⟨bytes, hbytes, rfl, haccepted⟩ := validate_of_assemble hc
        obtain rfl := Except.ok.inj (hstream.symm.trans hbytes)
        cases hvalid.symm.trans haccepted
  · intro hright
    -- with nothing wrong, all checks are passed
    have hclean : ((blank name file id).performAll requests).mistakes = [] :=
      hmistakes.mpr ⟨rfl, fun _ _ _ hsplit hr => hright (.mistaken hsplit hr)⟩
    have hlinked := linked_of_placed hclean rfl
      (fun _ _ hjump hname => by_contra fun h => hright (.undefined hjump hname h))
      (fun _ _ _ _ _ hsplit hop hrelative hname =>
        by_contra fun h => hright (.backward hsplit hop hrelative hname h))
    obtain ⟨widths, -, hstream⟩ := stream_eq hlinked (plain_items hclean rfl)
    refine ⟨_, assemble_eq hclean hlinked serial hstream ?_⟩
    cases hvalid : (((blank name file id).performAll requests).code serial _).validate with
    | ok u => rfl
    | error e => exact absurd (.refused hstream hvalid) hright

/-! ## Where jumps lead -/

/-- The offset at which the instruction at a position starts, or the end behind the last one. -/
def startOf (raws : Array RawInstruction) (stop k : Nat) : Nat :=
  (raws[k]?.map (·.offset)).getD stop

/-- A stream that reads as the instructions which requests add, and in which every jump to a label
leads to the instruction that was added first behind it, or to the end. Jumps to the empty label
have the argument zero. -/
structure Encodes (start : Assembly) (requests : List Request) (c : Code)
    (raws : Array RawInstruction) : Prop where
  scan_eq : scan c.name c.instructions = .ok raws
  size_eq : raws.size = (start.emitted requests).length
  jumps : ∀ before opcode s after, requests = before ++ .jump opcode s :: after →
    ∃ r, raws[(start.emitted before).length]? = some r ∧ Opcode.ofNumber? opcode = some r.op ∧
      (s = "" → r.arg = 0) ∧
      (s ≠ "" → .label s ∈ requests ∧
        ∀ before' after', requests = before' ++ .label s :: after' →
          r.destination = startOf raws c.instructions.length (start.emitted before').length)

/-- A jump leads to the place of its label. -/
theorem destination_placedAt {a : Assembly} (hlinked : a.Linked) {widths : List Nat}
    (hsettled : a.needed widths = widths) {i k : Nat} {item : Item} {s : String}
    (hitem : a.items[i]? = some item) (hlabel : item.label? = some s)
    (hjump : item.op.isJump = true) (hlookup : a.labels.lookup s = some k) :
    (a.placedAt widths i item).destination = startAt widths k := by
  obtain ⟨k', hk', -, hforward⟩ := hlinked i item s hitem hlabel
  obtain rfl : k' = k := Option.some.inj (hk'.symm.trans hlookup)
  rw [RawInstruction.destination, next_placedAt hsettled hitem]
  by_cases habs : item.op.argKind = .jumpAbsolute
  · simp [placedAt, argument, hlabel, hlookup, habs]
  · have hrelative := Opcode.argKind_of_isJump hjump habs
    have hle := startAt_le widths (show i + 1 ≤ k' from hforward habs)
    have harg : (a.placedAt widths i item).arg = startAt widths k' - startAt widths (i + 1) := by
      simp [placedAt, argument, hlabel, hlookup, habs]
    rw [if_pos (show (a.placedAt widths i item).op.argKind = .jumpRelative from hrelative), harg,
      Nat.add_sub_of_le hle]

/-- Settled instructions start where the widths before them say, and the end is behind the last. -/
theorem startOf_settled {a : Assembly} {widths : List Nat} (hsettled : a.needed widths = widths)
    {k : Nat} (hk : k ≤ a.items.size) :
    startOf (placed 0 (a.settledPairs widths)).toArray
      (encodeAll (a.settledPairs widths)).length k = startAt widths k := by
  rw [startOf, getElem?_settled hsettled, length_encodeAll_settled hsettled]
  rcases Nat.lt_or_eq_of_le hk with hlt | rfl
  · simp [Array.getElem?_eq_getElem hlt, placedAt]
  · simp

/-- A stream that is not too long is read back as it was meant. -/
theorem encodes_of_assemble {name file id : String} {requests : List Request} {serial : Nat}
    {c : Code} (h : ((blank name file id).performAll requests).assemble serial = .ok c)
    (hshort : c.instructions.length < 2 ^ 32) :
    ∃ raws, Encodes (blank name file id) requests c raws := by
  have hclean := (clean_of_assemble h).1
  have hlinked := linked_of_assemble h rfl rfl
  obtain ⟨widths, hsettled, hstream⟩ := stream_eq hlinked (plain_items hclean rfl)
  obtain ⟨bytes, hbytes, rfl, -⟩ := validate_of_assemble h
  obtain rfl := Except.ok.inj (hstream.symm.trans hbytes)
  obtain ⟨hname, hinstructions, -⟩ := code_eq ((blank name file id).performAll requests) serial
    (encodeAll (((blank name file id).performAll requests).settledPairs widths))
  rw [hinstructions] at hshort
  refine ⟨(placed 0 (((blank name file id).performAll requests).settledPairs widths)).toArray,
    ?_, ?_, fun before opcode s after hsplit => ?_⟩
  · rw [hinstructions]
    exact scan_encodeAll _ (encodable_settled hclean rfl hlinked hsettled hshort)
  · rw [List.size_toArray, length_placed, length_settledPairs, ← Array.length_toList,
      items_eq hclean rfl]
  · obtain ⟨op, hop, hjump, hitem⟩ := items_jump hclean rfl hsplit
    refine ⟨_, by rw [getElem?_settled hsettled, hitem, Option.map_some], hop, ?_, ?_⟩
    · rintro rfl
      simp [placedAt, argument]
    · intro hname
      obtain ⟨k, hk⟩ := exists_lookup h (Array.mem_of_getElem? hitem) (if_neg hname)
      obtain ⟨before', after', hplaced⟩ := exists_label (by rfl) hk
      refine ⟨by simp [hplaced], fun before' after' hplaced => ?_⟩
      -- a label is where the instructions before it end
      have hlookup := (lookup_eq_iff h rfl rfl).mpr ⟨before', after', hplaced, rfl⟩
      rw [destination_placedAt hlinked hsettled hitem (if_neg hname) hjump hlookup, hinstructions,
        startOf_settled hsettled (lookup_le h rfl rfl hlookup)]

/-- Assembling fails exactly when something is wrong with the requests. When nothing is and the
stream is not too long, every jump is encoded to the place of its label. -/
theorem fails_iff_wrong (name file id : String) (requests : List Request) (serial : Nat) :
    ((∃ e, ((blank name file id).performAll requests).assemble serial = .error e) ↔
        Wrong (blank name file id) requests serial) ∧
      ∀ c, ((blank name file id).performAll requests).assemble serial = .ok c →
        c.instructions.length < 2 ^ 32 → ∃ raws, Encodes (blank name file id) requests c raws := by
  refine ⟨?_, fun c hc hshort => encodes_of_assemble hc hshort⟩
  rw [← not_iff_not, ← exists_assemble_iff]
  cases ((blank name file id).performAll requests).assemble serial <;> simp

/-- A jump to the empty label is accepted although that label is never placed. -/
theorem accepts_unplaced_emptyLabel :
    let requests : List Request :=
      [.jump Opcode.jumpAbsolute.number "", .emit Opcode.returnValue.number 0]
    .jump Opcode.jumpAbsolute.number "" ∈ requests ∧ .label "" ∉ requests ∧
      ¬ ∃ e, ((blank "m" "" "m").performAll requests).assemble 0 = .error e := by
  intro requests
  refine ⟨List.mem_cons_self, by simp [requests], ?_⟩
  rintro ⟨e, he⟩
  have hok : (((blank "m" "" "m").performAll requests).assemble 0).isOk = true := by cbv
  rw [he] at hok
  cases hok

/-- A relative jump back to a label is reported, and one to the end leads there. -/
theorem fails_iff_wrong_relative :
    let back : List Request := [.label "top", .emit Opcode.nop.number 0,
      .jump Opcode.jumpForward.number "top", .emit Opcode.returnValue.number 0]
    let ahead : List Request := [.jump Opcode.jumpForward.number "end",
      .emit Opcode.nop.number 0, .label "end"]
    (∃ e, ((blank "m" "" "m").performAll back).assemble 0 = .error e) ∧
      ∃ c raws, ((blank "m" "" "m").performAll ahead).assemble 0 = .ok c ∧
        Encodes (blank "m" "" "m") ahead c raws := by
  intro back ahead
  refine ⟨(fails_iff_wrong "m" "" "m" back 0).1.mpr ?_, ?_⟩
  · have hsplit : back = [.label "top", .emit Opcode.nop.number 0] ++
        .jump Opcode.jumpForward.number "top" :: [.emit Opcode.returnValue.number 0] := rfl
    have hop : Opcode.ofNumber? Opcode.jumpForward.number = some .jumpForward := by decide
    exact .backward hsplit hop (by decide) (by decide) (by simp)
  · have hok : (((blank "m" "" "m").performAll ahead).assemble 0).toOption.map (·.instructions) =
        some [110, 2, 9, 0] := by cbv
    cases hassemble : ((blank "m" "" "m").performAll ahead).assemble 0 with
    | error e =>
        rw [hassemble] at hok
        cases hok
    | ok c =>
        rw [hassemble] at hok
        have hbytes : c.instructions = [110, 2, 9, 0] := Option.some.inj hok
        obtain ⟨raws, hraws⟩ :=
          (fails_iff_wrong "m" "" "m" ahead 0).2 c hassemble (by simp [hbytes])
        exact ⟨c, raws, rfl, hraws⟩

end Assembly

end Wordcode
