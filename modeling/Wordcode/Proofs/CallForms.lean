import Wordcode.Proofs.Keywords
import Wordcode.Proofs.StackDiscipline
import Mathlib

namespace Wordcode

/-! # The forms of a call

There are four ways to make a call: with the positional arguments on the stack, with positional and
keyword arguments on the stack and the names in a tuple, and with the positional arguments in a
sequence, with or without a mapping of keyword arguments. They do the same with the same arguments.

There is one reservation. What merges keyword arguments into a dict reads the mapping itself, and
reads it last; so merging the positional argument must not change the mapping.

* `Frame.CallsPlain`, `Frame.CallsNamed`, `Frame.CallsPacked` and `Frame.CallsMapping` are the
  forms.
* `Machine.call_forms_agree` is the result.
* `Machine.call_forms_differ` shows that the reservation is needed.
-/

/-! ## Forms -/

/-- A sequence of arguments. -/
def World.Packs (w : World) (packed : Value) (args : List Value) : Prop :=
  (∃ id, packed = .tuple args id) ∨ ∃ ref, packed = .list ref ∧ w.store.items ref = args

/-- A string with a given text. -/
def Value.Spells (v : Value) (name : String) : Prop := ∃ id, v = .str name id

namespace Frame

variable (f : Frame) (i : Instruction) (w : World) (callee : Value) (args : List Value)
  (passed : Bindings) (mapping : Nat) (rest : Stack)

/-- A call with the arguments on the stack. -/
structure CallsPlain : Prop where
  op_eq : i.op = .callFunction
  arg_eq : i.arg = args.length
  stack_eq : f.stack = args.reverse ++ callee :: rest

/-- A call with all arguments on the stack, and the names of the keyword arguments on top. -/
structure CallsNamed : Prop where
  op_eq : i.op = .callFunctionKw
  arg_eq : i.arg = args.length + passed.length
  stack_eq : ∃ names id,
    f.stack = .tuple names id :: ((args ++ passed.map Prod.snd).reverse ++ callee :: rest) ∧
      List.Forall₂ Value.Spells names (passed.map Prod.fst)

/-- A call with the arguments in a sequence. -/
structure CallsPacked : Prop where
  op_eq : i.op = .callFunctionEx
  flags_eq : Opcode.callsWithKeywords i.arg = false
  stack_eq : ∃ packed, f.stack = packed :: callee :: rest ∧ w.Packs packed args

/-- A call with the positional arguments in a sequence and the keyword arguments in a dict. -/
structure CallsMapping : Prop where
  op_eq : i.op = .callFunctionEx
  flags_eq : Opcode.callsWithKeywords i.arg = true
  stack_eq : ∃ packed, f.stack = .dict mapping :: packed :: callee :: rest ∧ w.Packs packed args
  entries : Entry.FileAll (w.store.entries mapping) passed

end Frame

/-- The world in which a number of identities have been given away. -/
def World.spend (w : World) (n : Nat) : World :=
  { w with store := { w.store with nextId := w.store.nextId + n } }

/-! ## Executing a call -/

/-- How an instruction ends that pushes what a call gives. -/
def Frame.receiving (f : Frame) :
    EStateM.Result Failure World Value → EStateM.Result Failure World (Flow × Frame)
  | .ok v w => .ok (.next, { f with stack := v :: f.stack }) w
  | .error e w => .error e w

namespace Act

variable {α β : Type} {x : Act α} {k : α → Act β} {f f' : Frame} {w w' : World} {a : α}

/-- An action after one that has succeeded. -/
theorem run_bind_of_ok (h : x.run f w = .ok (a, f') w') :
    (x >>= k).run f w = (k a).run f' w' :=
  bind_of_ok h

/-- Popping the top. -/
theorem run_pop {v : Value} {rest : Stack} (h : f.stack = v :: rest) (w : World) :
    pop.run f w = .ok (v, { f with stack := rest }) w := by
  obtain ⟨code, locals, stack⟩ := f
  cases h
  rfl

/-- Popping several, which come in the order in which they were pushed. -/
theorem run_popMany {vs : List Value} {rest : Stack} (h : f.stack = vs.reverse ++ rest)
    (w : World) :
    (popMany vs.length).run f w = .ok (vs, { f with stack := rest }) w := by
  have hpop : Stack.popMany f.stack vs.length = .ok (vs, rest) := by
    rw [h]
    exact Stack.popMany_pushAll rest vs
  unfold popMany
  refine (run_bind_of_ok rfl).trans ?_
  rw [hpop]
  rfl

/-- What happens in the world leaves the frame. -/
theorem run_exec {x : Exec α} (h : x w = .ok a w') (f : Frame) :
    (liftM x : Act α).run f w = .ok (a, f) w' :=
  bind_of_ok h

/-- Pushing what a call gives. -/
theorem run_result (x : Exec Value) (f : Frame) (w : World) :
    (liftM x >>= Frame.result : Act Flow).run f w = f.receiving (x w) := by
  cases hx : x w with
  | ok v w' => exact run_bind_of_ok (run_exec hx f)
  | error e w' => exact bind_of_error (bind_of_error hx)

/-- A pass that makes an entry with a new string for each name, as long as the name is new. -/
theorem run_foldlM_entries {g : List Entry → Value × Value → Act (List Entry)} {f : Frame}
    (hg : ∀ made name id v w, made.any (·.hash == .str name) = false →
      (g made (.str name id, v)).run f w =
        .ok (made ++ [⟨.str name, .str name w.store.nextId, v⟩], f) (w.spend 1))
    {names : List Value} {passed before : Bindings} {made : List Entry}
    (hnames : List.Forall₂ Value.Spells names (passed.map Prod.fst))
    (hmade : Entry.FileAll made before) (hdistinct : ((before ++ passed).map Prod.fst).Nodup)
    (w : World) :
    ∃ es, Entry.FileAll es (before ++ passed) ∧
      ((names.zip (passed.map Prod.snd)).foldlM g made).run f w =
        .ok (es, f) (w.spend passed.length) := by
  induction passed generalizing names before made w with
  | nil =>
      cases hnames
      rw [List.append_nil]
      exact ⟨made, hmade, rfl⟩
  | cons e passed ih =>
      obtain ⟨name, v⟩ := e
      cases hnames with
      | cons hfirst hnames =>
          obtain ⟨id, rfl⟩ := hfirst
          -- the names differ, so no entry that has been made is in the way
          have hother : name ∉ before.map Prod.fst := by
            rw [List.map_append, List.map_cons] at hdistinct
            intro hmem
            exact (List.nodup_append.mp hdistinct).2.2 name hmem name List.mem_cons_self rfl
          have hnew : made.any (·.hash == .str name) = false := by
            have hhashes : made.any (·.hash == .str name) =
                (made.map (·.hash)).any (· == .str name) := by
              rw [List.any_map]
              rfl
            rw [hhashes, hmade.map_hash, List.any_map, List.any_eq_false]
            intro other hmem hequal
            have htexts : (other == name) = true := hequal
            exact hother (beq_iff_eq.mp htexts ▸ hmem)
          have hmade' : Entry.FileAll (made ++ [⟨.str name, .str name w.store.nextId, v⟩])
              (before ++ [(name, v)]) :=
            List.rel_append hmade (.cons ⟨rfl, ⟨_, rfl⟩, rfl⟩ .nil)
          obtain ⟨es, hes, hrun⟩ := ih hnames hmade' (by simpa using hdistinct) (w.spend 1)
          refine ⟨es, by simpa using hes, ?_⟩
          have hspend : w.spend (passed.length + 1) = (w.spend 1).spend passed.length := by
            unfold World.spend
            rw [Nat.add_comm passed.length, ← Nat.add_assoc]
          rw [List.map_cons, List.zip_cons_cons, List.foldlM_cons, List.length_cons, hspend]
          exact (run_bind_of_ok (hg made name id v w hnew)).trans hrun

/-- Each keyword argument gets a new string. -/
theorem run_pairKeywords {names : List Value} {passed : Bindings}
    (hnames : List.Forall₂ Value.Spells names (passed.map Prod.fst))
    (hdistinct : (passed.map Prod.fst).Nodup) (f : Frame) (w : World) :
    ∃ es, Entry.FileAll es passed ∧
      (pairKeywords names (passed.map Prod.snd)).run f w = .ok (es, f) (w.spend passed.length) := by
  unfold pairKeywords
  refine run_foldlM_entries (fun made name id v w hnew => ?_) hnames .nil hdistinct w
  simp only [hnew]
  rfl

end Act

/-! ## The forms -/

namespace World

variable {w : World}

/-- The items of a sequence are taken without changing anything. -/
theorem Packs.collect {packed : Value} {args : List Value} (h : w.Packs packed args)
    (call : Callback) (fuel : Nat) : Exec.collect call fuel packed w = .ok args w := by
  rcases h with ⟨id, rfl⟩ | ⟨ref, rfl, rfl⟩
  · rfl
  · rfl

end World

namespace Frame

variable {s : Surroundings} {f : Frame} {i : Instruction} {w : World} {callee : Value}
  {args : List Value} {passed : Bindings} {mapping : Nat} {rest : Stack}

/-- A call with positional arguments pops them and the callee. -/
theorem CallsPlain.execute_eq (h : f.CallsPlain i callee args rest) :
    (execute s i).run f w =
      Frame.receiving { f with stack := rest } (s.call callee args [] w) := by
  unfold execute
  rw [h.op_eq, h.arg_eq]
  refine (Act.run_bind_of_ok (Act.run_popMany h.stack_eq w)).trans ?_
  refine (Act.run_bind_of_ok (Act.run_pop rfl w)).trans ?_
  exact Act.run_result _ _ _

/-- A call with names pairs them with the last arguments. -/
theorem CallsNamed.execute_eq (h : f.CallsNamed i callee args passed rest)
    (hdistinct : (passed.map Prod.fst).Nodup) :
    ∃ es, Entry.FileAll es passed ∧ (execute s i).run f w =
      Frame.receiving { f with stack := rest } (s.call callee args es (w.spend passed.length)) := by
  obtain ⟨names, id, hstack, hnames⟩ := h.stack_eq
  obtain ⟨es, hes, hpair⟩ := Act.run_pairKeywords hnames hdistinct { f with stack := rest } w
  refine ⟨es, hes, ?_⟩
  have hcount : names.length = passed.length := by simpa using hnames.length_eq
  have hall : (Act.popMany i.arg).run
      { f with stack := (args ++ passed.map Prod.snd).reverse ++ callee :: rest } w =
        .ok (args ++ passed.map Prod.snd, { f with stack := callee :: rest }) w := by
    have hlength : i.arg = (args ++ passed.map Prod.snd).length := by simp [h.arg_eq]
    rw [hlength]
    exact Act.run_popMany rfl w
  -- as many arguments belong to names as there are names
  have hsplit : i.arg - names.length = args.length := by
    rw [h.arg_eq, hcount, Nat.add_sub_cancel]
  unfold execute
  rw [h.op_eq]
  refine (Act.run_bind_of_ok (Act.run_pop hstack w)).trans ?_
  dsimp only
  rw [if_neg (by rw [h.arg_eq, hcount]; omega)]
  refine (Act.run_bind_of_ok hall).trans ?_
  refine (Act.run_bind_of_ok (Act.run_pop rfl w)).trans ?_
  rw [hsplit, List.drop_left, List.take_left]
  exact (Act.run_bind_of_ok hpair).trans (Act.run_result _ _ _)

/-- A call with packed arguments unpacks them. -/
theorem CallsPacked.execute_eq (h : f.CallsPacked i w callee args rest) :
    (execute s i).run f w =
      Frame.receiving { f with stack := rest } (s.call callee args [] w) := by
  obtain ⟨packed, hstack, hpacked⟩ := h.stack_eq
  -- without the flag there is no mapping to pop
  have hmapping : (Act.popMapping i.arg).run f w = .ok (none, f) w := by
    unfold Act.popMapping
    rw [if_neg (by simp [h.flags_eq])]
    rfl
  have hargs : Exec.orError (Exec.collect s.callback s.fuel packed)
      (.raise .type s!"argument after * must be an iterable, not {packed.typeName}") w =
        .ok args w := tryCatch_of_ok (hpacked.collect _ _)
  unfold execute
  rw [h.op_eq]
  refine (Act.run_bind_of_ok hmapping).trans ?_
  refine (Act.run_bind_of_ok (Act.run_pop hstack w)).trans ?_
  refine (Act.run_bind_of_ok (Act.run_exec hargs _)).trans ?_
  refine (Act.run_bind_of_ok (Act.run_pop rfl w)).trans ?_
  exact Act.run_result _ _ _

/-- A call with a mapping passes it on, besides the packed arguments. -/
theorem CallsMapping.execute_eq (h : f.CallsMapping i w callee args passed mapping rest) :
    (execute s i).run f w =
      Frame.receiving { f with stack := rest } (s.callWith callee args (some mapping) w) := by
  obtain ⟨packed, hstack, hpacked⟩ := h.stack_eq
  have hmapping : (Act.popMapping i.arg).run f w =
      .ok (some mapping, { f with stack := packed :: callee :: rest }) w := by
    unfold Act.popMapping
    rw [if_pos h.flags_eq]
    exact Act.run_bind_of_ok (Act.run_pop hstack w)
  -- packed arguments are a list or a tuple, so collecting them calls nothing
  have hargs : Exec.orError (Exec.collect s.callback s.fuel packed)
      (.raise .type s!"argument after * must be an iterable, not {packed.typeName}") w =
        .ok args w := tryCatch_of_ok (hpacked.collect _ _)
  unfold execute
  rw [h.op_eq]
  refine (Act.run_bind_of_ok hmapping).trans ?_
  refine (Act.run_bind_of_ok (Act.run_pop rfl w)).trans ?_
  refine (Act.run_bind_of_ok (Act.run_exec hargs _)).trans ?_
  refine (Act.run_bind_of_ok (Act.run_pop rfl w)).trans ?_
  exact Act.run_result _ _ _

end Frame

/-! ## Calls with keyword arguments -/

namespace Machine

variable {m : Machine} {fuel : Nat} {f g : Frame} {i j : Instruction} {w : World} {callee : Value}
  {args : List Value} {passed : Bindings} {mapping : Nat} {rest : Stack} {es : List Entry}

/-- Merging the positional argument does not change the mapping of keyword arguments, if that is
merged too. -/
def LeavesMapping (m : Machine) (fuel : Nat) (callee : Value) (args : List Value) (mapping : Nat)
    (w : World) : Prop :=
  callee.merges = true → ∀ v w', m.invoke fuel callee args [] w = .ok v w' →
    w'.store.entries mapping = w.store.entries mapping

/-- What does not merge reads the mapping before it is called. -/
theorem callWith_of_not_merges (m : Machine) (fuel : Nat) (hmerges : callee.merges = false)
    (args : List Value) (mapping : Nat) (w : World) :
    (m.surroundings fuel).callWith callee args (some mapping) w =
      (m.surroundings fuel).call callee args (w.store.entries mapping) w := by
  unfold Surroundings.callWith
  dsimp only
  split
  · cases hmerges
  · cases hmerges
  · rfl

/-- What merges reads the mapping after it has been called with the positional arguments. -/
theorem callWith_of_merges {v : Value} {ref : Nat} {w' : World}
    (hinto : callee.mergedInto? v = some ref)
    (hcall : m.invoke fuel callee args [] w = .ok (some v) w') :
    (m.surroundings fuel).callWith callee args (some mapping) w =
      .ok v (w'.merged ref (w'.store.entries mapping)) := by
  have hfirst : (m.surroundings fuel).call callee args [] w = .ok v w' := bind_of_ok hcall
  unfold Value.mergedInto? at hinto
  split at hinto
  · cases hinto
    exact bind_of_ok hfirst
  · cases hinto
    exact bind_of_ok hfirst
  · cases hinto

/-- What merges has failed before it comes to the mapping. -/
theorem callWith_of_merges_error {e : Failure} {w' : World} (hmerges : callee.merges = true)
    (hcall : m.invoke fuel callee args [] w = .error e w') :
    (m.surroundings fuel).callWith callee args (some mapping) w = .error e w' := by
  have hfirst : (m.surroundings fuel).call callee args [] w = .error e w' := bind_of_error hcall
  unfold Value.merges at hmerges
  split at hmerges
  · exact bind_of_error hfirst
  · exact bind_of_error hfirst
  · cases hmerges

/-- A call with a mapping and one with entries that say the same. -/
theorem callWith_alike (hhost : ∀ h, callee ≠ .host h)
    (hlate : m.LeavesMapping fuel callee args mapping w) (hes : Entry.FileAll es passed)
    (hmapping : Entry.FileAll (w.store.entries mapping) passed) :
    EndsAlike (fun u u' => u.AlikeButKeys u' ∧ (callee.merges = false → u' = u))
      ((m.surroundings fuel).call callee args es w)
      ((m.surroundings fuel).callWith callee args (some mapping) w) := by
  cases hmerges : callee.merges with
  | false =>
      have hsame : (m.surroundings fuel).call callee args es =
          (m.surroundings fuel).call callee args (w.store.entries mapping) :=
        congrArg (· >>= _) (invoke_congr hes hmapping m fuel hhost hmerges args)
      rw [callWith_of_not_merges m fuel hmerges, hsame]
      cases (m.surroundings fuel).call callee args (w.store.entries mapping) w with
      | ok v w' => exact .ok ⟨.refl w', fun _ => rfl⟩
      | error e w' => exact .error ⟨.refl w', fun _ => rfl⟩
  | true =>
      -- merging comes to the keyword arguments last, so the other arguments decide first
      rcases invoke_of_merges m fuel hmerges args w with
        ⟨e, w', hcall⟩ | ⟨v, ref, w', hinto, hcall⟩
      · have hcall' : (m.surroundings fuel).call callee args es w = .error e w' :=
          bind_of_error (hcall es)
        rw [hcall', callWith_of_merges_error hmerges (hcall [])]
        exact .error ⟨.refl w', fun _ => rfl⟩
      · have hnone : m.invoke fuel callee args [] w = .ok (some v) w' := by
          rw [hcall, World.merged_nil]
        have hentries := hlate hmerges (some v) w' hnone
        have hcall' : (m.surroundings fuel).call callee args es w = .ok v (w'.merged ref es) :=
          bind_of_ok (hcall es)
        rw [hcall', callWith_of_merges hinto hnone, hentries]
        refine .ok ⟨World.alikeButKeys_merged w' ref hes hmapping, fun hno => ?_⟩
        cases hno

/-- No keyword arguments are the same as an empty mapping. -/
theorem callWith_nil (hlate : m.LeavesMapping fuel callee args mapping w)
    (hmapping : Entry.FileAll (w.store.entries mapping) []) :
    (m.surroundings fuel).callWith callee args (some mapping) w =
      (m.surroundings fuel).call callee args [] w := by
  -- a mapping without entries adds nothing
  have hempty : w.store.entries mapping = [] := by
    generalize w.store.entries mapping = entries at hmapping
    cases hmapping
    rfl
  cases hmerges : callee.merges with
  | false => rw [callWith_of_not_merges m fuel hmerges, hempty]
  | true =>
      rcases invoke_of_merges m fuel hmerges args w with
        ⟨e, w', hcall⟩ | ⟨v, ref, w', hinto, hcall⟩
      · rw [callWith_of_merges_error hmerges (hcall [])]
        exact (bind_of_error (hcall [])).symm
      · have hnone : m.invoke fuel callee args [] w = .ok (some v) w' := by
          rw [hcall, World.merged_nil]
        rw [callWith_of_merges hinto hnone, hlate hmerges _ _ hnone, hempty, World.merged_nil]
        have hfirst : (m.surroundings fuel).call callee args [] w = .ok v w' := bind_of_ok hnone
        exact hfirst.symm

/-- A frame receives like results alike. -/
theorem receiving_endsAlike {R : World → World → Prop} {r r' : EStateM.Result Failure World Value}
    (h : EndsAlike R r r') (f : Frame) : EndsAlike R (f.receiving r) (f.receiving r') := by
  cases h with
  | ok h => exact .ok h
  | error h => exact .error h

/-- The forms of a call do the same. A call with the keyword arguments in a mapping ends with the
same value or the same failure, in the same frame and the same world, as one with their names in a
tuple. There are two differences. New strings are made for the names, and therefore this is about a
world in which as many identities have been given away; and a dict that keyword arguments are merged
into has the strings of the mapping as its keys instead. Without keyword arguments all forms are the
same as a call with the arguments on the stack. All this is about callables other than those of
the embedding program, and a mapping that is merged must be left alone by what is merged before. -/
theorem call_forms_agree (hhost : ∀ h, callee ≠ .host h)
    (hdistinct : (passed.map Prod.fst).Nodup)
    (hlate : m.LeavesMapping fuel callee args mapping (w.spend passed.length))
    (hframes : { g with stack := rest } = { f with stack := rest }) :
    (f.CallsNamed i callee args passed rest → g.CallsMapping j w callee args passed mapping rest →
      EndsAlike (fun u u' => u.AlikeButKeys u' ∧ (callee.merges = false → u' = u))
        ((Frame.execute (m.surroundings fuel) i).run f w)
        ((Frame.execute (m.surroundings fuel) j).run g (w.spend passed.length))) ∧
      (passed = [] → f.CallsPlain i callee args rest →
        g.CallsNamed j callee args [] rest ∨ g.CallsPacked j w callee args rest ∨
          g.CallsMapping j w callee args [] mapping rest →
        (Frame.execute (m.surroundings fuel) j).run g w =
          (Frame.execute (m.surroundings fuel) i).run f w) := by
  constructor
  · intro hnamed hmapping
    obtain ⟨es, hes, hrun⟩ := hnamed.execute_eq (s := m.surroundings fuel) (w := w) hdistinct
    -- spending identities leaves the operands
    have hmapping' : g.CallsMapping j (w.spend passed.length) callee args passed mapping rest :=
      ⟨hmapping.op_eq, hmapping.flags_eq, hmapping.stack_eq, hmapping.entries⟩
    rw [hrun, hmapping'.execute_eq, hframes]
    exact receiving_endsAlike (callWith_alike hhost hlate hes hmapping.entries) _
  · rintro rfl hplain hother
    have hlate' : m.LeavesMapping fuel callee args mapping w := hlate
    rw [hplain.execute_eq, ← hframes]
    rcases hother with hnamed | hpacked | hmapping
    · obtain ⟨es, hes, hrun⟩ := hnamed.execute_eq (s := m.surroundings fuel) (w := w) hdistinct
      cases hes
      exact hrun
    · exact hpacked.execute_eq
    · rw [hmapping.execute_eq, callWith_nil hlate' hmapping.entries]

/-- A dict of one string. -/
def singleDict (name : String) (v : Value) (id : Nat) : Dict where
  entries := [⟨.str name, .str name id, v⟩]
  index := [(.str name, 0)]

/-- A world with a dict, with another one of the same name, and with a copy of the first one. -/
def threeDicts : World where
  store := {
    dicts := #[singleDict "k" (.int 1) 0, singleDict "k" (.int 2) 1, singleDict "k" (.int 1) 2]
    nextId := 3 }

/-- A frame that updates the first dict from the second one, and sets the name to 1. -/
def updatingNamed : Frame where
  code := default
  locals := .globals
  stack := [.tuple [.str "k" 3] 4, .int 1, .dict 1, .method (.dict 0) (.dict .update) 5]

/-- The same with a mapping. -/
def updatingMapping (mapping : Nat) : Frame :=
  { updatingNamed with
    stack := [.dict mapping, .tuple [.dict 1] 6, .method (.dict 0) (.dict .update) 5] }

/-- A call that names its last argument. -/
def namedInstruction : Instruction :=
  { (default : Instruction) with op := .callFunctionKw, arg := 2 }

/-- A call with packed arguments and a mapping. -/
def mappingInstruction : Instruction :=
  { (default : Instruction) with op := .callFunctionEx, arg := 1 }

/-- The frame calls `update` with a dict and a name. -/
theorem calls_updatingNamed :
    updatingNamed.CallsNamed namedInstruction (.method (.dict 0) (.dict .update) 5) [.dict 1]
      [("k", .int 1)] [] where
  op_eq := rfl
  arg_eq := rfl
  stack_eq := ⟨_, _, rfl, .cons ⟨3, rfl⟩ .nil⟩

/-- The frame calls `update` with a dict and a mapping of the name. -/
theorem calls_updatingMapping {mapping : Nat} (h : mapping = 0 ∨ mapping = 2) :
    (updatingMapping mapping).CallsMapping mappingInstruction threeDicts
      (.method (.dict 0) (.dict .update) 5) [.dict 1] [("k", .int 1)] mapping [] where
  op_eq := rfl
  flags_eq := rfl
  stack_eq := ⟨_, rfl, Or.inl ⟨6, rfl⟩⟩
  entries := by
    rcases h with rfl | rfl
    · exact .cons ⟨rfl, ⟨0, rfl⟩, rfl⟩ .nil
    · exact .cons ⟨rfl, ⟨2, rfl⟩, rfl⟩ .nil

/-- With the copy as the mapping both forms agree. -/
theorem call_forms_agree_copy :
    (∀ h, Value.method (.dict 0) (.dict .update) 5 ≠ .host h) ∧
      (([("k", .int 1)] : Bindings).map Prod.fst).Nodup ∧
      LeavesMapping {} 1 (.method (.dict 0) (.dict .update) 5) [.dict 1] 2 (threeDicts.spend 1) ∧
      EndsAlike (fun u u' => u.AlikeButKeys u' ∧
          ((Value.method (.dict 0) (.dict .update) 5).merges = false → u' = u))
        ((Frame.execute (surroundings {} 1) namedInstruction).run updatingNamed threeDicts)
        ((Frame.execute (surroundings {} 1) mappingInstruction).run (updatingMapping 2)
          (threeDicts.spend 1)) := by
  have hhost : ∀ h, Value.method (.dict 0) (.dict .update) 5 ≠ .host h := by
    intro h hequal
    cases hequal
  have hdistinct : (([("k", .int 1)] : Bindings).map Prod.fst).Nodup := by decide
  -- updating with another dict leaves the mapping
  have hlate : LeavesMapping {} 1 (.method (.dict 0) (.dict .update) 5) [.dict 1] 2
      (threeDicts.spend 1) := by
    intro _ v w' hcall
    cases hcall
    rfl
  have hframes : { updatingMapping 2 with stack := [] } = { updatingNamed with stack := [] } := rfl
  refine ⟨hhost, hdistinct, hlate, ?_⟩
  exact (call_forms_agree hhost hdistinct hlate hframes).1 calls_updatingNamed
    (calls_updatingMapping (Or.inr rfl))

/-- With the dict itself as the mapping, which is read after it has been updated from the second
dict, the name keeps the value that it has there. -/
theorem call_forms_differ :
    ∃ (f f' : Frame) (u u' : World),
      (Frame.execute (surroundings {} 1) namedInstruction).run updatingNamed threeDicts =
        .ok (.next, f) u ∧
      (Frame.execute (surroundings {} 1) mappingInstruction).run (updatingMapping 0)
        (threeDicts.spend 1) = .ok (.next, f') u' ∧
      (u.store.dict 0).find? (.str "k") = some (.int 1) ∧
      (u'.store.dict 0).find? (.str "k") = some (.int 2) := by
  refine ⟨_, _, _, _, rfl, rfl, rfl, rfl⟩

end Machine

end Wordcode
