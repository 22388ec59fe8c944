import Wordcode.Machine.Iteration
import Wordcode.Proofs.Dicts
import Wordcode.Proofs.Sequence
import Mathlib

namespace Wordcode

/-! # Dicts as lists of pairs

A dict is as good as a list of keys and values: it has the results, the order and the faults of such
a list.

* `DictCommand` is what can be done to dicts. `DictCommand.run` does it in a store, and
  `DictCommand.spec` to lists of pairs.
* `DictCommand.refines` says that these agree.
* `Shows` is what is seen of a dict: its length, the lists of its keys and values, and iteration.
-/

/-! ## Commands -/

/-- The dicts of a store as pairs. -/
def Store.pairs (s : Store) : List Pairs := s.dicts.toList.map Dict.pairs

/-- The pairs under a reference. -/
def pairsAt (pss : List Pairs) (ref : Nat) : Pairs := pss.getD ref []

/-- All dicts of a store are sound. -/
def Store.SoundDicts (s : Store) : Prop := ∀ d ∈ s.dicts.toList, d.Sound

/-- What can be done to dicts, apart from updates, which may call back. -/
inductive DictCommand
  | new
  | get (ref : Nat) (key : Value)
  | set (ref : Nat) (key value : Value)
  | setString (ref : Nat) (name : String) (value : Value)
  | pop (ref : Nat) (key : Value)
  | delete (ref : Nat) (key : Value)
  | clear (ref : Nat)
  | copy (ref : Nat)
  | setDefault (ref : Nat) (key fallback : Value)
  | union (a b : Nat)

/-- The result of a computation and the state that it leaves, whether it fails or not. -/
def outcome {σ α : Type} (x : EStateM Failure σ α) (s : σ) : Except Failure α × σ :=
  match x s with
  | .ok a s' => (.ok a, s')
  | .error e s' => (.error e, s')

namespace DictCommand

/-- The operation of a command. -/
def run : DictCommand → Op (Option Value)
  | new => some <$> Op.newDict {}
  | get ref key => Op.dictGet? ref key
  | set ref key value => (fun _ => none) <$> Op.dictSet ref key value
  | setString ref name value => do
    Op.dictSet ref (← Op.newStr name) value
    return none
  | pop ref key => Op.dictPop? ref key
  | delete ref key => (fun _ => none) <$> Op.dictDelete ref key
  | clear ref => (fun _ => none) <$> Op.dictClear ref
  | copy ref => some <$> Op.dictCopy ref
  | setDefault ref key fallback => some <$> Op.dictSetDefault ref key fallback
  | union a b => some <$> Op.dictUnion a b

/-- A command on lists of pairs that needs the key of a value. -/
def keyed (key : Value) (pss : List Pairs) (done : Except Failure (Option Value) × List Pairs) :
    Except Failure (Option Value) × List Pairs :=
  match key.hash with
  | .ok _ => done
  | .error e => (.error e, pss)

/-- What a command does to lists of pairs. The text of values is for the fault about a missing key,
and the identity for a new string. -/
def spec (text : Value → String) (id : Nat) (pss : List Pairs) :
    DictCommand → Except Failure (Option Value) × List Pairs
  | new => (.ok (some (.dict pss.length)), pss ++ [[]])
  | get ref key => keyed key pss (.ok ((pairsAt pss ref).find? key), pss)
  | set ref key value => keyed key pss (.ok none, pss.set ref ((pairsAt pss ref).set key value))
  | setString ref name value =>
    (.ok none, pss.set ref ((pairsAt pss ref).set (.str name id) value))
  | pop ref key =>
    keyed key pss (.ok ((pairsAt pss ref).find? key), pss.set ref ((pairsAt pss ref).remove key))
  | delete ref key => keyed key pss <|
    if ((pairsAt pss ref).find? key).isSome then
      (.ok none, pss.set ref ((pairsAt pss ref).remove key))
    else (.error (.raise .key (text key)), pss)
  | clear ref => (.ok none, pss.set ref [])
  | copy ref => (.ok (some (.dict pss.length)), pss ++ [pairsAt pss ref])
  | setDefault ref key fallback => keyed key pss <|
    match (pairsAt pss ref).find? key with
    | some v => (.ok (some v), pss)
    | none => (.ok (some fallback), pss.set ref ((pairsAt pss ref).set key fallback))
  | union a b =>
    (.ok (some (.dict pss.length)), pss ++ [(pairsAt pss a).setAll (pairsAt pss b)])

end DictCommand

/-! ## Stores with sound dicts -/

namespace Store

variable {s : Store}

/-- Every dict of a sound store is sound, also where there is none. -/
theorem SoundDicts.dict (hs : s.SoundDicts) (ref : Nat) : (s.dict ref).Sound := by
  unfold Store.dict
  rw [Array.getD_eq_getD_getElem?]
  cases hget : s.dicts[ref]? with
  | none => exact .empty
  | some d => exact hs d (by simpa using Array.mem_of_getElem? hget)

/-- A new dict. -/
theorem SoundDicts.push (hs : s.SoundDicts) {d : Dict} (hd : d.Sound) :
    SoundDicts { s with dicts := s.dicts.push d } := by
  intro d' hd'
  rw [Array.toList_push] at hd'
  rcases List.mem_append.mp hd' with hd' | hd'
  · exact hs d' hd'
  · obtain rfl := List.mem_singleton.mp hd'
    exact hd

/-- A dict in the place of another one. -/
theorem SoundDicts.replace (hs : s.SoundDicts) {ref : Nat} {d : Dict} (hd : d.Sound) :
    SoundDicts { s with dicts := s.dicts.setIfInBounds ref d } := by
  intro d' hd'
  rw [Array.toList_setIfInBounds] at hd'
  rcases List.mem_or_eq_of_mem_set hd' with hd' | rfl
  · exact hs d' hd'
  · exact hd

/-- The pairs of one dict among those of all. -/
theorem pairs_dict (s : Store) (ref : Nat) : (s.dict ref).pairs = pairsAt s.pairs ref := by
  unfold Store.dict Store.pairs pairsAt
  rw [Array.getD_eq_getD_getElem?, List.getD_eq_getElem?_getD, List.getElem?_map,
    Array.getElem?_toList]
  cases s.dicts[ref]? <;> rfl

theorem length_pairs (s : Store) : s.pairs.length = s.dicts.size := by
  simp [Store.pairs]

/-- Putting back what is there changes nothing. -/
theorem set_pairsAt (pss : List Pairs) (ref : Nat) : pss.set ref (pairsAt pss ref) = pss := by
  refine List.ext_getElem? fun i => ?_
  rw [List.getElem?_set]
  grind [pairsAt]

/-- A new dict comes last. -/
theorem pairs_push (s : Store) (d : Dict) :
    Store.pairs { s with dicts := s.dicts.push d } = s.pairs ++ [d.pairs] := by
  simp [Store.pairs]

/-- Only the pairs of the dict in question change. -/
theorem pairs_replace (s : Store) (ref : Nat) (d : Dict) :
    Store.pairs { s with dicts := s.dicts.setIfInBounds ref d } = s.pairs.set ref d.pairs := by
  simp [Store.pairs, List.map_set]

end Store

/-! ## Operations -/

namespace Op

variable (s : Store) (ref : Nat) {key value : Value} {h : HashKey} {e : Failure}

/-- A key that can be hashed. -/
theorem hash_ok (hkey : key.hash = .ok h) : hash key s = .ok h s := by
  rw [hash, hkey]
  rfl

/-- A key that cannot be hashed. -/
theorem hash_error (hkey : key.hash = .error e) : hash key s = .error e s := by
  rw [hash, hkey]
  rfl

theorem dictGet?_eq (hkey : key.hash = .ok h) :
    dictGet? ref key s = .ok ((s.dict ref).find? h) s :=
  bind_of_ok (hash_ok s hkey)

theorem dictSet_eq (hkey : key.hash = .ok h) :
    dictSet ref key value s =
      .ok () { s with dicts := s.dicts.setIfInBounds ref ((s.dict ref).set h key value) } :=
  bind_of_ok (hash_ok s hkey)

/-- What is taken out of a dict is what it has for the key. -/
theorem dictPop?_eq (hkey : key.hash = .ok h) :
    dictPop? ref key s = match (s.dict ref).remove? h with
      | some (v, d) => .ok (some v) { s with dicts := s.dicts.setIfInBounds ref d }
      | none => .ok none s := by
  have hdict : dict ref s = .ok (s.dict ref) s := rfl
  unfold dictPop?
  rw [bind_of_ok (hash_ok s hkey), bind_of_ok hdict]
  cases (s.dict ref).remove? h <;> rfl

/-- Deleting a key that is missing is an error. -/
theorem dictDelete_eq (hkey : key.hash = .ok h) :
    dictDelete ref key s = match (s.dict ref).remove? h with
      | some (_, d) => .ok () { s with dicts := s.dicts.setIfInBounds ref d }
      | none => .error (.raise .key (s.repr key)) s := by
  have hpop := dictPop?_eq s ref hkey
  unfold dictDelete
  cases hremove : (s.dict ref).remove? h with
  | none =>
      simp only [hremove] at hpop
      exact bind_of_ok hpop
  | some removed =>
      simp only [hremove] at hpop
      exact bind_of_ok hpop

/-- A default is only set for a key that is missing. -/
theorem dictSetDefault_eq (hkey : key.hash = .ok h) (fallback : Value) :
    dictSetDefault ref key fallback s = match (s.dict ref).find? h with
      | some v => .ok v s
      | none => .ok fallback
          { s with dicts := s.dicts.setIfInBounds ref ((s.dict ref).set h key fallback) } := by
  have hget := dictGet?_eq s ref hkey
  unfold dictSetDefault
  rw [bind_of_ok hget]
  cases (s.dict ref).find? h with
  | none => exact bind_of_ok (dictSet_eq s ref hkey)
  | some v => rfl

/-- Operations on a key fail on values that have none, and leave the store alone. -/
theorem dictGet?_error (hkey : key.hash = .error e) : dictGet? ref key s = .error e s :=
  bind_of_error (hash_error s hkey)

/-- A key that cannot be hashed changes nothing. -/
theorem dictSet_error (hkey : key.hash = .error e) : dictSet ref key value s = .error e s :=
  bind_of_error (hash_error s hkey)

theorem dictPop?_error (hkey : key.hash = .error e) : dictPop? ref key s = .error e s :=
  bind_of_error (hash_error s hkey)

end Op

/-! ## One command -/

namespace Pairs

/-- There is nothing to drop if the key is not there. -/
theorem remove_of_find?_eq_none {ps : Pairs} {key : Value} (h : ps.find? key = none) :
    ps.remove key = ps := by
  rw [find?, Option.map_eq_none_iff, List.find?_eq_none] at h
  exact List.filter_eq_self.mpr fun p hp => by simpa using h p hp

end Pairs

namespace DictCommand

variable {s s' : Store} {cmd : DictCommand} {r? : Option Value} {e : Failure}

/-- A command keeps the dicts of a store sound, and does to them what it does to pairs. -/
def Refines (cmd : DictCommand) (s : Store) : Prop :=
  (outcome cmd.run s).2.SoundDicts ∧
    cmd.spec s.repr s.nextId s.pairs = ((outcome cmd.run s).1, (outcome cmd.run s).2.pairs)

/-- A command that succeeds, and does what its specification says. -/
theorem refines_of_ok (hrun : cmd.run s = .ok r? s') (hsound : s'.SoundDicts)
    (hspec : cmd.spec s.repr s.nextId s.pairs = (.ok r?, s'.pairs)) : cmd.Refines s := by
  simp only [Refines, outcome, hrun]
  exact ⟨hsound, hspec⟩

/-- A command that fails, as its specification says. -/
theorem refines_of_error (hrun : cmd.run s = .error e s') (hsound : s'.SoundDicts)
    (hspec : cmd.spec s.repr s.nextId s.pairs = (.error e, s'.pairs)) : cmd.Refines s := by
  simp only [Refines, outcome, hrun]
  exact ⟨hsound, hspec⟩

/-- Removing a key from a sound dict and from its pairs. -/
theorem removal_cases (hs : s.SoundDicts) (ref : Nat) {key : Value} {h : HashKey}
    (hkey : key.hash = .ok h) :
    ((s.dict ref).remove? h = none ∧ (pairsAt s.pairs ref).find? key = none ∧
        (pairsAt s.pairs ref).remove key = pairsAt s.pairs ref) ∨
      ∃ v d, (s.dict ref).remove? h = some (v, d) ∧ d.Sound ∧
        (pairsAt s.pairs ref).find? key = some v ∧ d.pairs = (pairsAt s.pairs ref).remove key := by
  have heq := (hs.dict ref).remove?_eq hkey
  rw [Store.pairs_dict] at heq
  -- what is not found is not removed either
  cases hremove : (s.dict ref).remove? h with
  | none =>
      have hfind : (pairsAt s.pairs ref).find? key = none := by simpa [hremove] using heq
      exact Or.inl ⟨rfl, hfind, Pairs.remove_of_find?_eq_none hfind⟩
  | some removed =>
      obtain ⟨v, d⟩ := removed
      obtain ⟨w, hfind, rfl, hrest⟩ : ∃ w, (pairsAt s.pairs ref).find? key = some w ∧ w = v ∧
          (pairsAt s.pairs ref).remove key = d.pairs := by simpa [hremove] using heq.symm
      exact Or.inr ⟨w, d, rfl, (hs.dict ref).remove? hremove, hfind, hrest.symm⟩

/-- A key is looked up in the pairs. -/
theorem refines_get (hs : s.SoundDicts) (ref : Nat) (key : Value) :
    (get ref key).Refines s := by
  cases hkey : key.hash with
  | error e =>
      refine refines_of_error (Op.dictGet?_error s ref hkey) hs ?_
      simp [spec, keyed, hkey]
  | ok h =>
      refine refines_of_ok (Op.dictGet?_eq _ ref hkey) hs ?_
      simp [spec, keyed, hkey, (hs.dict ref).find?_eq hkey, Store.pairs_dict]

/-- A value replaces that of an equal key, or comes last. -/
theorem refines_set (hs : s.SoundDicts) (ref : Nat) (key value : Value) :
    (set ref key value).Refines s := by
  cases hkey : key.hash with
  | error e =>
      refine refines_of_error (bind_of_error (Op.dictSet_error s ref hkey)) hs ?_
      simp [spec, keyed, hkey]
  | ok h =>
      refine refines_of_ok (bind_of_ok (Op.dictSet_eq _ ref hkey))
        (hs.replace ((hs.dict ref).set hkey)) ?_
      rw [Store.pairs_replace, (hs.dict ref).pairs_set hkey, Store.pairs_dict]
      simp [spec, keyed, hkey]

/-- The same for a key that is made from a text. -/
theorem refines_setString (hs : s.SoundDicts) (ref : Nat) (name : String) (value : Value) :
    (setString ref name value).Refines s := by
  have hkey : (Value.str name s.nextId).hash = .ok (.str name) := rfl
  refine refines_of_ok ((bind_of_ok rfl).trans (bind_of_ok (Op.dictSet_eq _ ref hkey)))
    (hs.replace ((hs.dict ref).set hkey)) ?_
  have hset : ((s.dict ref).set (.str name) (.str name s.nextId) value).pairs = _ :=
    (hs.dict ref).pairs_set hkey
  rw [Store.pairs_dict] at hset
  rw [spec, ← hset]
  exact congrArg _ (Store.pairs_replace s ref _).symm

/-- What is taken out leaves the other pairs as they are. -/
theorem refines_pop (hs : s.SoundDicts) (ref : Nat) (key : Value) :
    (pop ref key).Refines s := by
  cases hkey : key.hash with
  | error e =>
      refine refines_of_error (Op.dictPop?_error s ref hkey) hs ?_
      simp [spec, keyed, hkey]
  | ok h =>
      have hpop := Op.dictPop?_eq s ref hkey
      rcases removal_cases hs ref hkey with ⟨hremove, hfind, hsame⟩ |
        ⟨v, d, hremove, hd, hfind, hrest⟩
      · rw [hremove] at hpop
        refine refines_of_ok hpop hs ?_
        simp [spec, keyed, hkey, hfind, hsame, Store.set_pairsAt]
      · rw [hremove] at hpop
        refine refines_of_ok hpop (hs.replace hd) ?_
        rw [Store.pairs_replace, hrest]
        simp [spec, keyed, hkey, hfind]

/-- The same when a missing key is an error. -/
theorem refines_delete (hs : s.SoundDicts) (ref : Nat) (key : Value) :
    (delete ref key).Refines s := by
  cases hkey : key.hash with
  | error e =>
      have hfailed := Op.dictPop?_error s ref hkey
      refine refines_of_error (bind_of_error (bind_of_error hfailed)) hs ?_
      simp [spec, keyed, hkey]
  | ok h =>
      have hdelete := Op.dictDelete_eq s ref hkey
      rcases removal_cases hs ref hkey with ⟨hremove, hfind, hsame⟩ |
        ⟨v, d, hremove, hd, hfind, hrest⟩
      · rw [hremove] at hdelete
        refine refines_of_error (bind_of_error hdelete) hs ?_
        simp [spec, keyed, hkey, hfind]
      · rw [hremove] at hdelete
        refine refines_of_ok (bind_of_ok hdelete) (hs.replace hd) ?_
        rw [Store.pairs_replace, hrest]
        simp [spec, keyed, hkey, hfind]

/-- A value is set only if there is none. -/
theorem refines_setDefault (hs : s.SoundDicts) (ref : Nat) (key fallback : Value) :
    (setDefault ref key fallback).Refines s := by
  cases hkey : key.hash with
  | error e =>
      have hfailed := Op.dictGet?_error s ref hkey
      refine refines_of_error (bind_of_error (bind_of_error hfailed)) hs ?_
      simp [spec, keyed, hkey]
  | ok h =>
      have hsetDefault := Op.dictSetDefault_eq s ref hkey fallback
      have hfind := (hs.dict ref).find?_eq hkey
      rw [Store.pairs_dict] at hfind
      cases hvalue : (s.dict ref).find? h with
      | some v =>
          rw [hvalue] at hsetDefault hfind
          refine refines_of_ok (bind_of_ok hsetDefault) hs ?_
          simp [spec, keyed, hkey, ← hfind]
      | none =>
          rw [hvalue] at hsetDefault hfind
          refine refines_of_ok (bind_of_ok hsetDefault) (hs.replace ((hs.dict ref).set hkey)) ?_
          rw [Store.pairs_replace, (hs.dict ref).pairs_set hkey, Store.pairs_dict]
          simp [spec, keyed, hkey, ← hfind]

/-- The pairs of one dict are set in a copy of another one. -/
theorem refines_union (hs : s.SoundDicts) (a b : Nat) :
    (union a b).Refines s := by
  have hb := (hs.dict b).hash_key
  have hmerged := (hs.dict a).pairs_setAll hb
  refine refines_of_ok rfl (hs.push ((hs.dict a).setAll hb)) ?_
  rw [spec, ← Store.pairs_dict, ← Store.pairs_dict, Store.length_pairs, Store.pairs_push]
  exact congrArg (fun ps => (_, s.pairs ++ [ps])) hmerged.symm

/-- Every command does to sound dicts what it does to pairs. -/
theorem refines (hs : s.SoundDicts) (cmd : DictCommand) : cmd.Refines s := by
  cases cmd with
  | new =>
      refine refines_of_ok rfl (hs.push .empty) ?_
      rw [spec, Store.length_pairs, Store.pairs_push]
      rfl
  | get ref key => exact refines_get hs ref key
  | set ref key value => exact refines_set hs ref key value
  | setString ref name value => exact refines_setString hs ref name value
  | pop ref key => exact refines_pop hs ref key
  | delete ref key => exact refines_delete hs ref key
  | clear ref =>
      refine refines_of_ok rfl (hs.replace .empty) ?_
      rw [spec, Store.pairs_replace]
      rfl
  | copy ref =>
      refine refines_of_ok rfl (hs.push (hs.dict ref)) ?_
      rw [spec, Store.length_pairs, Store.pairs_push, Store.pairs_dict]
  | setDefault ref key fallback => exact refines_setDefault hs ref key fallback
  | union a b => exact refines_union hs a b

end DictCommand

/-! ## What is seen of a dict -/

/-- The entries of a dict have distinct keys, and its index has each key exactly where its entry
stands. -/
structure Dict.Indexed (d : Dict) : Prop where
  distinct : ∀ (i j : Nat) (e e' : Entry), d.entries[i]? = some e → d.entries[j]? = some e' →
    i ≠ j → e.key.sameKey e'.key = false
  index : ∀ h i, d.index.find? h = some i ↔
    ∃ e h', d.entries[i]? = some e ∧ e.key.hash = .ok h' ∧ (h' == h) = true

/-- A sound dict finds what is in it. -/
theorem Dict.Sound.indexed {d : Dict} (hd : d.Sound) : d.Indexed := by
  constructor
  -- two entries of one hash would be at one position
  case distinct =>
    intro i j e e' hi hj hne
    have hkey := hd.hash_key e' (List.mem_of_getElem? hj)
    rw [hd.sameKey_eq hkey (List.mem_of_getElem? hi)]
    by_contra hbeq
    have he : (e.hash == e'.hash) = true := by simpa using hbeq
    exact hne (hd.position_eq hi hj he (BEq.trans (BEq.symm he) he))
  case index =>
    intro h i
    rw [hd.locates]
    constructor
    · rintro ⟨e, hi, he⟩
      exact ⟨e, e.hash, hi, hd.hash_key e (List.mem_of_getElem? hi), he⟩
    · rintro ⟨e, h', hi, hkey, he⟩
      have hhash := hd.hash_key e (List.mem_of_getElem? hi)
      obtain rfl : e.hash = h' := Except.ok.inj (hhash.symm.trans hkey)
      exact ⟨e, hi, he⟩

/-- A dict that shows the keys and values of a list in its order: by its length, by membership, in
new lists of its keys, values and pairs, and in iteration, which fails if the length has changed. -/
structure Shows (s : Store) (ref : Nat) (ps : Pairs) : Prop where
  length : Op.length (.dict ref) s = .ok (Int64.ofNat ps.length) s
  contains : ∀ (call : Callback) (fuel : Nat) (key : Value) (h : HashKey) (w : World),
    w.store = s → key.hash = .ok h →
      Exec.contains call fuel (.dict ref) key w = .ok (ps.find? key).isSome w
  keys : Op.dictKeys ref s =
    .ok (.list s.lists.size) { s with lists := s.lists.push (ps.map (·.1)) }
  values : Op.dictValues ref s =
    .ok (.list s.lists.size) { s with lists := s.lists.push (ps.map (·.2)) }
  items : Op.dictItems ref s = .ok (.list s.lists.size)
    { s with
      lists := s.lists.push ((ps.zipIdx s.nextId).map fun (p, id) => .tuple [p.1, p.2] id)
      nextId := s.nextId + ps.length }
  iterate : Op.cursorOf (.dict ref) s = .ok s.iterators.size
    { s with iterators := s.iterators.push { cursor := .keys ref 0 ps.length } }
  advance : ∀ it i : Nat, Op.advance it (.keys ref i ps.length) s = match ps[i]? with
    | some p => (do Op.setCursor it (.keys ref (i + 1) ps.length); return some p.1 : Op _) s
    | none => .ok none s
  changed : ∀ it i size : Nat, size ≠ ps.length → Op.advance it (.keys ref i size) s =
    .error (.raise .value "dictionary changed size during iteration") s

/-- Making a tuple of each pair. -/
theorem mapM_newTuple (es : List Entry) (s : Store) :
    es.mapM (fun e => Op.newTuple [e.key, e.value]) s = .ok
      (((es.map Entry.pair).zipIdx s.nextId).map fun (p, id) => .tuple [p.1, p.2] id)
      { s with nextId := s.nextId + es.length } := by
  induction es generalizing s with
  | nil => rfl
  | cons e es ih =>
      have hfirst : Op.newTuple [e.key, e.value] s =
        .ok (.tuple [e.key, e.value] s.nextId) { s with nextId := s.nextId + 1 } := rfl
      rw [List.mapM_cons, bind_of_ok hfirst, bind_of_ok (ih _)]
      simp only [List.map_cons, List.zipIdx_cons, List.length_cons, Entry.pair, Nat.add_assoc,
        Nat.add_comm 1]
      rfl

/-- Advancing an iterator over the keys of a dict. -/
theorem advance_keys (s : Store) (ref it i size : Nat) :
    Op.advance it (.keys ref i size) s =
      if (s.entries ref).length ≠ size then
        .error (.raise .value "dictionary changed size during iteration") s
      else match (s.entries ref)[i]? with
        | some e => (do Op.setCursor it (.keys ref (i + 1) size); return some e.key : Op _) s
        | none => .ok none s := by
  have hentries : Op.entries ref s = .ok (s.entries ref) s := rfl
  rw [Op.advance, bind_of_ok hentries]
  by_cases hsize : (s.entries ref).length ≠ size
  · rw [if_pos hsize, if_pos hsize]
    rfl
  · rw [if_neg hsize, if_neg hsize]
    cases (s.entries ref)[i]? <;> rfl

/-- A sound dict shows its pairs. -/
theorem Store.SoundDicts.shows {s : Store} (hs : s.SoundDicts) (ref : Nat) :
    Shows s ref (pairsAt s.pairs ref) := by
  rw [← Store.pairs_dict]
  have hlength : (s.dict ref).pairs.length = (s.dict ref).entries.length := List.length_map _
  have hsize : (s.dict ref).size = (s.dict ref).pairs.length := hlength.symm
  constructor
  case length => exact congrArg (fun n => EStateM.Result.ok (Int64.ofNat n) s) hsize
  -- membership is a lookup by the hash of the key
  case contains =>
    rintro call fuel key h w rfl hkey
    rw [← (hs.dict ref).find?_eq hkey]
    have hget : (Op.dictGet? ref key : Exec _) w = .ok ((w.store.dict ref).find? h) w := by
      show Exec.lift (Op.dictGet? ref key) w = _
      simp only [Exec.lift, Op.dictGet?_eq _ ref hkey]
    exact bind_of_ok hget
  case keys =>
    show EStateM.Result.ok _ _ = _
    simp [Dict.pairs, Entry.pair, Function.comp_def, Store.entries]
  case values =>
    show EStateM.Result.ok _ _ = _
    simp [Dict.pairs, Entry.pair, Function.comp_def, Store.entries]
  -- each item is a fresh tuple of a key and its value
  case items =>
    have hentries : Op.entries ref s = .ok (s.entries ref) s := rfl
    unfold Op.dictItems
    rw [bind_of_ok hentries, bind_of_ok (mapM_newTuple _ s), hlength]
    rfl
  case iterate =>
    rw [← hsize]
    rfl
  case advance =>
    intro it i
    have hkept : ¬ (s.entries ref).length ≠ (s.dict ref).pairs.length :=
      not_not_intro hlength.symm
    rw [advance_keys, if_neg hkept, Dict.pairs, List.getElem?_map]
    cases hget : (s.dict ref).entries[i]? <;> simp [Store.entries, hget, Entry.pair]
  case changed =>
    intro it i size hne
    rw [advance_keys, if_pos]
    rw [hlength] at hne
    exact hne.symm

end Wordcode
