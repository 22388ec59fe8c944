import Wordcode.Proofs.Coupling
import Wordcode.Proofs.Distribution
import Mathlib

namespace Wordcode

/-! # Keyword arguments

Keyword arguments come to a call as entries, whose keys are strings. It does not matter which
strings these are as long as they spell the same names: a function, a method or a builtin does the
same. Only `dict` and `dict.update` keep the strings, as keys of the dict that they merge the
arguments into.

* `Dict.Alike` are dicts that are the same but for the strings that are keys.
* `Machine.invoke_congr` is about what does not merge.
* `Machine.invoke_of_merges` separates the keyword arguments from what comes before.
-/

/-! ## Entries that say the same -/

/-- Two entries that are the same, or that file the same value under the same string. -/
def Entry.Alike (e e' : Entry) : Prop := e' = e ∨ ∃ name v, e.Files name v ∧ e'.Files name v

/-- Two dicts that are the same but for the identities of strings that are keys. -/
structure Dict.Alike (d d' : Dict) : Prop where
  index_eq : d'.index = d.index
  entries : List.Forall₂ Entry.Alike d.entries d'.entries

namespace Dict

variable {d d' : Dict} {e e' : Entry} {es es' : List Entry} {name : String} {v : Value}
  {passed : Bindings}

/-- The same change to corresponding entries. -/
theorem forall₂_modify {α : Type} {R : α → α → Prop} {g : α → α} {as as' : List α}
    (h : List.Forall₂ R as as') (hg : ∀ a a', R a a' → R (g a) (g a')) (i : Nat) :
    List.Forall₂ R (as.modify i g) (as'.modify i g) := by
  induction h generalizing i with
  | nil => simp
  | cons hfirst hrest ih =>
      cases i with
      | zero => exact .cons (hg _ _ hfirst) hrest
      | succ i => exact .cons hfirst (ih i)

/-- A dict says the same as itself. -/
theorem Alike.refl (d : Dict) : d.Alike d := ⟨rfl, List.forall₂_same.mpr fun _ _ => Or.inl rfl⟩

/-- The same value under the same string. -/
theorem Alike.set (h : d.Alike d') (he : e.Files name v) (he' : e'.Files name v) :
    (d.set e.hash e.key e.value).Alike (d'.set e'.hash e'.key e'.value) := by
  have hhash : e'.hash = e.hash := he'.1.trans he.1.symm
  have hvalue : e'.value = e.value := he'.2.2.trans he.2.2.symm
  unfold Dict.set
  rw [hhash, hvalue, h.index_eq]
  -- the entry takes the place of an old one, whose key stays, or comes last
  cases d.index.find? e.hash with
  | some i =>
      refine ⟨rfl, forall₂_modify h.entries (fun old old' hold => ?_) i⟩
      rcases hold with rfl | ⟨name, _, hold, hold'⟩
      · exact Or.inl rfl
      · exact Or.inr ⟨name, e.value, ⟨hold.1, hold.2.1, rfl⟩, ⟨hold'.1, hold'.2.1, rfl⟩⟩
  | none =>
      have hsize : d'.size = d.size := h.entries.length_eq.symm
      refine ⟨by simp only [hsize], ?_⟩
      refine List.rel_append h.entries (.cons (Or.inr ⟨name, v, ?_, ?_⟩) .nil)
      · exact ⟨he.1, he.2.1, he.2.2⟩
      · exact ⟨he.1, he'.2.1, he.2.2⟩

/-- Dicts that say the same still do after entries that say the same have been set. -/
theorem Alike.setAll (h : d.Alike d') (hes : Entry.FileAll es passed)
    (hes' : Entry.FileAll es' passed) : (d.setAll es).Alike (d'.setAll es') := by
  induction hes generalizing d d' es' with
  | nil =>
      cases hes'
      exact h
  | cons he _ ih =>
      cases hes' with
      | cons he' hes' =>
          have hrest := ih (h.set he he') hes'
          exact hrest

end Dict

/-- Two worlds that are the same but for the strings that are keys of dicts. -/
structure World.AlikeButKeys (w w' : World) : Prop where
  rest : w' = { w with store := { w.store with dicts := w'.store.dicts } }
  dicts : ∀ ref, (w.store.dict ref).Alike (w'.store.dict ref)

/-- The world in which entries have been merged into a dict. -/
def World.merged (w : World) (ref : Nat) (entries : List Entry) : World :=
  { w with store := { w.store with
    dicts := w.store.dicts.setIfInBounds ref ((w.store.dict ref).setAll entries) } }

namespace World

variable {w : World} {ref : Nat} {es es' : List Entry} {passed : Bindings}

/-- A world is like itself. -/
theorem AlikeButKeys.refl (w : World) : w.AlikeButKeys w := ⟨rfl, fun _ => .refl _⟩

/-- Only the dict that is merged into changes. -/
theorem dict_merged (w : World) (ref other : Nat) (es : List Entry) :
    (w.merged ref es).store.dict other =
      if ref = other ∧ ref < w.store.dicts.size then (w.store.dict ref).setAll es
      else w.store.dict other := by
  have hdict : (w.merged ref es).store.dict other =
      (w.store.dicts.setIfInBounds ref ((w.store.dict ref).setAll es)).getD other {} := rfl
  rw [hdict, Array.getD_eq_getD_getElem?, Array.getElem?_setIfInBounds]
  by_cases hother : ref = other
  · subst hother
    by_cases hbound : ref < w.store.dicts.size
    · simp [hbound]
    · simp [Store.dict, hbound]
  · simp [Store.dict, hother]

/-- Merging nothing. -/
theorem merged_nil (w : World) (ref : Nat) : w.merged ref [] = w := by
  have hsame : w.store.dicts.setIfInBounds ref (w.store.dict ref) = w.store.dicts := by
    apply Array.ext_getElem?
    intro i
    rw [Array.getElem?_setIfInBounds]
    split
    · next h =>
        subst h
        split
        · next hbound => simp [Store.dict, hbound]
        · next hbound => simp [hbound]
    · rfl
  have hmerged : w.merged ref [] = { w with store := { w.store with
      dicts := w.store.dicts.setIfInBounds ref (w.store.dict ref) } } := rfl
  rw [hmerged, hsame]

/-- Merging entries that say the same into one dict. -/
theorem alikeButKeys_merged (w : World) (ref : Nat) (hes : Entry.FileAll es passed)
    (hes' : Entry.FileAll es' passed) : (w.merged ref es).AlikeButKeys (w.merged ref es') := by
  refine ⟨rfl, fun other => ?_⟩
  rw [dict_merged, dict_merged]
  split
  · exact (Dict.Alike.refl _).setAll hes hes'
  · exact .refl _

end World

/-! ## Calls that do not merge -/

/-- Whether a value merges keyword arguments into a dict when it is called. -/
def Value.merges : Value → Bool
  | .builtin .dict | .method (.dict _) (.dict .update) _ => true
  | _ => false

section

variable {es es' : List Entry} {passed : Bindings}

/-- Entries for names are found by these names. -/
theorem Entry.FileAll.map_hash (hes : Entry.FileAll es passed) :
    es.map (·.hash) = (passed.map Prod.fst).map HashKey.str := by
  induction hes with
  | nil => rfl
  | cons he _ ih => simp only [List.map_cons, ih, he.1]

/-- A pass over entries that only looks at what they file. -/
theorem Entry.FileAll.mapM_congr {β : Type} {g : Entry → Exec β} (hes : Entry.FileAll es passed)
    (hes' : Entry.FileAll es' passed)
    (hg : ∀ e e' name v, Entry.Files e name v → Entry.Files e' name v → g e = g e') :
    es.mapM g = es'.mapM g := by
  induction hes generalizing es' with
  | nil =>
      cases hes'
      rfl
  | cons he _ ih =>
      cases hes' with
      | cons he' hes' => rw [List.mapM_cons, List.mapM_cons, hg _ _ _ _ he he', ih hes']

/-- Going through entries gives the same, if each step depends only on what the entry says. -/
theorem Entry.FileAll.foldlM_congr {β : Type} {g : β → Entry → Exec β}
    (hes : Entry.FileAll es passed) (hes' : Entry.FileAll es' passed)
    (hg : ∀ b e e' name v, Entry.Files e name v → Entry.Files e' name v → g b e = g b e') (b : β) :
    es.foldlM g b = es'.foldlM g b := by
  induction hes generalizing es' b with
  | nil =>
      cases hes'
      rfl
  | cons he _ ih =>
      cases hes' with
      | cons he' hes' =>
          rw [List.foldlM_cons, List.foldlM_cons, hg _ _ _ _ _ he he']
          exact bind_congr fun b => ih hes' b

variable (hes : Entry.FileAll es passed) (hes' : Entry.FileAll es' passed)
include hes hes'

theorem Entry.FileAll.length_congr : es.length = es'.length :=
  hes.length_eq.symm.trans hes'.length_eq

theorem Entry.FileAll.isEmpty_congr : es.isEmpty = es'.isEmpty := by
  have hlength := hes.length_congr hes'
  cases es <;> cases es' <;> simp_all

/-- Binding depends only on what the entries say. -/
theorem Call.bind_congr (c : Closure) (args : List Value) :
    Call.bind ⟨c, args, es⟩ = Call.bind ⟨c, args, es'⟩ := by
  have hnamed : Call.namedArguments ⟨c, args, es⟩ = Call.namedArguments ⟨c, args, es'⟩ :=
    (Call.namedArguments_eq (c := ⟨c, args, es⟩) hes).trans
      (Call.namedArguments_eq (c := ⟨c, args, es'⟩) hes').symm
  have hplan : Call.plan ⟨c, args, es⟩ = Call.plan ⟨c, args, es'⟩ := by
    unfold Call.plan
    rw [hnamed]
    rfl
  unfold Call.bind
  rw [hplan]

/-- So does reading the keywords of a builtin. -/
theorem Exec.readKeywords_congr (b : Builtin) : readKeywords b es = readKeywords b es' := by
  refine hes.mapM_congr hes' ?_
  rintro e e' name v ⟨-, ⟨id, hkey⟩, hvalue⟩ ⟨-, ⟨id', hkey'⟩, hvalue'⟩
  rw [hkey, hkey', hvalue, hvalue']

/-- So does reading sorting options. -/
theorem Exec.sortOptions_congr (name : String) : sortOptions name es = sortOptions name es' := by
  refine hes.foldlM_congr hes' ?_ _
  rintro options e e' name v ⟨-, ⟨id, hkey⟩, hvalue⟩ ⟨-, ⟨id', hkey'⟩, hvalue'⟩
  have htext (s : String) (id : Nat) : (Value.str s id).str? = some s := rfl
  have hrepr : Op.repr (.str name id) = Op.repr (.str name id') := by
    have hin (s : Store) : s.repr (.str name id) = s.repr (.str name id') := by
      unfold Store.repr
      cases s.size <;> rfl
    simp only [Op.repr, hin]
  rw [hkey, hkey', hvalue, hvalue', htext, htext, hrepr]

/-- So do `min` and `max`. -/
theorem Exec.extreme_congr (call : Callback) (fuel : Nat) (b : Builtin)
    (better : Option Value → Option Value → Exec Bool) (args : List Value) :
    extreme call fuel b better args es = extreme call fuel b better args es' := by
  unfold extreme
  rw [readKeywords_congr hes hes']

/-- So do all builtins but `dict`, which keeps the entries. -/
theorem Exec.callBuiltin_congr (call : Callback) (fuel : Nat) {b : Builtin} (hb : b ≠ .dict)
    (args : List Value) : callBuiltin call fuel b args es = callBuiltin call fuel b args es' := by
  have hrun : runBuiltin call fuel b args es = runBuiltin call fuel b args es' := by
    cases b with
    | dict => exact absurd rfl hb
    | enumerate | print => simp only [runBuiltin, readKeywords_congr hes hes']
    | sorted => simp only [runBuiltin, sortOptions_congr hes hes']
    | max | min => simp only [runBuiltin, extreme_congr hes hes']
    | _ => rfl
  unfold callBuiltin
  rw [hrun, hes.isEmpty_congr hes']

/-- So do all methods but those that merge. -/
theorem Exec.callMethod_congr (call : Callback) (fuel : Nat) {receiver : Value} {method : Method}
    {id : Nat} (hmerges : (Value.method receiver method id).merges = false) (args : List Value) :
    callMethod call fuel receiver method args es =
      callMethod call fuel receiver method args es' := by
  -- of all methods only `sort` and `update` look into the keywords
  have hsort (ref : Nat) (method : ListMethod) :
      listMethod call fuel ref method args es = listMethod call fuel ref method args es' := by
    cases method with
    | sort => simp only [listMethod, sortOptions_congr hes hes']
    | _ => rfl
  have hdict (ref : Nat) {dictMethod' : DictMethod} (hupdate : dictMethod' ≠ .update) :
      dictMethod call fuel ref dictMethod' args es =
        dictMethod call fuel ref dictMethod' args es' := by
    cases dictMethod' with
    | update => exact absurd rfl hupdate
    | _ => rfl
  unfold callMethod
  rw [hes.isEmpty_congr hes']
  split
  · rfl
  · rw [hsort]
  · rw [hdict]
    rintro rfl
    cases hmerges
  · rfl
  · rfl

/-- So do functions. -/
theorem Machine.callFunction_congr (m : Machine) (s : Surroundings) (c : Closure)
    (args : List Value) :
    m.callFunction s ⟨c, args, es⟩ = m.callFunction s ⟨c, args, es'⟩ := by
  have hannounce (depth : Nat) :
      m.announce ⟨c, args, es⟩ depth = m.announce ⟨c, args, es'⟩ depth := by
    unfold announce
    rw [hes.length_congr hes']
  have hopen : m.openFrame ⟨c, args, es⟩ = m.openFrame ⟨c, args, es'⟩ := by
    unfold openFrame Call.makeScope
    simp only [Call.bind_congr hes hes', hannounce]
    rfl
  unfold callFunction
  rw [hopen]
  rfl

/-- What does not merge keyword arguments does the same with any strings that spell their names. -/
theorem Machine.invoke_congr (m : Machine) (fuel : Nat) {f : Value} (hhost : ∀ h, f ≠ .host h)
    (hmerges : f.merges = false) (args : List Value) :
    m.invoke fuel f args es = m.invoke fuel f args es' := by
  cases fuel with
  | zero => rfl
  | succ fuel =>
      unfold invoke answer
      -- what kind of callee it is does not depend on the keywords
      cases f with
      | function ref =>
          exact bind_congr fun c =>
            congrArg (some <$> ·) (callFunction_congr hes hes' m _ c args)
      | method receiver method id =>
          exact congrArg (some <$> ·) (Exec.callMethod_congr hes hes' _ _ hmerges args)
      | builtin b =>
          have hb : b ≠ .dict := by
            rintro rfl
            cases hmerges
          exact congrArg (some <$> ·) (Exec.callBuiltin_congr hes hes' _ _ hb args)
      | host h => exact absurd rfl (hhost h)
      | _ => rfl

end

/-! ## Calls that merge -/

/-- The dict that a call has merged its keyword arguments into, given its result. -/
def Value.mergedInto? : Value → Value → Option Nat
  | .builtin .dict, .dict ref => some ref
  | .method (.dict ref) (.dict .update) _, _ => some ref
  | _, _ => Option.none

/-- Keyword arguments are merged at the end. -/
theorem Exec.merge_cases (call : Callback) (fuel ref : Nat) (args : List Value) (w : World) :
    (∃ e w', ∀ es, merge call fuel ref args es w = .error e w') ∨
      ∃ w' : World, ∀ es, merge call fuel ref args es w = .ok () (w'.merged ref es) := by
  cases args with
  | nil => exact Or.inr ⟨w, fun es => rfl⟩
  | cons other args =>
      cases hupdate : update call fuel ref other w with
      | ok a w' => exact Or.inr ⟨w', fun es => bind_of_ok hupdate⟩
      | error e w' => exact Or.inl ⟨e, w', fun es => bind_of_error hupdate⟩

/-- Making a dict fails before the entries are looked at, or merges them. -/
theorem Exec.callBuiltin_dict_cases (call : Callback) (fuel : Nat) (args : List Value)
    (w : World) :
    (∃ e w', ∀ es, callBuiltin call fuel .dict args es w = .error e w') ∨
      ∃ (ref : Nat) (w' : World),
        ∀ es, callBuiltin call fuel .dict args es w = .ok (.dict ref) (w'.merged ref es) := by
  have hcall (es : List Entry) : callBuiltin call fuel .dict args es =
      checkArity .dict args.length >>= fun _ => runBuiltin call fuel .dict args es := rfl
  -- the keywords are merged last, once nothing can fail any more
  cases harity : checkArity .dict args.length w with
  | error e w' =>
      refine Or.inl ⟨e, w', fun es => ?_⟩
      rw [hcall]
      exact bind_of_error harity
  | ok a w₀ =>
      let ref := w₀.store.dicts.size
      let w₁ : World := { w₀ with store := { w₀.store with dicts := w₀.store.dicts.push {} } }
      have hrun (es : List Entry) : runBuiltin call fuel .dict args es w₀ =
          (merge call fuel ref args es >>= fun _ => pure (.dict ref)) w₁ := rfl
      rcases merge_cases call fuel ref args w₁ with ⟨e, w', hmerge⟩ | ⟨w', hmerge⟩
      · refine Or.inl ⟨e, w', fun es => ?_⟩
        rw [hcall, bind_of_ok harity, hrun]
        exact bind_of_error (hmerge es)
      · refine Or.inr ⟨ref, w', fun es => ?_⟩
        rw [hcall, bind_of_ok harity, hrun]
        exact bind_of_ok (hmerge es)

/-- `dict.update` takes only one mapping or iterable. -/
theorem Exec.callMethod_update (call : Callback) (fuel ref : Nat) (args : List Value)
    (es : List Entry) :
    callMethod call fuel (.dict ref) (.dict .update) args es =
      if 1 < args.length then
        typeError (argumentCountText (Method.dict .update).fullName 0 1 args.length)
      else dictMethod call fuel ref .update args es := by
  have hlow : (Method.dict .update).signature.required.length = 0 := rfl
  have hhigh : (Method.dict .update).signature.parameters.length = 1 := rfl
  have htakes : (Method.dict .update).signature.takesKeywords = true := rfl
  unfold callMethod
  simp only [hlow, hhigh, htakes]
  by_cases hmany : 1 < args.length
  · rw [if_pos (by simp [hmany]), if_pos hmany]
    rfl
  · simp [hmany]

/-- Updating a dict does, too. -/
theorem Exec.callMethod_update_cases (call : Callback) (fuel ref : Nat) (args : List Value)
    (w : World) :
    (∃ e w', ∀ es, callMethod call fuel (.dict ref) (.dict .update) args es w = .error e w') ∨
      ∃ w' : World, ∀ es, callMethod call fuel (.dict ref) (.dict .update) args es w =
        .ok .none (w'.merged ref es) := by
  -- the arity is checked before any keyword is looked at
  by_cases hmany : 1 < args.length
  · let tooMany := argumentCountText (Method.dict .update).fullName 0 1 args.length
    refine Or.inl ⟨.raise .type tooMany, w, fun es => ?_⟩
    rw [callMethod_update, if_pos hmany]
    rfl
  · have hmethod (es : List Entry) : callMethod call fuel (.dict ref) (.dict .update) args es w =
        (merge call fuel ref args es >>= fun _ => pure .none) w := by
      rw [callMethod_update, if_neg hmany]
      rfl
    rcases merge_cases call fuel ref args w with ⟨e, w', hmerge⟩ | ⟨w', hmerge⟩
    · exact Or.inl ⟨e, w', fun es => (hmethod es).trans (bind_of_error (hmerge es))⟩
    · exact Or.inr ⟨w', fun es => (hmethod es).trans (bind_of_ok (hmerge es))⟩

/-- A call that merges keyword arguments does so at the end. Before that they play no part. -/
theorem Machine.invoke_of_merges (m : Machine) (fuel : Nat) {f : Value} (hmerges : f.merges = true)
    (args : List Value) (w : World) :
    (∃ e w', ∀ es, m.invoke fuel f args es w = .error e w') ∨
      ∃ (v : Value) (ref : Nat) (w' : World), f.mergedInto? v = some ref ∧
        ∀ es, m.invoke fuel f args es w = .ok (some v) (w'.merged ref es) := by
  cases fuel with
  | zero => exact Or.inl ⟨.exhausted, w, fun _ => rfl⟩
  | succ fuel =>
      -- the two callees that merge are `dict` and a dict's `update`
      unfold Value.merges at hmerges
      let call := Surroundings.callback ⟨m.invoke fuel, fuel⟩
      split at hmerges
      · rcases Exec.callBuiltin_dict_cases call fuel args w with
          ⟨e, w', hcall⟩ | ⟨ref, w', hcall⟩
        · exact Or.inl ⟨e, w', fun es => bind_of_error (hcall es)⟩
        · exact Or.inr ⟨.dict ref, ref, w', rfl, fun es => bind_of_ok (hcall es)⟩
      · next ref id =>
        rcases Exec.callMethod_update_cases call fuel ref args w with
          ⟨e, w', hcall⟩ | ⟨w', hcall⟩
        · exact Or.inl ⟨e, w', fun es => bind_of_error (hcall es)⟩
        · exact Or.inr ⟨.none, ref, w', rfl, fun es => bind_of_ok (hcall es)⟩
      · cases hmerges

end Wordcode
