import Wordcode.Proofs.Ledger
import Mathlib

namespace Wordcode

/-! # What ledgers preserve

Two states of a run, the second one covered by a later ledger, have the same functions, and the same
scopes where these are kept.

* `Ledger.closing` keeps all scopes that there are. Data other than frames is known to it as before.
* `Ledger.Extends.closure_eq` and `Ledger.Extends.scope_eq` say what the two states have in common.
* `World.Starts.covers` is the ledger with which a run starts.
-/

/-! ## Ledgers of worlds -/

/-- Data without references to scopes: all data but frames. -/
class Scopeless (α : Type) [HasReferences α] : Prop where
  not_occurs : ∀ (scope : Nat) (a : α), ¬Occurs (.scope scope) a

section

variable {α β : Type} [HasReferences α] [HasReferences β] [Scopeless α] [Scopeless β]

instance {γ : Type} [Inert γ] : Scopeless γ := ⟨fun _ _ h => h⟩

instance : Scopeless Value where
  not_occurs scope v h := by
    change Value.Occurs (.scope scope) v at h
    generalize hr : Reference.scope scope = r at h
    induction h with
    | dict => cases hr
    | item _ _ ih | start _ ih | stop _ ih | step _ ih | receiver _ ih => exact ih hr

instance : Scopeless (List α) := ⟨fun scope _ ⟨a, _, h⟩ => Scopeless.not_occurs scope a h⟩
instance : Scopeless (Array α) := ⟨fun scope _ ⟨a, _, h⟩ => Scopeless.not_occurs scope a h⟩
instance : Scopeless (Option α) := ⟨fun scope _ ⟨a, _, h⟩ => Scopeless.not_occurs scope a h⟩
instance : Scopeless (α × β) where
  not_occurs scope _ h := h.elim (Scopeless.not_occurs scope _) (Scopeless.not_occurs scope _)
instance : Scopeless Entry where
  not_occurs scope _ h := h.elim (Scopeless.not_occurs scope _) (Scopeless.not_occurs scope _)
instance : Scopeless Dict := ⟨fun scope d h => Scopeless.not_occurs scope d.entries h⟩

instance : Scopeless Cursor where
  not_occurs scope cursor h := by
    cases cursor with
    | items _ rest => exact Scopeless.not_occurs scope rest h
    | map f _ => exact Scopeless.not_occurs scope f h
    | filter f? _ => exact Scopeless.not_occurs scope f? h
    | chars | list | range | keys | enumerate | zip => exact h

instance : Scopeless Iteration := ⟨fun scope it h => Scopeless.not_occurs scope it.cursor h⟩
instance : Scopeless Block := ⟨fun scope b h => Scopeless.not_occurs scope b.rest h⟩
instance : Scopeless Function := ⟨fun scope f h => Scopeless.not_occurs scope f.defaults h⟩

instance : Scopeless Store where
  not_occurs scope s := by
    rintro (h | h | h | h | h | h)
    all_goals exact Scopeless.not_occurs scope _ h

instance : Scopeless Loaded := ⟨fun scope l h => Scopeless.not_occurs scope l.constants h⟩

instance : Scopeless World where
  not_occurs scope w := by
    rintro (h | h | h | h)
    all_goals exact Scopeless.not_occurs scope _ h

end

namespace Ledger

/-- The ledger that keeps all scopes of a store. -/
def closing (S : Ledger) {s : Store} (h : S.Keeps s) : Ledger where
  dicts := S.dicts
  scopes := s.scopes.toList.map some
  functions := S.functions
  builtins := S.builtins
  kept f hf := by
    obtain ⟨hd, vs, hvs⟩ := S.kept f hf
    have hlt : f.snapshot < s.scopes.size := h.scopeCount ▸ (List.getElem?_eq_some_iff.mp hvs).1
    exact ⟨hd, s.scopes[f.snapshot], by simp [hlt]⟩

/-- Only frames care which scopes may change. -/
theorem known_closing {S : Ledger} {s : Store} (hs : S.Keeps s) {α : Type} [HasReferences α]
    [Scopeless α] {a : α} (h : Known S a) : Known (S.closing hs) a := by
  rintro (ref | scope) hr
  · exact h _ hr
  · exact absurd hr (Scopeless.not_occurs scope a)

theorem kept_closing {S : Ledger} {s : Store} (hs : S.Keeps s) {ref : Nat}
    (href : ref < s.scopes.size) : (S.closing hs).Kept (.scope ref) :=
  ⟨s.scopes[ref], by simp [closing, href]⟩

theorem Covers.closing {S : Ledger} {w : World} (h : S.Covers w) :
    (S.closing h.keeps).Covers w where
  known := known_closing h.keeps h.known
  keeps := {
    dictCount := h.keeps.dictCount
    dict := h.keeps.dict
    scopeCount := by simp [Ledger.closing]
    scope := by
      intro ref vs hvs
      simp only [Ledger.closing, List.getElem?_map, Option.map_eq_some_iff] at hvs
      obtain ⟨_, hget, ⟨⟩⟩ := hvs
      rw [Array.getElem?_toList] at hget
      simp [Store.scope, Array.getD_eq_getD_getElem?, hget]
    functions := h.keeps.functions }
  builtins := h.builtins

/-- What two states have in common if the ledger of one extends that of the other. -/
theorem Extends.closure_eq {S T : Ledger} (h : S.Extends T) {s s' : Store} (hs : S.Keeps s)
    (hs' : T.Keeps s') {ref : Nat} (href : ref < s.functions.size) :
    s'.closure ref = s.closure ref := by
  have hfunction : s'.function ref = s.function ref := by
    have hget : S.functions[ref]? = some s.functions[ref] := by simp [← hs.functions, href]
    have hget' : s'.functions[ref]? = some s.functions[ref] := by
      rw [← Array.getElem?_toList, hs'.functions]
      exact getElem?_of_isPrefix h.functions hget
    simp [Store.function, Array.getD_eq_getD_getElem?, hget', href]
  have hmem : s.function ref ∈ S.functions := by
    simp [← hs.functions, Store.function, Array.getD_eq_getD_getElem?, href]
  obtain ⟨⟨d, hd⟩, vs, hvs⟩ := S.kept _ hmem
  rw [Store.closure, Store.closure, hfunction]
  dsimp only [Store.entries]
  rw [hs.dict hd, hs'.dict (getElem?_of_isPrefix h.dicts hd), hs.scope hvs,
    hs'.scope (getElem?_of_isPrefix h.scopes hvs)]

/-- Scopes that are kept are the same in both. -/
theorem Extends.scope_eq {S T : Ledger} (h : S.Extends T) {s s' : Store} (hs : S.Keeps s)
    (hs' : T.Keeps s') {ref : Nat} (href : S.Kept (.scope ref)) : s'.scope ref = s.scope ref := by
  obtain ⟨vs, hvs⟩ := href
  rw [hs.scope hvs, hs'.scope (getElem?_of_isPrefix h.scopes hvs)]

end Ledger

/-! ## Starting -/

/-- A world in which a machine may start. It has the dicts that it refers to, and nothing refers to
what belongs to a function. -/
structure World.Starts (w : World) : Prop where
  given : ∀ {ref : Nat}, Occurs (.dict ref) w → ref < w.store.dicts.size
  own : ∀ f ∈ w.store.functions, f.keywordDefaults < w.store.dicts.size ∧
    f.snapshot < w.store.scopes.size ∧ ¬Occurs (.dict f.keywordDefaults) w

/-- A machine may start without dicts and functions. -/
theorem World.Starts.of_known {w : World} (h : ∀ S, Known S w)
    (hfunctions : w.store.functions = #[]) : w.Starts where
  given {ref} hoccurs := by
    have hopen := h ⟨[], [], [], [], nofun⟩ _ hoccurs
    cases hopen
  own f hf := by simp [hfunctions] at hf

/-- The ledger with which a run starts keeps the dicts of functions, and leaves all others open. -/
def World.Starts.ledger {w : World} (h : w.Starts) : Ledger where
  dicts := w.store.dicts.toList.mapIdx fun i d =>
    if i ∈ w.store.functions.toList.map (·.keywordDefaults) then some d else none
  scopes := w.store.scopes.toList.map some
  functions := w.store.functions.toList
  builtins := w.builtins
  kept f hf := by
    obtain ⟨hdict, hscope, -⟩ := h.own f (Array.mem_toList_iff.mp hf)
    refine ⟨⟨w.store.dicts[f.keywordDefaults], ?_⟩, w.store.scopes[f.snapshot], by simp [hscope]⟩
    have hmem : f.keywordDefaults ∈ w.store.functions.toList.map (·.keywordDefaults) :=
      List.mem_map_of_mem hf
    rw [List.getElem?_mapIdx, Array.getElem?_toList, Array.getElem?_eq_getElem hdict,
      Option.map_some, if_pos hmem]

theorem World.Starts.keeps {w : World} (h : w.Starts) : h.ledger.Keeps w.store where
  dictCount := by simp [ledger]
  dict := by
    intro ref d hd
    simp only [ledger, List.getElem?_mapIdx, Option.map_eq_some_iff] at hd
    obtain ⟨e, hget, hd⟩ := hd
    rw [Option.ite_none_right_eq_some] at hd
    obtain ⟨-, ⟨⟩⟩ := hd
    rw [Array.getElem?_toList] at hget
    simp [Store.dict, Array.getD_eq_getD_getElem?, hget]
  scopeCount := by simp [ledger]
  scope := by
    intro ref vs hvs
    simp only [ledger, List.getElem?_map, Option.map_eq_some_iff] at hvs
    obtain ⟨_, hget, ⟨⟩⟩ := hvs
    rw [Array.getElem?_toList] at hget
    simp [Store.scope, Array.getD_eq_getD_getElem?, hget]
  functions := rfl

theorem World.Starts.covers {w : World} (h : w.Starts) : h.ledger.Covers w where
  known := by
    rintro (ref | scope) hr
    · have hlt := h.given hr
      have hfree : ∀ f ∈ w.store.functions, f.keywordDefaults ≠ ref := by
        rintro f hf rfl
        exact (h.own f hf).2.2 hr
      simpa [Ledger.Open, ledger, hlt] using hfree
    · exact absurd hr (Scopeless.not_occurs scope w)
  keeps := h.keeps
  builtins := by
    rintro _ ⟨⟩
    rfl

end Wordcode
