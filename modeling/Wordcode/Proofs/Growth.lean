import Wordcode.Proofs.Order
import Mathlib

namespace Wordcode

/-! # Stores that grow

What only adds to a store leaves a value what it was: the value still is ordinary, it is equal to
the values that it was equal to, and it comes before those that it came before.

* `Store.Keeps` says that a store still has what another one had.
* `Store.Keeps.ordinary`, `Store.Keeps.equals_eq` and `Store.Keeps.compare?_eq` are the result.
-/

namespace Store

/-- The second store has the lists and dicts of the first one as they were. -/
structure Keeps (s s' : Store) : Prop where
  lists : ∀ ref < s.lists.size, s'.lists[ref]? = s.lists[ref]?
  dicts : ∀ ref < s.dicts.size, s'.dicts[ref]? = s.dicts[ref]?

namespace Keeps

variable {s s' s₁ s₂ s₃ : Store} {a b : Value} {ref : Nat}

/-- A store keeps what it has. -/
theorem refl (s : Store) : s.Keeps s := ⟨fun _ _ => rfl, fun _ _ => rfl⟩

theorem lt_lists (h : s.Keeps s') (href : ref < s.lists.size) : ref < s'.lists.size := by
  have hget := h.lists ref href
  rw [Array.getElem?_eq_getElem href] at hget
  exact (Array.getElem?_eq_some_iff.mp hget).1

theorem lt_dicts (h : s.Keeps s') (href : ref < s.dicts.size) : ref < s'.dicts.size := by
  have hget := h.dicts ref href
  rw [Array.getElem?_eq_getElem href] at hget
  exact (Array.getElem?_eq_some_iff.mp hget).1

theorem trans (h : s₁.Keeps s₂) (h' : s₂.Keeps s₃) : s₁.Keeps s₃ where
  lists ref href := (h'.lists ref (h.lt_lists href)).trans (h.lists ref href)
  dicts ref href := (h'.dicts ref (h.lt_dicts href)).trans (h.dicts ref href)

theorem items_eq (h : s.Keeps s') (href : ref < s.lists.size) : s'.items ref = s.items ref := by
  rw [items, items, Array.getD_eq_getD_getElem?, h.lists ref href, Array.getD_eq_getD_getElem?]

theorem dict_eq (h : s.Keeps s') (href : ref < s.dicts.size) : s'.dict ref = s.dict ref := by
  rw [dict, dict, Array.getD_eq_getD_getElem?, h.dicts ref href, Array.getD_eq_getD_getElem?]

theorem entries_eq (h : s.Keeps s') (href : ref < s.dicts.size) :
    s'.entries ref = s.entries ref :=
  congrArg Dict.entries (h.dict_eq href)

/-- The dicts of a store were sound if those of one that keeps them are. -/
theorem soundDicts (h : s.Keeps s') (hs : s'.SoundDicts) : s.SoundDicts := by
  intro d hd
  obtain ⟨ref, href, rfl⟩ := Array.mem_iff_getElem.mp (Array.mem_toList_iff.mp hd)
  have hget := (h.dicts ref href).trans (Array.getElem?_eq_getElem href)
  exact hs _ (Array.mem_toList_iff.mpr (Array.mem_of_getElem? hget))

theorem admits (h : s.Keeps s') (ha : s.Admits a) : s'.Admits a := by
  cases a with
  | list ref => exact h.lt_lists ha
  | dict ref => exact h.lt_dicts ha
  | _ => exact ha

/-- A value holds what it held. -/
theorem holds_iff (h : s.Keeps s') (ha : s.Admits a) : s'.Holds a b ↔ s.Holds a b := by
  constructor <;> intro hb <;> cases hb with
  | item hv => exact .item hv
  | start => exact .start
  | stop => exact .stop
  | step => exact .step
  | element hv => exact .element (by simpa [h.items_eq ha] using hv)
  | key he => exact .key (by simpa [h.entries_eq ha] using he)
  | value he => exact .value (by simpa [h.entries_eq ha] using he)

theorem ordinary (h : s.Keeps s') (ha : s.Ordinary a) : s'.Ordinary a := by
  induction ha using Ordinary.induction with
  | step a ha ih =>
    exact .of_held (h.admits ha.admits_self) fun w hw =>
      ih w ((h.holds_iff ha.admits_self).mp hw)

/-- Equality stays what it was. -/
theorem equals_iff (h : s.Keeps s') (hs : s'.SoundDicts) (ha : s.Ordinary a) :
    ∀ b, s.Ordinary b → (s'.equals a b = true ↔ s.equals a b = true) := by
  -- whatever an old value holds is old, so no new container is ever looked at
  induction ha using Ordinary.induction with
  | step a ha ih =>
    intro b hb
    have ha' := h.ordinary ha
    cases a with
    | float => exact ha.admits_self.elim
    | tuple items id =>
        rw [equals_tuple_iff, equals_tuple_iff]
        refine exists₂_congr fun items' id' => and_congr_right fun htuple => ?_
        subst htuple
        exact forall₂_congr_mem fun x hx y hy => ih x (.item hx) y (hb.held (.item hy))
    | slice x y z id =>
        rw [equals_slice_iff, equals_slice_iff]
        refine exists₄_congr fun x' y' z' id' => and_congr_right fun hslice => ?_
        subst hslice
        rw [ih x .start x' (hb.held .start), ih y .stop y' (hb.held .stop),
          ih z .step z' (hb.held .step)]
    | list ref =>
        rw [ha.equals_list_iff, ha'.equals_list_iff]
        refine exists_congr fun ref' => and_congr_right fun hlist => or_congr_right ?_
        subst hlist
        rw [h.items_eq ha.admits_self, h.items_eq hb.admits_self]
        exact forall₂_congr_mem fun x hx y hy => ih x (.element hx) y (hb.held (.element hy))
    | dict ref =>
        rw [ha.equals_dict_iff_matches, ha'.equals_dict_iff_matches]
        refine exists_congr fun ref' => and_congr_right fun hdict => ?_
        subst hdict
        rw [h.dict_eq ha.admits_self, h.dict_eq hb.admits_self, h.entries_eq ha.admits_self]
        refine and_congr_right fun _ => forall₂_congr fun e he => ?_
        refine exists_congr fun v => and_congr_right fun hfind => ?_
        exact ih e.value (.value he) v (hb.held (holds_of_find? (h.soundDicts hs) hfind))
    | _ => rw [ha.equals_atom_iff hb rfl, ha'.equals_atom_iff (h.ordinary hb) rfl]

theorem equals_eq (h : s.Keeps s') (hs : s'.SoundDicts) (ha : s.Ordinary a) (hb : s.Ordinary b) :
    s'.equals a b = s.equals a b :=
  Bool.eq_iff_iff.mpr (h.equals_iff hs ha b hb)

theorem form_eq (h : s.Keeps s') (ha : s.Admits a) : s'.form a = s.form a := by
  cases a with
  | list ref => exact congrArg Form.list (h.items_eq ha)
  | _ => rfl

/-- The order stays what it was. -/
theorem compare?_eq (h : s.Keeps s') (hs : s'.SoundDicts) (ha : s.Ordinary a) :
    ∀ b, s.Ordinary b → s'.compare? a b = s.compare? a b := by
  induction ha using Ordinary.induction with
  | step a ha ih =>
    intro b hb
    rw [(h.ordinary ha).compare?_eq (h.ordinary hb), ha.compare?_eq hb, h.form_eq ha.admits_self,
      h.form_eq hb.admits_self]
    refine Form.compare?_congr_mem fun x hx y hy => ?_
    have hy := hb.held (holds_of_mem_form hy)
    have hx := holds_of_mem_form hx
    exact ⟨h.equals_eq hs (ha.held hx) hy, ih x hx y hy⟩

end Keeps

end Store

end Wordcode
