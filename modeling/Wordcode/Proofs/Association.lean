import Wordcode.Assoc
import Mathlib

namespace Wordcode.Assoc

/-! # Association lists

What `List.lookup` finds after setting and erasing names.

* `lookup_set` and `lookup_setAll`: reading back.
* `lookup_map` and `lookup_zip`: reading lists that are made from others.
* `set_of_not_mem` and `setAll_of_nodup`: new names go to the end.
* `pairwise_sort`: what sorting does to distinct names.
* `nodup_set` and `nodup_setAll`: names stay distinct.
-/

variable {α : Type}

theorem lookup_cons (name : String) (a : α) (entries : List (String × α)) (other : String) :
    ((name, a) :: entries).lookup other =
      if other = name then some a else entries.lookup other := by
  by_cases hname : other = name
  · simp [hname]
  · have hne : (other == name) = false := by simpa using hname
    simp [List.lookup_cons, hne, hname]

/-- A name is found exactly when it is there. -/
theorem lookup_eq_none_iff {entries : List (String × α)} {name : String} :
    entries.lookup name = none ↔ name ∉ entries.map Prod.fst := by
  induction entries with
  | nil => simp
  | cons entry rest ih =>
      obtain ⟨n, b⟩ := entry
      rw [lookup_cons, List.map_cons, List.mem_cons, not_or, ← ih]
      by_cases hname : name = n <;> simp [hname]

/-- Setting a name changes what is found for it, and nothing else. -/
theorem lookup_set (entries : List (String × α)) (name : String) (a : α) (other : String) :
    (set entries name a).lookup other = if other = name then some a else entries.lookup other := by
  induction entries with
  | nil => simp [set, lookup_cons]
  | cons entry rest ih =>
      obtain ⟨n, b⟩ := entry
      unfold set
      by_cases hn : n = name
      · rw [if_pos hn, lookup_cons, lookup_cons, hn]
        by_cases hother : other = name <;> simp [hother]
      · rw [if_neg hn, lookup_cons, lookup_cons, ih]
        by_cases hother : other = n
        · simp [hother, hn]
        · simp [hother]

/-- The names are those that were there, and the new one. -/
theorem mem_names_set {entries : List (String × α)} {name other : String} {a : α} :
    other ∈ (set entries name a).map Prod.fst ↔ other = name ∨ other ∈ entries.map Prod.fst := by
  induction entries with
  | nil => simp [set]
  | cons entry rest ih =>
      obtain ⟨n, b⟩ := entry
      unfold set
      by_cases hn : n = name
      · simp [hn]
      · simp only [if_neg hn, List.map_cons, List.mem_cons, ih]
        exact or_left_comm

/-- A new name goes to the end. -/
theorem set_of_not_mem {entries : List (String × α)} {name : String}
    (h : name ∉ entries.map Prod.fst) (a : α) : set entries name a = entries ++ [(name, a)] := by
  induction entries with
  | nil => rfl
  | cons entry rest ih =>
      rw [List.map_cons, List.mem_cons, not_or] at h
      rw [set, if_neg (Ne.symm h.1), ih h.2]
      rfl

/-- New names go to the end in their order. -/
theorem setAll_of_nodup {entries new : List (String × α)}
    (h : ((entries ++ new).map Prod.fst).Nodup) : setAll entries new = entries ++ new := by
  induction new generalizing entries with
  | nil => simp [setAll]
  | cons entry rest ih =>
      obtain ⟨n, a⟩ := entry
      have hn : n ∉ entries.map Prod.fst := by
        rw [List.map_append, List.map_cons, List.nodup_append] at h
        exact fun hmem => h.2.2 n hmem n List.mem_cons_self rfl
      calc setAll entries ((n, a) :: rest)
          = setAll (set entries n a) rest := rfl
        _ = setAll (entries ++ [(n, a)]) rest := by rw [set_of_not_mem hn]
        _ = entries ++ [(n, a)] ++ rest := ih (by simpa using h)
        _ = entries ++ (n, a) :: rest := List.append_cons entries (n, a) rest |>.symm

/-- Setting a name leaves the names distinct. -/
theorem nodup_set {entries : List (String × α)} (h : (entries.map Prod.fst).Nodup) (name : String)
    (a : α) : ((set entries name a).map Prod.fst).Nodup := by
  induction entries with
  | nil => simp [set]
  | cons entry rest ih =>
      obtain ⟨n, b⟩ := entry
      rw [List.map_cons, List.nodup_cons] at h
      unfold set
      by_cases hn : n = name
      · rw [if_pos hn, List.map_cons, List.nodup_cons]
        exact h
      · rw [if_neg hn, List.map_cons, List.nodup_cons, mem_names_set]
        exact ⟨by simp [hn, h.1], ih h.2⟩

/-- No name is there twice. -/
theorem nodup_setAll {entries : List (String × α)} (h : (entries.map Prod.fst).Nodup)
    (new : List (String × α)) : ((setAll entries new).map Prod.fst).Nodup := by
  induction new generalizing entries with
  | nil => exact h
  | cons entry rest ih => exact ih (nodup_set h entry.1 entry.2)

/-- Sorting by names keeps the entries. -/
theorem perm_sort (entries : List (String × α)) : (sort entries).Perm entries :=
  List.mergeSort_perm entries _

/-- Distinct names come in strict order. -/
theorem pairwise_sort {entries : List (String × α)} (h : (entries.map Prod.fst).Nodup) :
    ((sort entries).map Prod.fst).Pairwise (· < ·) := by
  have hle : (sort entries).Pairwise fun a b => decide (a.1 ≤ b.1) = true := by
    refine List.pairwise_mergeSort (fun a b c hab hbc => ?_) (fun a b => ?_) entries
    · exact decide_eq_true ((of_decide_eq_true hab).trans (of_decide_eq_true hbc))
    · simpa using le_total a.1 b.1
  have hne : ((sort entries).map Prod.fst).Nodup := ((perm_sort entries).map _).nodup_iff.mpr h
  rw [List.pairwise_map]
  refine (hle.and (List.pairwise_map.mp hne)).imp fun hab => ?_
  exact lt_of_le_of_ne (of_decide_eq_true hab.1) hab.2

/-- Setting distinct names overrides what was there. -/
theorem lookup_setAll {new : List (String × α)} (h : (new.map Prod.fst).Nodup)
    (entries : List (String × α)) (other : String) :
    (setAll entries new).lookup other = (new.lookup other).or (entries.lookup other) := by
  induction new generalizing entries with
  | nil => simp [setAll]
  | cons entry rest ih =>
      obtain ⟨n, b⟩ := entry
      rw [List.map_cons, List.nodup_cons] at h
      have hrest : (setAll (set entries n b) rest).lookup other =
          (rest.lookup other).or ((set entries n b).lookup other) := ih h.2 _
      rw [lookup_cons]
      show (setAll (set entries n b) rest).lookup other = _
      rw [hrest, lookup_set]
      -- a name is set once, so the rest does not overwrite it
      by_cases hother : other = n
      · have hnew := lookup_eq_none_iff.mpr h.1
        simp [hother, hnew]
      · simp [hother]

/-- Among distinct names an entry is found by its name. -/
theorem lookup_eq_some_iff {entries : List (String × α)} (h : (entries.map Prod.fst).Nodup)
    {name : String} {a : α} : entries.lookup name = some a ↔ (name, a) ∈ entries := by
  induction entries with
  | nil => simp
  | cons entry rest ih =>
      obtain ⟨n, b⟩ := entry
      rw [List.map_cons, List.nodup_cons] at h
      rw [lookup_cons, List.mem_cons]
      by_cases hname : name = n
      · have hnew : (n, a) ∉ rest := fun hmem => h.1 (List.mem_map.mpr ⟨_, hmem, rfl⟩)
        simp [hname, hnew, eq_comm]
      · simp [hname, ih h.2]

theorem lookup_map {β : Type} (f : α → β) (entries : List (String × α)) (name : String) :
    (entries.map fun (n, a) => (n, f a)).lookup name = (entries.lookup name).map f := by
  induction entries with
  | nil => rfl
  | cons entry rest ih =>
      obtain ⟨n, b⟩ := entry
      rw [List.map_cons, lookup_cons, lookup_cons, ih]
      by_cases hname : name = n <;> simp [hname]

theorem names_map {β : Type} (f : α → β) (entries : List (String × α)) :
    (entries.map fun (n, a) => (n, f a)).map Prod.fst = entries.map Prod.fst :=
  List.map_map

theorem names_zip_prefix (names : List String) (as : List α) :
    (names.zip as).map Prod.fst <+: names := by
  induction names generalizing as with
  | nil => simp
  | cons name names ih =>
      cases as with
      | nil => exact List.nil_prefix
      | cons a as => simpa [List.cons_prefix_cons] using ih as

/-- Distinct names in step with data. -/
theorem lookup_zip {names : List String} (h : names.Nodup) (as : List α) {i : Nat} {name : String}
    (hname : names[i]? = some name) : (names.zip as).lookup name = as[i]? := by
  induction names generalizing as i with
  | nil => simp at hname
  | cons first names ih =>
      rw [List.nodup_cons] at h
      cases as with
      | nil => simp
      | cons a as =>
          rw [List.zip_cons_cons, lookup_cons]
          cases i with
          | zero =>
              have hfirst : first = name := by simpa using hname
              simp [hfirst]
          | succ i =>
              rw [List.getElem?_cons_succ] at hname
              have hne : name ≠ first := fun heq =>
                h.1 (heq ▸ List.mem_of_getElem? hname)
              rw [if_neg hne, ih h.2 as hname, List.getElem?_cons_succ]

end Wordcode.Assoc
