import Wordcode.Machine
import Wordcode.Proofs.Sorting
import Mathlib

namespace Wordcode

/-! # Separators

Splitting, counting and replacing scan a text on their own, from the left and past every occurrence
that they find. They all find the same occurrences: those between the parts of a split.

* `Text.join_splitFrom`: the parts with the separator between them are the text.
* `Text.not_infix_of_mem_splitFrom`: no part holds the separator.
* `Text.countFrom_succ_eq` and `Text.replaceFrom_eq`: counting and replacing in terms of the parts.
* `Exec.separators_agree` says this of the methods of strings.

Each of the scans is followed by the recursion of `Text.splitFrom`, whose `skip` says how much of an
occurrence is still to be passed over.
-/

/-! ## Scans -/

namespace Text

variable {sep : List Char}

theorem splitFrom_ne_nil (sep : List Char) (skip : Nat) (s : List Char) :
    splitFrom sep skip s ≠ [] := by
  fun_induction splitFrom sep skip s <;> simp_all

theorem join_cons_of_ne_nil (part : List Char) {parts : List (List Char)} (h : parts ≠ []) :
    join sep (part :: parts) = part ++ sep ++ join sep parts := by
  cases parts with
  | nil => exact absurd rfl h
  | cons next rest => rfl

/-- A character in front of the first part is in front of all of them. -/
theorem join_cons_cons (c : Char) (part : List Char) (parts : List (List Char)) :
    join sep ((c :: part) :: parts) = c :: join sep (part :: parts) := by
  cases parts <;> rfl

theorem prefix_join (part : List Char) (parts : List (List Char)) :
    part <+: join sep (part :: parts) := by
  cases parts with
  | nil => exact List.prefix_rfl
  | cons next rest =>
      rw [join_cons_of_ne_nil part (List.cons_ne_nil next rest), List.append_assoc]
      exact List.prefix_append _ _

/-- An occurrence in front of a text, and what is left to be passed over behind its first
character. -/
theorem append_drop_of_prefix {c : Char} {cs : List Char} (hne : sep ≠ [])
    (h : sep.isPrefixOf (c :: cs) = true) : sep ++ cs.drop (sep.length - 1) = c :: cs := by
  obtain ⟨rest, hrest⟩ := List.isPrefixOf_iff_prefix.mp h
  cases sep with
  | nil => exact absurd rfl hne
  | cons d ds =>
      obtain ⟨rfl, rfl⟩ := List.cons_eq_cons.mp hrest
      simp

/-- The parts with the separator between them are the text. -/
theorem join_splitFrom (hne : sep ≠ []) (skip : Nat) (s : List Char) :
    join sep (splitFrom sep skip s) = s.drop skip := by
  fun_induction splitFrom sep skip s with
  | case1 => simp [join]
  | case2 skip c cs ih => exact ih
  | case3 c cs hsep ih =>
      rw [join_cons_of_ne_nil [] (splitFrom_ne_nil _ _ _), ih]
      exact append_drop_of_prefix hne hsep
  | case4 c cs hsep part parts hparts ih =>
      rw [hparts] at ih
      rw [join_cons_cons, ih]
      rfl
  | case5 c cs hsep hnone => exact absurd hnone (splitFrom_ne_nil _ _ _)

/-- There is one part more than there are occurrences. -/
theorem length_splitFrom (sep : List Char) (skip : Nat) (s : List Char) :
    (splitFrom sep skip s).length = countFrom sep skip s + 1 := by
  fun_induction splitFrom sep skip s with
  | case1 => simp [countFrom]
  | case2 skip c cs ih => exact ih
  | case3 c cs hsep ih => rw [List.length_cons, ih, countFrom, if_pos hsep]
  | case4 c cs hsep part parts hparts ih =>
      rw [countFrom, if_neg hsep, ← ih, hparts, List.length_cons, List.length_cons]
  | case5 c cs hsep hnone => exact absurd hnone (splitFrom_ne_nil _ _ _)

/-- Replacing the separator puts another text between the parts. -/
theorem replaceFrom_eq (sep new : List Char) (skip : Nat) (s : List Char) :
    replaceFrom sep new skip s = join new (splitFrom sep skip s) := by
  fun_induction splitFrom sep skip s with
  | case1 => simp [replaceFrom, join]
  | case2 skip c cs ih => exact ih
  | case3 c cs hsep ih =>
      rw [replaceFrom, if_pos hsep, join_cons_of_ne_nil [] (splitFrom_ne_nil _ _ _), ih]
      rfl
  | case4 c cs hsep part parts hparts ih =>
      rw [replaceFrom, if_neg hsep, join_cons_cons, ih, hparts]
  | case5 c cs hsep hnone => exact absurd hnone (splitFrom_ne_nil _ _ _)

/-- No part holds the separator. -/
theorem not_infix_of_mem_splitFrom (hne : sep ≠ []) (skip : Nat) (s : List Char) :
    ∀ part ∈ splitFrom sep skip s, ¬ sep <:+: part := by
  -- by induction on the scan, with the characters still to be passed over
  fun_induction splitFrom sep skip s with
  | case1 =>
      intro part hpart hinfix
      rw [List.mem_singleton.mp hpart, List.infix_nil] at hinfix
      exact hne hinfix
  | case2 skip c cs ih => exact ih
  | case3 c cs hsep ih =>
      intro part hpart
      rcases List.mem_cons.mp hpart with rfl | hpart
      · rwa [List.infix_nil]
      · exact ih part hpart
  | case4 c cs hsep part parts hparts ih =>
      rw [hparts] at ih
      intro part' hpart'
      rcases List.mem_cons.mp hpart' with rfl | hpart'
      · -- an occurrence starts at the first character, where the scan has found none, or later
        intro hinfix
        rcases List.infix_cons_iff.mp hinfix with hprefix | hinfix
        · have hfirst : part <+: cs := by
            have hjoin := join_splitFrom hne 0 cs
            rw [hparts, List.drop_zero] at hjoin
            exact hjoin ▸ prefix_join part parts
          have hsep' : sep <+: c :: cs :=
            hprefix.trans (List.cons_prefix_cons.mpr ⟨rfl, hfirst⟩)
          exact hsep (List.isPrefixOf_iff_prefix.mpr hsep')
        · exact ih part List.mem_cons_self hinfix
      · exact ih part' (List.mem_cons_of_mem part hpart')
  | case5 c cs hsep hnone => exact absurd hnone (splitFrom_ne_nil _ _ _)

end Text

/-! ## Methods -/

/-- Strings with the given texts are made one after another. -/
theorem Op.newStrs_eq (texts : List String) (s : Store) :
    Op.newStrs texts s = .ok ((texts.zipIdx s.nextId).map fun (t, id) => .str t id)
      { s with nextId := s.nextId + texts.length } := by
  unfold Op.newStrs
  induction texts generalizing s with
  | nil => rfl
  | cons t texts ih =>
      have hfirst : Op.newStr t s = .ok (.str t s.nextId) { s with nextId := s.nextId + 1 } := rfl
      rw [List.mapM_cons, bind_of_ok hfirst, bind_of_ok (ih _)]
      simp only [List.zipIdx_cons, List.map_cons, List.length_cons, Nat.add_assoc, Nat.add_comm 1]
      rfl

namespace Exec

variable {w : World}

/-- Strings are joined by their texts. -/
theorem joinTexts_eq {vs : List Value} {texts : List String}
    (h : vs.map Value.str? = texts.map some) (i : Nat) :
    joinTexts i vs w = .ok (texts.map String.toList) w := by
  induction vs generalizing texts i with
  | nil =>
      obtain rfl : texts = [] := by simpa using h.symm
      rfl
  | cons v vs ih =>
      cases texts with
      | nil => cases h
      | cons t texts =>
          obtain ⟨hv, hvs⟩ := List.cons_eq_cons.mp h
          cases v with
          | str t' id =>
              obtain rfl : t' = t := by simpa [Value.str?] using hv
              rw [joinTexts]
              exact bind_of_ok (ih hvs (i + 1))
          | _ => cases hv

/-- Joining puts a string between those that are collected. -/
theorem callMethod_join_of_collect {call : Callback} {fuel : Nat} {x : Value} {vs : List Value}
    {w' : World} {texts : List String} (hcollect : collect call fuel x w = .ok vs w')
    (htexts : vs.map Value.str? = texts.map some) (sep : String) (id : Nat) :
    ∃ id' w₂, callMethod call fuel (.str sep id) (.str .join) [x] [] w =
      .ok (.str (String.ofList (Text.join sep.toList (texts.map String.toList))) id') w₂ := by
  refine ⟨w'.store.nextId,
    { w' with store := { w'.store with nextId := w'.store.nextId + 1 } }, ?_⟩
  show strMethod call fuel sep .join [x] w = _
  rw [strMethod]
  exact (bind_of_ok hcollect).trans (bind_of_ok (joinTexts_eq htexts 0))

/-- Joining puts a string between those of a list. -/
theorem callMethod_join (call : Callback) (fuel : Nat) {texts : List String} {ref : Nat}
    (h : (w.store.items ref).map Value.str? = texts.map some) (sep : String) (id : Nat) :
    ∃ id' w', callMethod call fuel (.str sep id) (.str .join) [.list ref] [] w =
      .ok (.str (String.ofList (Text.join sep.toList (texts.map String.toList))) id') w' :=
  callMethod_join_of_collect rfl h sep id

/-- Splitting makes a list of the parts. -/
theorem callMethod_split (call : Callback) (fuel : Nat) (w : World) (s : String) {sep : String}
    (hsep : sep ≠ "") (id sepId : Nat) : ∃ ref w',
      callMethod call fuel (.str s id) (.str .split) [.str sep sepId] [] w = .ok (.list ref) w' ∧
      (w'.store.items ref).map Value.str? =
        ((Text.split s.toList sep.toList).map String.ofList).map some := by
  let texts := (Text.split s.toList sep.toList).map String.ofList
  let vs := (texts.zipIdx w.store.nextId).map fun (t, id) => Value.str t id
  let w' : World := { w with store := { w.store with
    lists := w.store.lists.push vs
    nextId := w.store.nextId + texts.length } }
  -- the separator is not empty, so the text is split
  have hread : (liftM (Op.asStr (.str sep sepId)) : Exec String) w = .ok sep w := lift_of_ok rfl
  have hrun : strMethod call fuel s .split [.str sep sepId] w =
      .ok (.list w.store.lists.size) w' := by
    rw [strMethod]
    refine (bind_of_ok hread).trans ?_
    rw [if_neg hsep]
    refine (bind_of_ok rfl).trans ?_
    exact (bind_of_ok (lift_of_ok (Op.newStrs_eq texts w.store))).trans (lift_of_ok rfl)
  have hitems : w'.store.items w.store.lists.size = vs := by simp [w', Store.items]
  refine ⟨w.store.lists.size, w', hrun, ?_⟩
  rw [hitems]
  calc vs.map Value.str?
      = (texts.zipIdx w.store.nextId).map (some ∘ Prod.fst) := List.map_map
    _ = ((texts.zipIdx w.store.nextId).map Prod.fst).map some := List.map_map.symm
    _ = texts.map some := by rw [List.zipIdx_map_fst]

/-- A text is its parts with the separator between them. There is one part more than there are
occurrences of the separator, which no part holds, and replacing the separator puts another text
between the parts. -/
theorem separators_agree (call : Callback) (fuel : Nat) (w : World) (s sep new : String)
    (id sepId newId : Nat) (hsep : sep ≠ "") :
    ∃ (parts : List String) (ref : Nat) (w₁ : World),
      callMethod call fuel (.str s id) (.str .split) [.str sep sepId] [] w = .ok (.list ref) w₁ ∧
      (w₁.store.items ref).map Value.str? = parts.map some ∧
      (∃ id₂ w₂, callMethod call fuel (.str sep sepId) (.str .join) [.list ref] [] w₁ =
        .ok (.str s id₂) w₂) ∧
      (∃ n, callMethod call fuel (.str s id) (.str .count) [.str sep sepId] [] w =
        .ok (.int (Int64.ofNat n)) w ∧ parts.length = n + 1) ∧
      (∀ part ∈ parts, ¬ sep.toList <:+: part.toList) ∧
      ∃ text id₂ w₂ id₃ w₃,
        callMethod call fuel (.str s id) (.str .replace) [.str sep sepId, .str new newId] [] w =
          .ok (.str text id₂) w₂ ∧
        callMethod call fuel (.str new newId) (.str .join) [.list ref] [] w₁ =
          .ok (.str text id₃) w₃ := by
  have hne : sep.toList ≠ [] := by simpa using hsep
  have hempty : sep.toList.isEmpty = false := by simpa using hne
  let parts := (Text.split s.toList sep.toList).map String.ofList
  have hparts : parts.map String.toList = Text.split s.toList sep.toList := by
    simp [parts, Function.comp_def]
  obtain ⟨ref, w₁, hsplit, hitems⟩ := callMethod_split call fuel w s hsep id sepId
  refine ⟨parts, ref, w₁, hsplit, hitems, ?join, ?count, ?parts, ?replace⟩
  case join =>
    obtain ⟨id₂, w₂, hjoin⟩ := callMethod_join call fuel hitems sep sepId
    rw [hparts, Text.split, Text.join_splitFrom hne, List.drop_zero, String.ofList_toList] at hjoin
    exact ⟨id₂, w₂, hjoin⟩
  -- the splitting leaves one part more than there are separators
  case count =>
    refine ⟨Text.count s.toList sep.toList, rfl, ?_⟩
    rw [Text.count, hempty, ← List.length_map (f := String.toList), hparts]
    exact Text.length_splitFrom sep.toList 0 s.toList
  case parts =>
    intro part hpart
    have hmem : part.toList ∈ Text.split s.toList sep.toList := hparts ▸ List.mem_map_of_mem hpart
    exact Text.not_infix_of_mem_splitFrom hne 0 s.toList part.toList hmem
  case replace =>
    obtain ⟨id₃, w₃, hjoin⟩ := callMethod_join call fuel hitems new newId
    refine ⟨_, w.store.nextId, _, id₃, w₃, rfl, ?_⟩
    rw [Text.replace, hempty, Text.replaceFrom_eq]
    rw [hparts] at hjoin
    exact hjoin

/-- The separator overlaps itself, and the leftmost of its occurrences count. -/
theorem separators_agree_overlapping :
    let call := (Machine.surroundings {} 1).callback
    "aa" ≠ "" ∧ ∃ w₁,
      callMethod call 1 (.str "aaabaa" 0) (.str .split) [.str "aa" 1] [] {} = .ok (.list 0) w₁ ∧
      (w₁.store.items 0).map Value.str? = [some "", some "ab", some ""] ∧
      (∃ id w₂, callMethod call 1 (.str "aa" 1) (.str .join) [.list 0] [] w₁ =
        .ok (.str "aaabaa" id) w₂) ∧
      ∃ id w₂, callMethod call 1 (.str "-" 2) (.str .join) [.list 0] [] w₁ =
        .ok (.str "-ab-" id) w₂ := by
  intro call
  have hne : "aa" ≠ "" := by decide
  obtain ⟨parts, ref, w₁, hsplit, -, hjoin, -, -, text, id₂, w₂, id₃, w₃, hreplace, hjoin'⟩ :=
    separators_agree call 1 {} "aaabaa" "aa" "-" 0 1 2 hne
  have hrun : callMethod call 1 (.str "aaabaa" 0) (.str .split) [.str "aa" 1] [] {} =
      .ok (.list 0) { ({} : World) with store := { ({} : Store) with
        lists := #[[.str "" 0, .str "ab" 1, .str "" 2]]
        nextId := 3 } } := by
    cbv
  have hreplaced : callMethod call 1 (.str "aaabaa" 0) (.str .replace)
      [.str "aa" 1, .str "-" 2] [] {} = .ok (.str "-ab-" 0)
        { ({} : World) with store := { ({} : Store) with nextId := 1 } } := by
    cbv
  rw [hrun] at hsplit
  rw [hreplaced] at hreplace
  cases hsplit
  cases hreplace
  exact ⟨hne, _, hrun, rfl, hjoin, id₃, w₃, hjoin'⟩

end Exec

end Wordcode
