import Wordcode.Machine
import Wordcode.Proofs.Sorting
import Mathlib

namespace Wordcode

/-! # Iterators over sequences

An iterator over a list, a tuple, a string or a range gives one item after another, and changes
nothing but its own place. So several of them, one for each of several sequences, give the items of
these row by row.

* `Store.elements` are the items of a sequence, and `rows` those of several ones, row by row: the
  items at one position each.
* `Moves` says which iterators may have moved from one world to another.
* `Stands` says what an iterator over a sequence has still to give. `Stands.next_cons` and
  `Stands.next_nil` are its steps. `StandTogether` says the same of several iterators.
* `Yields` is the run of an iterator up to its end. `Yields.collect_eq` collects what it gives, and
  `Stands.yields` says what an iterator over a sequence gives.
-/

/-! ## Items -/

/-- An item of a sequence: a value, or a character of a string. -/
inductive Element
  | value (v : Value)
  | char (c : Char)

/-- How an item is given: a character becomes a string, which is a new one each time. -/
inductive Element.Gives : Element → Value → Prop
  | value (v : Value) : Gives (.value v) v
  | char (c : Char) (id : Nat) : Gives (.char c) (.str (String.ofList [c]) id)

/-- Items that are values are given as they are. -/
theorem Element.eq_of_gives {vs us : List Value} (h : List.Forall₂ Gives (vs.map .value) us) :
    us = vs := by
  induction vs generalizing us with
  | nil =>
      cases h
      rfl
  | cons v vs ih =>
      cases h with
      | cons hfirst hrest =>
          cases hfirst
          rw [ih hrest]

/-- The values with items that are known without asking an iterator. -/
def Value.IsSequence : Value → Prop
  | .list _ | .tuple .. | .str .. | .range .. => True
  | _ => False

namespace Store

/-- The integers of a range from a position on. -/
def integers (r : Range) (position length : Int64) : List Element :=
  (List.range (length.toInt - position.toInt).toNat).map fun i =>
    .value (.int (r.nth (position + Int64.ofNat i)))

/-- The items of a sequence. -/
def elements (s : Store) : Value → List Element
  | .list ref => (s.items ref).map .value
  | .tuple items _ => items.map .value
  | .str text _ => text.toList.map .char
  | .range r _ => integers r 0 r.length
  | _ => []

/-- What an iterator over a sequence has still to give, by where it stands. -/
def remaining (s : Store) : Cursor → List Element
  | .items _ rest => rest.map .value
  | .chars rest => rest.map .char
  | .list ref position => ((s.items ref).drop position).map .value
  | .range r position length => integers r position length
  | _ => []

/-- At the end of a range there are no integers left. -/
theorem integers_of_le {r : Range} {position length : Int64} (h : length ≤ position) :
    integers r position length = [] := by
  rw [Int64.le_iff_toInt_le] at h
  have hcount : (length.toInt - position.toInt).toNat = 0 := by omega
  simp [integers, hcount]

/-- The length of a range is a word, so that the position behind an integer of it is one too. -/
theorem integers_of_not_le {r : Range} {position length : Int64} (h : ¬ length ≤ position) :
    integers r position length =
      .value (.int (r.nth position)) :: integers r (position + 1) length := by
  have hhigh := length.toInt_lt
  have hlow := position.le_toInt
  rw [Int64.le_iff_toInt_le] at h
  have hmoved : (position + 1).toInt = position.toInt + 1 := by
    rw [Int64.toInt_add, Int64.toInt_one, Int.bmod_eq_of_le] <;> omega
  have hcount : (length.toInt - position.toInt).toNat =
      (length.toInt - (position + 1).toInt).toNat + 1 := by omega
  unfold integers
  rw [hcount, List.range_succ_eq_map, List.map_cons, List.map_map]
  refine congrArg₂ List.cons ?_ (List.map_congr_left fun i _ => ?_)
  · simp
  · have hword : Int64.ofNat (i + 1) = 1 + Int64.ofNat i := by
      rw [Int64.ofNat_add, Int64.add_comm]
      rfl
    simp only [Function.comp_apply, Nat.succ_eq_add_one, hword, Int64.add_assoc]

end Store

/-- The cursors of iterators over sequences. -/
def Cursor.IsSource : Cursor → Prop
  | .items .. | .chars _ | .list .. | .range .. => True
  | _ => False

/-! ## Worlds -/

/-- The second world differs from the first one only in where some iterators stand, and in the
identities that are left. -/
structure Moves (own : List Nat) (w w' : World) : Prop where
  same : w' = { w with store := { w.store with
    iterators := w'.store.iterators
    nextId := w'.store.nextId } }
  others : ∀ ref ∉ own, w'.store.iterators[ref]? = w.store.iterators[ref]?

namespace Moves

variable {own own' : List Nat} {w w₁ w₂ w' : World} {ref : Nat}

/-- Nothing has moved. -/
theorem refl (own : List Nat) (w : World) : Moves own w w := ⟨rfl, fun _ _ => rfl⟩

/-- One movement after another one. -/
theorem trans (h : Moves own w w₁) (h' : Moves own w₁ w₂) : Moves own w w₂ where
  same := by rw [h'.same, h.same]
  others ref href := (h'.others ref href).trans (h.others ref href)

/-- What moves some iterators moves some of more. -/
theorem mono (h : Moves own w w') (hown : own ⊆ own') : Moves own' w w' :=
  ⟨h.same, fun ref href => h.others ref fun hmem => href (hown hmem)⟩

/-- Lists stay as they are. -/
theorem lists_eq (h : Moves own w w') : w'.store.lists = w.store.lists := by rw [h.same]

theorem items_eq (h : Moves own w w') (ref : Nat) : w'.store.items ref = w.store.items ref := by
  rw [Store.items, h.lists_eq, Store.items]

/-- A value with a new identity is made. -/
theorem of_fresh (own : List Nat) (w : World) (id : Nat) :
    Moves own w { w with store := { w.store with nextId := id } } := ⟨rfl, fun _ _ => rfl⟩

end Moves

namespace Store

variable {s s' : Store} {c : Cursor}

/-- The items of sequences are those of lists. -/
theorem remaining_congr (h : ∀ ref position, c = .list ref position → s'.items ref = s.items ref) :
    s'.remaining c = s.remaining c := by
  cases c with
  | list ref position => simp only [remaining, h ref position rfl]
  | _ => rfl

end Store

/-! ## Steps -/

namespace Op

variable {s : Store} {c : Cursor} {e : Element} {es : List Element}

/-- An iterator over a sequence gives the first of the items that are left. -/
theorem advance_cons (hc : c.IsSource) (h : s.remaining c = e :: es) (ref : Nat) :
    ∃ v c' id, advance ref c s = .ok (some v) { s with
        iterators := s.iterators.modify ref ({ · with cursor := c' })
        nextId := id } ∧
      e.Gives v ∧ c'.IsSource ∧ s.remaining c' = es ∧
      ∀ l position', c' = .list l position' → ∃ position, c = .list l position := by
  cases c with
  | items kind rest =>
      obtain ⟨v, vs, rfl, rfl, rfl⟩ := List.map_eq_cons_iff.mp h
      exact ⟨v, .items kind vs, s.nextId, rfl, .value v, trivial, rfl, by rintro _ _ ⟨⟩⟩
  | chars rest =>
      obtain ⟨c, cs, rfl, rfl, rfl⟩ := List.map_eq_cons_iff.mp h
      exact ⟨_, .chars cs, s.nextId + 1, rfl, .char c s.nextId, trivial, rfl, by rintro _ _ ⟨⟩⟩
  | list l position =>
      obtain ⟨v, vs, hrest, rfl, rfl⟩ := List.map_eq_cons_iff.mp h
      have hv : (s.items l)[position]? = some v := by
        rw [← List.head?_drop, hrest, List.head?_cons]
      have hvs : (s.items l).drop (position + 1) = vs := by
        rw [← List.tail_drop, hrest, List.tail_cons]
      refine ⟨v, .list l (position + 1), s.nextId, ?_, .value v, trivial, ?_, ?_⟩
      · rw [advance, bind_of_ok (rfl : Op.items l s = .ok (s.items l) s), hv]
        rfl
      · rw [Store.remaining, hvs]
      · rintro l' position' ⟨⟩
        exact ⟨position, rfl⟩
  | range r position length =>
      -- a range has something left only before its end
      have hmore : ¬ length ≤ position := by
        intro hend
        rw [Store.remaining, Store.integers_of_le hend] at h
        cases h
      rw [Store.remaining, Store.integers_of_not_le hmore] at h
      obtain ⟨rfl, rfl⟩ := List.cons_eq_cons.mp h
      refine ⟨_, .range r (position + 1) length, s.nextId, ?_, .value _, trivial, rfl,
        by rintro _ _ ⟨⟩⟩
      simp only [advance, hmore, if_false]
      rfl
  | _ => exact hc.elim

/-- Where no items are left it has come to its end. -/
theorem advance_nil (hc : c.IsSource) (h : s.remaining c = []) (ref : Nat) :
    advance ref c s = .ok none s := by
  -- each kind of source has its own end
  cases c with
  | items kind rest =>
      obtain rfl := List.map_eq_nil_iff.mp h
      rfl
  | chars rest =>
      obtain rfl := List.map_eq_nil_iff.mp h
      rfl
  | list l position =>
      have hend : (s.items l)[position]? = none := by
        rw [List.getElem?_eq_none_iff]
        exact List.drop_eq_nil_iff.mp (List.map_eq_nil_iff.mp h)
      rw [advance, bind_of_ok (rfl : Op.items l s = .ok (s.items l) s), hend]
      rfl
  | range r position length =>
      have hend : length ≤ position := by
        by_contra hmore
        rw [Store.remaining, Store.integers_of_not_le hmore] at h
        cases h
      simp only [advance, hend, if_true]
      rfl
  | _ => exact hc.elim

end Op

/-- The iterator gives these items next, and then comes to its end. It looks at none but the given
lists. -/
def Stands (sequences : List Value) (w : World) (ref : Nat) (es : List Element) : Prop :=
  ∃ c : Cursor, w.store.iterators[ref]? = some { cursor := c } ∧ c.IsSource ∧
    w.store.remaining c = es ∧ ∀ l position, c = .list l position → .list l ∈ sequences

/-- The iterator has come to its end. -/
def Exhausted (w : World) (ref : Nat) : Prop := (w.store.iterator ref).done = true

namespace Exec

variable {w : World} {ref : Nat} {c : Cursor}

/-- An iterator that is there is what the store gives for its reference. -/
theorem iterator_eq_of_getElem? {it : Iteration} (h : w.store.iterators[ref]? = some it) :
    w.store.iterator ref = it := by
  rw [Store.iterator, Array.getD_eq_getD_getElem?, h, Option.getD_some]

theorem iterator_of_getElem? {it : Iteration} (h : w.store.iterators[ref]? = some it) :
    (liftM (Op.iterator ref) : Exec Iteration) w = .ok it w :=
  congrArg (EStateM.Result.ok · w) (iterator_eq_of_getElem? h)

/-- An iterator over a sequence has no source that could move it, so asking it is one advance. -/
theorem next_of_isSource (call : Callback) (fuel : Nat)
    (h : w.store.iterators[ref]? = some { cursor := c }) (hc : c.IsSource) :
    next call (fuel + 1) ref w = (do
      let item ← Op.advance ref c
      if item.isNone then Op.setDone ref
      return item : Exec (Option Value)) w := by
  rw [next]
  refine (bind_of_ok (iterator_of_getElem? h)).trans ?_
  rw [if_neg Bool.false_ne_true]
  cases c with
  | items | chars | list | range => rfl
  | _ => exact hc.elim

/-- An iterator that has come to its end stays there. It asks nothing of anyone. -/
theorem next_of_exhausted (h : Exhausted w ref) (call : Callback) (fuel : Nat) :
    next call (fuel + 1) ref w = .ok none w := by
  have hit : (liftM (Op.iterator ref) : Exec Iteration) w = .ok (w.store.iterator ref) w := rfl
  rw [next]
  refine (bind_of_ok hit).trans ?_
  rw [Exhausted] at h
  rw [if_pos h]
  rfl

/-- Marking an iterator moves no other one. -/
theorem setDone_eq (w : World) (ref : Nat) :
    ∃ w', (liftM (Op.setDone ref) : Exec Unit) w = .ok () w' ∧ Moves [ref] w w' ∧
      Exhausted w' ref := by
  refine ⟨_, rfl, ⟨rfl, fun other hother => ?_⟩, ?_⟩
  · have hne : ref ≠ other := fun heq => hother (by simp [heq])
    simp [Array.getElem?_modify, hne]
  · by_cases href : ref < w.store.iterators.size <;>
      simp [Exhausted, Store.iterator, Array.getD, href, Array.getElem_modify]

end Exec

namespace Stands

variable {sequences : List Value} {w w' : World} {ref : Nat} {e : Element} {es : List Element}

theorem lt_size (h : Stands sequences w ref es) : ref < w.store.iterators.size := by
  obtain ⟨c, hc, -⟩ := h
  exact (Array.getElem?_eq_some_iff.mp hc).1

/-- It depends on nothing but where the iterator stands and what the lists hold. -/
theorem of_same (h : Stands sequences w ref es)
    (hit : w'.store.iterators[ref]? = w.store.iterators[ref]?)
    (hitems : ∀ l, .list l ∈ sequences → w'.store.items l = w.store.items l) :
    Stands sequences w' ref es := by
  obtain ⟨c, hc, hsource, hes, hlists⟩ := h
  refine ⟨c, hit.trans hc, hsource, ?_, hlists⟩
  rw [← hes]
  exact Store.remaining_congr fun l position hl => hitems l (hlists l position hl)

/-- A sequence keeps what is left of it while only other iterators move. -/
theorem of_moves (h : Stands sequences w ref es) {own : List Nat} (hmoves : Moves own w w')
    (href : ref ∉ own) : Stands sequences w' ref es :=
  h.of_same (hmoves.others ref href) fun l _ => hmoves.items_eq l

/-- Sequences that are side by side keep what is left of them, if their iterators and lists stay the
same. -/
theorem all_of_same {sources : List Nat} {ess : List (List Element)}
    (h : List.Forall₂ (Stands sequences w) sources ess)
    (hits : ∀ ref ∈ sources, w'.store.iterators[ref]? = w.store.iterators[ref]?)
    (hitems : ∀ l, .list l ∈ sequences → w'.store.items l = w.store.items l) :
    List.Forall₂ (Stands sequences w') sources ess := by
  induction h with
  | nil => exact .nil
  | cons hfirst _ ih =>
      exact .cons (hfirst.of_same (hits _ List.mem_cons_self) hitems)
        (ih fun ref href => hits ref (List.mem_cons_of_mem _ href))

/-- They do if only other iterators move. -/
theorem all_of_moves {sources own : List Nat} {ess : List (List Element)}
    (h : List.Forall₂ (Stands sequences w) sources ess) (hmoves : Moves own w w')
    (hapart : ∀ ref ∈ own, ref ∉ sources) : List.Forall₂ (Stands sequences w') sources ess :=
  all_of_same h (fun ref href => hmoves.others ref fun hmem => hapart ref hmem href)
    fun l _ => hmoves.items_eq l

/-- An iterator over a sequence gives the next item. -/
theorem next_cons (h : Stands sequences w ref (e :: es)) :
    ∃ v w', (∀ call fuel, Exec.next call (fuel + 1) ref w = .ok (some v) w') ∧ e.Gives v ∧
      Moves [ref] w w' ∧ Stands sequences w' ref es := by
  obtain ⟨c, hc, hsource, hes, hlists⟩ := h
  obtain ⟨v, c', id, hadvance, hgives, hsource', hes', hlists'⟩ := Op.advance_cons hsource hes ref
  let w' : World := { w with store := { w.store with
    iterators := w.store.iterators.modify ref ({ · with cursor := c' })
    nextId := id } }
  refine ⟨v, w', fun call fuel => ?_, hgives, ⟨rfl, fun other hother => ?_⟩, c', ?_, hsource', ?_,
    fun l position' hl => ?_⟩
  · rw [Exec.next_of_isSource call fuel hc hsource]
    exact (bind_of_ok (Exec.lift_of_ok hadvance)).trans rfl
  · have hne : ref ≠ other := fun heq => hother (by simp [heq])
    simp [w', Array.getElem?_modify, hne]
  · simp [w', Array.getElem?_modify, hc]
  · exact (Store.remaining_congr fun _ _ _ => rfl).trans hes'
  · obtain ⟨position, hposition⟩ := hlists' l position' hl
    exact hlists l position hposition

/-- Behind the last item it comes to its end. -/
theorem next_nil (h : Stands sequences w ref []) :
    ∃ w', (∀ call fuel, Exec.next call (fuel + 1) ref w = .ok none w') ∧ Moves [ref] w w' ∧
      Exhausted w' ref := by
  obtain ⟨c, hc, hsource, hes, -⟩ := h
  obtain ⟨w', hdone, hmoves, hexhausted⟩ := Exec.setDone_eq w ref
  refine ⟨w', fun call fuel => ?_, hmoves, hexhausted⟩
  rw [Exec.next_of_isSource call fuel hc hsource]
  refine (bind_of_ok (Exec.lift_of_ok (Op.advance_nil hsource hes ref))).trans ?_
  exact (bind_of_ok hdone).trans rfl

end Stands

/-! ## Runs -/

/-- What an iterator gives until it comes to its end, each time with as much fuel as it needs. -/
inductive Yields (call : Callback) (ref need : Nat) : World → List Value → World → Prop
  | stop {w w' : World} (h : ∀ fuel, need ≤ fuel → Exec.next call fuel ref w = .ok none w') :
    Yields call ref need w [] w'
  | item {w w₁ w' : World} {v : Value} {vs : List Value}
    (h : ∀ fuel, need ≤ fuel → Exec.next call fuel ref w = .ok (some v) w₁)
    (rest : Yields call ref need w₁ vs w') : Yields call ref need w (v :: vs) w'

namespace Yields

variable {call : Callback} {ref need fuel : Nat} {w w' : World} {vs : List Value}

/-- More fuel does no harm. -/
theorem mono (h : Yields call ref need w vs w') {need' : Nat} (hle : need ≤ need') :
    Yields call ref need' w vs w' := by
  induction h with
  | stop hnext => exact .stop fun fuel hfuel => hnext fuel (hle.trans hfuel)
  | item hnext _ ih => exact .item (fun fuel hfuel => hnext fuel (hle.trans hfuel)) ih

/-- Collecting the items of a run appends them to what has been seen, by induction on the run. -/
theorem go_eq (h : Yields call ref need w vs w') (seen : Array Value)
    (hfuel : need + vs.length < fuel) :
    Exec.drain.go call fuel ref seen w = .ok (seen.toList ++ vs) w' := by
  induction h generalizing seen fuel with
  | stop hnext =>
      obtain ⟨fuel, rfl⟩ := Nat.exists_eq_add_one_of_ne_zero (Nat.ne_zero_of_lt hfuel)
      rw [Exec.drain.go, bind_of_ok (hnext fuel (by simpa using hfuel)), List.append_nil]
      rfl
  | @item w w₁ w' v vs hnext _ ih =>
      obtain ⟨fuel, rfl⟩ := Nat.exists_eq_add_one_of_ne_zero (Nat.ne_zero_of_lt hfuel)
      rw [List.length_cons] at hfuel
      rw [Exec.drain.go, bind_of_ok (hnext fuel (by omega))]
      refine (ih (seen.push v) (by omega)).trans ?_
      simp

/-- An iterator is drained of the items of its run. -/
theorem drain_eq (h : Yields call ref need w vs w') (hfuel : need + vs.length + 1 < fuel) :
    Exec.drain call fuel ref w = .ok vs w' := by
  obtain ⟨fuel, rfl⟩ := Nat.exists_eq_add_one_of_ne_zero (Nat.ne_zero_of_lt hfuel)
  exact (h.go_eq #[] (by omega)).trans rfl

/-- Collecting takes all that is given. -/
theorem collect_eq (h : Yields call ref need w vs w') (hfuel : need + vs.length + 1 < fuel) :
    Exec.collect call fuel (.iterator ref) w = .ok vs w' := by
  have hcursor : (liftM (Op.cursorOf (.iterator ref)) : Exec Nat) w = .ok ref w := rfl
  exact (bind_of_ok hcursor).trans (h.drain_eq hfuel)

end Yields

/-- An iterator over a sequence gives the items that are left. -/
theorem Stands.yields {sequences : List Value} {w : World} {ref : Nat} {es : List Element}
    (h : Stands sequences w ref es) (call : Callback) :
    ∃ vs w', Yields call ref 1 w vs w' ∧ List.Forall₂ Element.Gives es vs ∧ Moves [ref] w w' ∧
      Exhausted w' ref := by
  have hfuel {fuel : Nat} (hpos : 1 ≤ fuel) : ∃ n, fuel = n + 1 :=
    Nat.exists_eq_add_one_of_ne_zero (Nat.ne_zero_of_lt hpos)
  -- on the items that the source still has to give
  induction es generalizing w with
  | nil =>
      obtain ⟨w', hnext, hmoves, hexhausted⟩ := h.next_nil
      refine ⟨[], w', .stop fun fuel hpos => ?_, .nil, hmoves, hexhausted⟩
      obtain ⟨n, rfl⟩ := hfuel hpos
      exact hnext call n
  | cons e es ih =>
      obtain ⟨v, w₁, hnext, hgives, hmoves, hstands⟩ := h.next_cons
      obtain ⟨vs, w', hyields, hall, hmoves', hexhausted⟩ := ih hstands
      refine ⟨v :: vs, w', .item (fun fuel hpos => ?_) hyields, .cons hgives hall,
        hmoves.trans hmoves', hexhausted⟩
      obtain ⟨n, rfl⟩ := hfuel hpos
      exact hnext call n

/-! ## Several sequences -/

section

variable {α : Type} {xss : List (List α)}

/-- The items of several lists, row by row, up to the end of the shortest one. Without any list
there are none. -/
def rows : List (List α) → List (List α)
  | [] => []
  | [xs] => xs.map fun x => [x]
  | xs :: xss => List.zipWith List.cons xs (rows xss)

/-- The rows of one more sequence have its items in front. -/
theorem rows_cons (xs : List α) (hne : xss ≠ []) :
    rows (xs :: xss) = List.zipWith List.cons xs (rows xss) := by
  cases xss with
  | nil => exact absurd rfl hne
  | cons ys xss => rfl

/-- The first row has the first items, and the others are the rows of the other items. -/
theorem exists_rows_eq_cons (hne : xss ≠ []) (hmore : ∀ xs ∈ xss, xs ≠ []) :
    ∃ row, rows xss = row :: rows (xss.map List.tail) ∧ xss.map List.head? = row.map some := by
  induction xss with
  | nil => exact absurd rfl hne
  | cons xs xss ih =>
      obtain ⟨x, xs, rfl⟩ := List.exists_cons_of_ne_nil (hmore xs List.mem_cons_self)
      cases xss with
      | nil => exact ⟨[x], rfl, rfl⟩
      | cons ys xss =>
          have hrest := List.cons_ne_nil ys xss
          obtain ⟨row, hrows, hheads⟩ := ih hrest fun zs hzs =>
            hmore zs (List.mem_cons_of_mem _ hzs)
          have hlast : rows (((x :: xs) :: ys :: xss).map List.tail) =
              List.zipWith List.cons xs (rows ((ys :: xss).map List.tail)) :=
            rows_cons xs (List.cons_ne_nil _ _)
          refine ⟨x :: row, ?_, congrArg (some x :: ·) hheads⟩
          rw [rows_cons _ hrest, hrows, hlast, List.zipWith_cons_cons]

/-- There are no rows where one of the lists is empty. -/
theorem rows_eq_nil (h : [] ∈ xss) : rows xss = [] := by
  induction xss with
  | nil => rfl
  | cons xs xss ih =>
      cases xss with
      | nil =>
          obtain rfl : [] = xs := by simpa using h
          rfl
      | cons ys xss =>
          rw [rows_cons xs (List.cons_ne_nil ys xss)]
          rcases List.mem_cons.mp h with rfl | hmem
          · rfl
          · rw [ih hmem, List.zipWith_nil_right]

end

namespace Exec

variable {sequences : List Value} {sources : List Nat} {ess : List (List Element)} {w : World}

/-- Each of several iterators over sequences gives an item, as long as all of them have one. -/
theorem nextAll_cons (hnodup : sources.Nodup)
    (h : List.Forall₂ (Stands sequences w) sources ess) (hmore : ∀ es ∈ ess, es ≠ []) :
    ∃ row vs w', (∀ call fuel, nextAll (next call (fuel + 1)) sources w = .ok (some vs) w') ∧
      ess.map List.head? = row.map some ∧ List.Forall₂ Element.Gives row vs ∧
      Moves sources w w' ∧ List.Forall₂ (Stands sequences w') sources (ess.map List.tail) := by
  induction sources generalizing w ess with
  | nil =>
      cases h
      exact ⟨[], [], w, fun call fuel => rfl, rfl, .nil, .refl [] w, .nil⟩
  | cons ref sources ih =>
      obtain ⟨hfresh, hnodup⟩ := List.nodup_cons.mp hnodup
      cases h with
      | @cons _ es _ ess hstands hrest =>
          obtain ⟨e, es, rfl⟩ := List.exists_cons_of_ne_nil (hmore es List.mem_cons_self)
          obtain ⟨v, w₁, hnext, hgives, hmoves, hstands'⟩ := hstands.next_cons
          -- the other iterators stand where they stood, as the first one is none of them
          obtain ⟨row, vs, w', hnextAll, hheads, hall, hmoves', hstands''⟩ :=
            ih hnodup (Stands.all_of_moves hrest hmoves (by simpa using hfresh))
              fun es hes => hmore es (List.mem_cons_of_mem _ hes)
          refine ⟨e :: row, v :: vs, w', fun call fuel => ?_, congrArg (some e :: ·) hheads,
            .cons hgives hall, ?_, ?_⟩
          · rw [nextAll]
            refine (bind_of_ok (hnext call fuel)).trans ?_
            exact (bind_of_ok (hnextAll call fuel)).trans rfl
          · exact (hmoves.mono (by simp)).trans (hmoves'.mono (List.subset_cons_self _ _))
          · exact .cons (hstands'.of_moves hmoves' hfresh) hstands''

/-- One of them that has come to its end ends it for all. -/
theorem nextAll_none (hnodup : sources.Nodup)
    (h : List.Forall₂ (Stands sequences w) sources ess) (hend : [] ∈ ess) :
    ∃ w', (∀ call fuel, nextAll (next call (fuel + 1)) sources w = .ok none w') ∧
      Moves sources w w' := by
  induction sources generalizing w ess with
  | nil =>
      cases h
      exact absurd hend List.not_mem_nil
  | cons ref sources ih =>
      obtain ⟨hfresh, hnodup⟩ := List.nodup_cons.mp hnodup
      -- the first source with no item left ends the round, and those before it have moved
      cases h with
      | @cons _ es _ ess hstands hrest =>
          cases es with
          | nil =>
              obtain ⟨w', hnext, hmoves, -⟩ := hstands.next_nil
              refine ⟨w', fun call fuel => ?_, hmoves.mono (by simp)⟩
              rw [nextAll]
              exact (bind_of_ok (hnext call fuel)).trans rfl
          | cons e es =>
              obtain ⟨v, w₁, hnext, -, hmoves, -⟩ := hstands.next_cons
              obtain ⟨w', hnextAll, hmoves'⟩ :=
                ih hnodup (Stands.all_of_moves hrest hmoves (by simpa using hfresh))
                  (by simpa using hend)
              refine ⟨w', fun call fuel => ?_,
                (hmoves.mono (by simp)).trans (hmoves'.mono (List.subset_cons_self _ _))⟩
              rw [nextAll]
              refine (bind_of_ok (hnext call fuel)).trans ?_
              exact (bind_of_ok (hnextAll call fuel)).trans rfl

end Exec

/-- The iterators give these rows together, and then one of them comes to its end. -/
def StandTogether (sequences : List Value) (w : World) (sources : List Nat)
    (rs : List (List Element)) : Prop :=
  sources.Nodup ∧ ∃ ess, ess ≠ [] ∧ List.Forall₂ (Stands sequences w) sources ess ∧ rows ess = rs

namespace StandTogether

variable {sequences : List Value} {sources : List Nat} {row : List Element}
  {rs : List (List Element)} {w w' : World}

/-- Sequences side by side keep their rows, if their iterators and lists stay the same. -/
theorem of_same (h : StandTogether sequences w sources rs)
    (hits : ∀ ref ∈ sources, w'.store.iterators[ref]? = w.store.iterators[ref]?)
    (hitems : ∀ l, .list l ∈ sequences → w'.store.items l = w.store.items l) :
    StandTogether sequences w' sources rs := by
  obtain ⟨hnodup, ess, hne, hstands, hrows⟩ := h
  exact ⟨hnodup, ess, hne, Stands.all_of_same hstands hits hitems, hrows⟩

/-- There is at least one sequence. -/
theorem sources_ne_nil (h : StandTogether sequences w sources rs) : sources ≠ [] := by
  obtain ⟨-, ess, hne, hstands, -⟩ := h
  rintro rfl
  cases hstands
  exact hne rfl

/-- Asked for an item each, they give the next row. -/
theorem next_cons (h : StandTogether sequences w sources (row :: rs)) :
    ∃ vs w', (∀ call fuel,
        Exec.nextAll (Exec.next call (fuel + 1)) sources w = .ok (some vs) w') ∧
      List.Forall₂ Element.Gives row vs ∧ Moves sources w w' ∧
      StandTogether sequences w' sources rs := by
  obtain ⟨hnodup, ess, hne, hstands, hrows⟩ := h
  -- none of the iterators is at its end, since a row is left
  have hmore : ∀ es ∈ ess, es ≠ [] := by
    rintro es hes rfl
    rw [rows_eq_nil hes] at hrows
    cases hrows
  obtain ⟨row', hrows', hheads'⟩ := exists_rows_eq_cons hne hmore
  obtain ⟨row'', vs, w', hnext, hheads, hgives, hmoves, hstands'⟩ :=
    Exec.nextAll_cons hnodup hstands hmore
  rw [hrows] at hrows'
  obtain ⟨rfl, rfl⟩ := List.cons_eq_cons.mp hrows'
  obtain rfl : row'' = row := List.map_injective_iff.mpr (Option.some_injective _)
    (hheads.symm.trans hheads')
  exact ⟨vs, w', hnext, hgives, hmoves, hnodup, ess.map List.tail, by simpa using hne, hstands',
    rfl⟩

/-- Behind the last row one of them comes to its end. -/
theorem next_nil (h : StandTogether sequences w sources []) :
    ∃ w', (∀ call fuel, Exec.nextAll (Exec.next call (fuel + 1)) sources w = .ok none w') ∧
      Moves sources w w' := by
  obtain ⟨hnodup, ess, hne, hstands, hrows⟩ := h
  refine Exec.nextAll_none hnodup hstands ?_
  by_contra hmore
  obtain ⟨row, hrows', -⟩ :=
    exists_rows_eq_cons hne fun es hes hempty => hmore (hempty ▸ hes)
  rw [hrows] at hrows'
  cases hrows'

end StandTogether

/-! ## New iterators -/

/-- The second world has some iterators more. -/
def Opens (w : World) (new : List Iteration) (w' : World) : Prop :=
  w' = { w with store := { w.store with iterators := w.store.iterators ++ new.toArray } }

namespace Opens

variable {w w₁ w' : World} {new new' : List Iteration}

theorem nil (w : World) : Opens w [] w := by simp [Opens]

/-- New iterators after new iterators. -/
theorem trans (h : Opens w new w₁) (h' : Opens w₁ new' w') : Opens w (new ++ new') w' := by
  subst h h'
  simp [Opens, Array.append_assoc]

/-- Lists stay as they are. -/
theorem items_eq (h : Opens w new w') (ref : Nat) : w'.store.items ref = w.store.items ref := by
  subst h
  rfl

/-- What a value has to go through stays as it is. -/
theorem elements_eq (h : Opens w new w') (x : Value) :
    w'.store.elements x = w.store.elements x := by
  subst h
  cases x <;> rfl

theorem size_eq (h : Opens w new w') :
    w'.store.iterators.size = w.store.iterators.size + new.length := by
  subst h
  simp

/-- The iterators that there were stay. -/
theorem getElem?_eq (h : Opens w new w') {ref : Nat} (href : ref < w.store.iterators.size) :
    w'.store.iterators[ref]? = w.store.iterators[ref]? := by
  subst h
  exact Array.getElem?_append_left href

/-- The new iterators come behind them. -/
theorem getElem?_new (h : Opens w new w') (i : Nat) :
    w'.store.iterators[w.store.iterators.size + i]? = new[i]? := by
  subst h
  rw [Array.getElem?_append_right (Nat.le_add_right _ _), Nat.add_sub_cancel_left,
    List.getElem?_toArray]

/-- What is left of a sequence stays the same while new iterators are made. -/
theorem stands {sequences : List Value} {ref : Nat} {es : List Element} (h : Opens w new w')
    (hstands : Stands sequences w ref es) : Stands sequences w' ref es :=
  hstands.of_same (h.getElem?_eq hstands.lt_size) fun l _ => h.items_eq l

end Opens

namespace Exec

variable {w : World}

/-- An iterator is made for a cursor. -/
theorem newCursor_eq (w : World) (cursor : Cursor) :
    ∃ w', (liftM (Op.newCursor cursor) : Exec Nat) w = .ok w.store.iterators.size w' ∧
      Opens w [{ cursor }] w' :=
  ⟨_, rfl, by simp [Opens]⟩

/-- The same, as a value. -/
theorem newIterator_eq (w : World) (cursor : Cursor) :
    ∃ w', (liftM (Op.newIterator cursor) : Exec Value) w =
        .ok (.iterator w.store.iterators.size) w' ∧ Opens w [{ cursor }] w' :=
  ⟨_, rfl, by simp [Opens]⟩

/-- A new iterator over a sequence has all of the items before it. -/
theorem cursorOf_eq {x : Value} (hx : x.IsSequence) {sequences : List Value} (hmem : x ∈ sequences)
    (w : World) :
    ∃ it w', (liftM (Op.cursorOf x) : Exec Nat) w = .ok w.store.iterators.size w' ∧
      Opens w [it] w' ∧
      Stands sequences w' w.store.iterators.size (w.store.elements x) := by
  -- the kinds of sequences differ in their cursors alone
  have hopened {c : Cursor} (hc : c.IsSource) (hes : w.store.remaining c = w.store.elements x)
      (hlists : ∀ l position, c = .list l position → .list l ∈ sequences)
      (hrun : (liftM (Op.cursorOf x) : Exec Nat) w = (liftM (Op.newCursor c) : Exec Nat) w) :
      ∃ it w', (liftM (Op.cursorOf x) : Exec Nat) w = .ok w.store.iterators.size w' ∧
        Opens w [it] w' ∧
        Stands sequences w' w.store.iterators.size (w.store.elements x) := by
    obtain ⟨w', hnew, hopens⟩ := newCursor_eq w c
    refine ⟨_, w', hrun.trans hnew, hopens, c, hopens.getElem?_new 0, hc, ?_, hlists⟩
    rw [← hes]
    exact Store.remaining_congr fun l _ _ => hopens.items_eq l
  cases x with
  | list ref =>
      refine hopened (c := .list ref 0) trivial rfl ?_ rfl
      rintro l position ⟨⟩
      exact hmem
  | tuple items id => exact hopened (c := .items _ items) trivial rfl nofun rfl
  | str text id => exact hopened (c := .chars text.toList) trivial rfl nofun rfl
  | range r id => exact hopened (c := .range r 0 r.length) trivial rfl nofun rfl
  | _ => exact hx.elim

/-- One iterator is made over each of several sequences. -/
theorem zipSources_eq {xs sequences : List Value} (hxs : ∀ x ∈ xs, x.IsSequence ∧ x ∈ sequences)
    (i : Nat) (w : World) :
    ∃ new w', zipSources i xs w =
        .ok (List.range' w.store.iterators.size xs.length) w' ∧
      Opens w new w' ∧ new.length = xs.length ∧
      List.Forall₂ (Stands sequences w') (List.range' w.store.iterators.size xs.length)
        (xs.map w.store.elements) := by
  -- opening one source does not change the items of those that follow
  induction xs generalizing i w with
  | nil => exact ⟨[], w, rfl, .nil w, rfl, .nil⟩
  | cons x xs ih =>
      obtain ⟨hx, hmem⟩ := hxs x List.mem_cons_self
      obtain ⟨it, w₁, hcursor, hopens, hstands⟩ := cursorOf_eq hx hmem w
      obtain ⟨new, w', hrest, hopens', hnew, hall⟩ :=
        ih (fun y hy => hxs y (List.mem_cons_of_mem x hy)) (i + 1) w₁
      have helements : xs.map w₁.store.elements = xs.map w.store.elements :=
        List.map_congr_left fun y _ => hopens.elements_eq y
      have hsize : w₁.store.iterators.size = w.store.iterators.size + 1 := hopens.size_eq
      rw [hsize] at hrest hall
      rw [helements] at hall
      refine ⟨it :: new, w', ?_, hopens.trans hopens', by simp [hnew], ?_⟩
      · have htry : orError (liftM (Op.cursorOf x) : Exec Nat)
            (.raise .type s!"zip argument #{i} must support iteration") w =
            .ok w.store.iterators.size w₁ := tryCatch_of_ok hcursor
        rw [zipSources]
        refine (bind_of_ok htry).trans ?_
        exact (bind_of_ok hrest).trans rfl
      · exact .cons (hopens'.stands hstands) hall

end Exec

end Wordcode
