import Wordcode.Machine
import Wordcode.Proofs.Locality
import Wordcode.Proofs.Order
import Wordcode.Proofs.StableSort
import Mathlib

namespace Wordcode

/-! # Sorting values by keys

Items are sorted by keys, which a function gives for them one after the other. Keys that have an
order to each other are ranked by how many of them come before, so that the sort is the stable sort
by these ranks. In the descending direction it is not the result that is turned around but the
comparison, and so items with equal keys stay in order here, too.

* `Exec.keysOf` are the calls of the key function, and `Exec.sortItems_eq` says that sorting makes
  these calls and then compares.
* `Store.Sortable` are the keys that can be sorted by, and `Store.Sortable.before_eq` ranks them.
* `Store.SortedBy` says what it is to sort, in terms of the positions of the items.
* `World.Places` says that a list is in a block, and `Exec.cellKeys_eq` that reading its cells one
  by one makes the same calls as long as it stays there.
* `Exec.sort_sortedBy` is the result, and `Exec.not_sort_sortedBy_assigning` is about a key function
  that changes the list.
-/

/-! ## Keys -/

namespace Exec

/-- The keys of items. The key function is called for each of them once, in order; where it returns
nothing there is no key. -/
def keysOf (call : Callback) (key? : Option Value) (items : List Value) :
    Exec (List (Option Value)) :=
  items.mapM (keyOf call key?)

/-- Asking for the keys and pairing them with their items. -/
theorem mapM_keyOf_pair (call : Callback) (key? : Option Value) (items : List Value) :
    (items.mapM fun item => do return (← keyOf call key? item, item)) =
      (fun keys => keys.zip items) <$> keysOf call key? items := by
  induction items with
  | nil => simp [keysOf]
  | cons item items ih =>
      rw [List.mapM_cons, ih]
      simp [keysOf]

/-- First all keys are asked for, and then items are compared. -/
theorem sortItems_eq (call : Callback) (options : SortOptions) (items : List Value) :
    sortItems call options items = (do
      let keys ← keysOf call options.key? items
      inOrder options.descending (keys.zip items)) := by
  unfold sortItems
  rw [mapM_keyOf_pair]
  exact bind_map_left _ _ _

/-- There is a key for each item. -/
theorem length_keysOf {call : Callback} {key? : Option Value} {items keys : List Value}
    {w w' : World} (h : keysOf call key? items w = .ok (keys.map some) w') :
    keys.length = items.length :=
  (List.length_map some).symm.trans (length_of_mapM h)

end Exec

/-! ## Ranks -/

/-- A member that passes only one of two tests makes a difference to how many pass. -/
theorem countP_lt_countP {α : Type} {p q : α → Bool} {xs : List α} {a : α}
    (h : ∀ x ∈ xs, p x = true → q x = true) (ha : a ∈ xs) (hp : p a = false) (hq : q a = true) :
    xs.countP p < xs.countP q := by
  obtain ⟨front, back, rfl⟩ := List.append_of_mem ha
  have hfront : front.countP p ≤ front.countP q :=
    List.countP_mono_left fun x hx => h x (by simp [hx])
  have hback : back.countP p ≤ back.countP q :=
    List.countP_mono_left fun x hx => h x (by simp [hx])
  simp only [List.countP_append, List.countP_cons, hp, hq, Bool.false_eq_true, if_false, if_true]
  omega

namespace Store

variable {s : Store} {a b c : Value} {keys : List Value} {descending : Bool}

/-- Keys that can be sorted by: they have no floats and no cycles, and each two of them have an
order. -/
structure Sortable (s : Store) (keys : List Value) : Prop where
  sound : s.SoundDicts
  ordinary : ∀ k ∈ keys, s.Ordinary k
  ordered : keys.Pairwise fun a b => (s.compare? a b).isSome = true

/-- Whether a key comes before another one in a direction. -/
def before (s : Store) (descending : Bool) (a b : Value) : Bool :=
  if descending then s.compare? b a == some .lt else s.compare? a b == some .lt

/-- Keys that have an order are compared without any change. -/
theorem less_eq (h : (s.compare? a b).isSome = true) :
    Op.less a b s = .ok (s.compare? a b == some .lt) s := by
  obtain ⟨o, ho⟩ := Option.isSome_iff_exists.mp h
  simp [Op.less, Op.compare, ho, bind, EStateM.bind, get, getThe, MonadStateOf.get, EStateM.get,
    pure, EStateM.pure]

/-- Among two keys or more, each has an order to itself as well. -/
theorem Sortable.isSome_compare? (h : s.Sortable keys) (hlength : 2 ≤ keys.length) (ha : a ∈ keys)
    (hb : b ∈ keys) : (s.compare? a b).isSome = true := by
  -- two positions are compared in one order, and the other one follows
  have hapart {i j : Nat} (hi : i < keys.length) (hj : j < keys.length) (hne : i ≠ j) :
      (s.compare? keys[i] keys[j]).isSome = true := by
    rcases Nat.lt_or_gt_of_ne hne with hlt | hgt
    · exact List.pairwise_iff_getElem.mp h.ordered i j hi hj hlt
    · rw [(h.ordinary _ (List.getElem_mem hj)).compare?_swap h.sound _
        (h.ordinary _ (List.getElem_mem hi)), Option.isSome_map]
      exact List.pairwise_iff_getElem.mp h.ordered j i hj hi hgt
  obtain ⟨i, hi, rfl⟩ := List.mem_iff_getElem.mp ha
  obtain ⟨j, hj, rfl⟩ := List.mem_iff_getElem.mp hb
  by_cases hne : i = j
  · -- there is another position, and what has an order to some value has one to itself
    subst hne
    obtain ⟨m, hm, hne⟩ : ∃ m < keys.length, i ≠ m := by
      by_cases hzero : i = 0
      · exact ⟨1, by omega, by omega⟩
      · exact ⟨0, by omega, hzero⟩
    obtain ⟨o, ho⟩ := Option.isSome_iff_exists.mp (hapart hi hm hne)
    rw [(h.ordinary _ ha).compare?_self h.sound (h.ordinary _ (List.getElem_mem hm)) ho]
    rfl
  · exact hapart hi hj hne

section

variable (hs : s.SoundDicts) (ha : s.Ordinary a) (hb : s.Ordinary b) (hc : s.Ordinary c)
include hs ha

/-- No key comes before itself. -/
theorem before_self (descending : Bool) : s.before descending a a = false := by
  have hirrefl : s.compare? a a ≠ some .lt := fun hlt => by
    cases (ha.compare?_eq_iff hs a ha .lt hlt).mpr (ha.equals_refl hs)
  cases descending <;> simpa [before] using hirrefl

include hb hc

/-- What comes before a key comes before what comes after it. -/
theorem before_trans (hab : s.before descending a b = true)
    (hbc : s.before descending b c = true) : s.before descending a c = true := by
  cases descending with
  | false =>
      simp only [before, Bool.false_eq_true, if_false, beq_iff_eq] at *
      exact ha.compare?_trans hs b c hb hc hab hbc
  | true =>
      simp only [before, if_true, beq_iff_eq] at *
      exact hc.compare?_trans hs b a hb ha hbc hab

/-- The same keys come before equal ones. -/
theorem before_congr (hab : s.compare? a b = some .eq) :
    s.before descending c a = s.before descending c b := by
  have hequal := (ha.compare?_eq_iff hs b hb .eq hab).mp rfl
  rw [before, before, ha.compare?_congr hs b c hb hc hequal,
    hc.compare?_congr_right hs ha hb hequal]

end

/-- The rank of a key: how many of the keys come before it. -/
def place (s : Store) (descending : Bool) (keys : List Value) (k : Value) : Nat :=
  keys.countP fun k' => s.before descending k' k

/-- A key that comes before another one has a lower rank. -/
theorem Sortable.place_lt (h : s.Sortable keys) (ha : a ∈ keys) (hb : b ∈ keys)
    (hbefore : s.before descending a b = true) :
    s.place descending keys a < s.place descending keys b := by
  have ha' := h.ordinary a ha
  have hb' := h.ordinary b hb
  exact countP_lt_countP (fun k hk hka => before_trans h.sound (h.ordinary k hk) ha' hb' hka
    hbefore) ha (before_self h.sound ha' descending) hbefore

/-- Equal keys have one rank. -/
theorem Sortable.place_eq (h : s.Sortable keys) (ha : a ∈ keys) (hb : b ∈ keys)
    (hequal : s.compare? a b = some .eq) :
    s.place descending keys a = s.place descending keys b := by
  refine List.countP_congr fun k hk => ?_
  rw [before_congr h.sound (h.ordinary a ha) (h.ordinary b hb) (h.ordinary k hk) hequal]

/-- The direction in which a key comes before another one. -/
def direction (descending : Bool) : Ordering := if descending then .gt else .lt

/-- Two keys are ordered like their ranks. -/
theorem Sortable.compare?_cases (h : s.Sortable keys) (hlength : 2 ≤ keys.length) (ha : a ∈ keys)
    (hb : b ∈ keys) (descending : Bool) :
    s.place descending keys a < s.place descending keys b ∧
        s.before descending a b = true ∧ s.compare? a b = some (direction descending) ∨
      s.place descending keys a = s.place descending keys b ∧
        s.before descending a b = false ∧ s.compare? a b = some .eq ∨
      s.place descending keys b < s.place descending keys a ∧ s.before descending a b = false := by
  obtain ⟨o, ho⟩ := Option.isSome_iff_exists.mp (h.isSome_compare? hlength ha hb)
  have hswap := (h.ordinary a ha).compare?_swap h.sound b (h.ordinary b hb)
  rw [ho] at hswap
  by_cases hequal : o = .eq
  · subst hequal
    refine .inr (.inl ⟨h.place_eq ha hb ho, ?_, ho⟩)
    cases descending <;> simp [before, ho, hswap]
  by_cases hfirst : o = direction descending
  · subst hfirst
    have hbefore : s.before descending a b = true := by
      cases descending <;> simp [before, direction, ho, hswap]
    exact .inl ⟨h.place_lt ha hb hbefore, hbefore, ho⟩
  · have hbefore : s.before descending b a = true ∧ s.before descending a b = false := by
      cases descending <;> cases o <;> simp_all [before, direction]
    exact .inr (.inr ⟨h.place_lt hb ha hbefore.1, hbefore.2⟩)

/-- A key comes before another one if its rank is lower. -/
theorem Sortable.before_eq (h : s.Sortable keys) (hlength : 2 ≤ keys.length) (ha : a ∈ keys)
    (hb : b ∈ keys) (descending : Bool) : s.before descending a b =
      decide (s.place descending keys a < s.place descending keys b) := by
  rcases h.compare?_cases hlength ha hb descending with ⟨hlt, hbefore, -⟩ | ⟨heq, hbefore, -⟩ |
    ⟨hgt, hbefore⟩ <;> rw [hbefore] <;> simp <;> omega

/-! ## What it is to sort -/

/-- The second list has the items of the first one in the order of their keys in a direction, and
items with equal keys in the order in which they stand. These are the positions that they come
from. -/
structure SortedBy (s : Store) (descending : Bool) (keys items : List Value) (order : List Nat)
    (sorted : List Value) : Prop where
  perm : order.Perm (List.range items.length)
  items_eq : sorted.map some = order.map (items[·]?)
  ordered : order.Pairwise fun i j => ∃ a b, keys[i]? = some a ∧ keys[j]? = some b ∧
    (s.compare? a b = some (direction descending) ∨ s.compare? a b = some .eq ∧ i < j)

section

variable {α : Type}

/-- The rank of a key, if there is one. -/
def placeOf (s : Store) (descending : Bool) (keys : List Value) (k? : Option Value) : Nat :=
  k?.elim 0 (s.place descending keys)

/-- Keyed things are compared by the ranks of their keys. -/
theorem Sortable.ranks (h : s.Sortable keys) (hlength : 2 ≤ keys.length) (descending : Bool)
    (xs : List α) :
    Sort.Ranks (fun a b : Option Value × α =>
        if descending then Exec.lessKey b.1 a.1 else Exec.lessKey a.1 b.1)
      s (fun p => s.placeOf descending keys p.1) ((keys.map some).zip xs) := by
  rintro ⟨a?, x⟩ ha ⟨b?, y⟩ hb
  obtain ⟨a, ha', rfl⟩ := List.mem_map.mp (List.of_mem_zip ha).1
  obtain ⟨b, hb', rfl⟩ := List.mem_map.mp (List.of_mem_zip hb).1
  show _ = EStateM.Result.ok (decide (s.place descending keys a < s.place descending keys b)) s
  rw [← h.before_eq hlength ha' hb' descending]
  cases descending with
  | false => simpa [before, Exec.lessKey] using less_eq (h.isSome_compare? hlength ha' hb')
  | true => simpa [before, Exec.lessKey] using less_eq (h.isSome_compare? hlength hb' ha')

/-- Things with their keys, in the order of the ranks of the keys. -/
def keyedSort (s : Store) (descending : Bool) (keys : List Value) (xs : List α) :
    List (Value × α) :=
  (keys.zip xs).mergeSort fun a b =>
    decide (s.place descending keys a.1 ≤ s.place descending keys b.1)

/-- Keys that are all there are sorted like plain ones. -/
theorem mergeSort_map_some (s : Store) (descending : Bool) (keys : List Value) (xs : List α) :
    (((keys.map some).zip xs).mergeSort fun a b =>
        decide (s.placeOf descending keys a.1 ≤ s.placeOf descending keys b.1)) =
      (s.keyedSort descending keys xs).map fun p => (some p.1, p.2) := by
  have hzip : (keys.map some).zip xs = (keys.zip xs).map fun p => (some p.1, p.2) :=
    List.zip_map_left
  rw [hzip, keyedSort]
  symm
  apply List.map_mergeSort
  intro a _ b _
  rfl

/-- Sorting by keys is sorting by ranks. -/
theorem Sortable.inOrder_eq (h : s.Sortable keys) (descending : Bool) (xs : List α) :
    Exec.inOrder descending ((keys.map some).zip xs) s =
      .ok ((s.keyedSort descending keys xs).map (·.2)) s := by
  have hstable : (Sort.stable (fun a b : Option Value × α =>
      if descending then Exec.lessKey b.1 a.1 else Exec.lessKey a.1 b.1)
        ((keys.map some).zip xs) : Op (List (Option Value × α))) s =
      .ok ((s.keyedSort descending keys xs).map fun p => (some p.1, p.2)) s := by
    rw [← mergeSort_map_some]
    by_cases hlength : 2 ≤ keys.length
    · exact Sort.stable_eq_mergeSort (h.ranks hlength descending xs)
    · -- there is nothing to compare
      match hkeyed : (keys.map some).zip xs with
      | [] => rw [List.mergeSort_nil]; rfl
      | [keyed] => rw [List.mergeSort_singleton]; rfl
      | _ :: _ :: _ =>
          have := congrArg List.length hkeyed
          simp only [List.length_zip, List.length_map, List.length_cons] at this
          omega
  refine (bind_of_ok hstable).trans ?_
  rw [List.map_map]
  rfl

end

/-- To sort keyed items by the ranks of their keys is to sort the items by their keys. -/
theorem Sortable.exists_sortedBy (h : s.Sortable keys) (descending : Bool) {items : List Value}
    (hlength : keys.length = items.length) :
    ∃ order, s.SortedBy descending keys items order
      ((s.keyedSort descending keys items).map (·.2)) := by
  obtain ⟨order, hperm, hitems, hordered⟩ :=
    Sort.exists_order (fun p : Value × Value => s.place descending keys p.1) (keys.zip items)
  have hsecond : (keys.zip items).map (·.2) = items := List.map_snd_zip hlength.ge
  refine ⟨order, by simpa [hlength] using hperm, ?_, hordered.imp ?_⟩
  · have hmap := congrArg (List.map (Option.map (·.2))) hitems
    simpa [keyedSort, Function.comp_def, ← List.getElem?_map, hsecond] using hmap
  · rintro i j ⟨p, q, hp, hq, hplace⟩
    obtain ⟨hpkey, -⟩ := List.getElem?_zip_eq_some.mp hp
    obtain ⟨hqkey, -⟩ := List.getElem?_zip_eq_some.mp hq
    -- items at different positions, so there are two keys to compare
    have hdistinct : i ≠ j := by
      rintro rfl
      rw [hp, Option.some.injEq] at hq
      subst hq
      omega
    have hlength : 2 ≤ keys.length := by
      have := (List.getElem?_eq_some_iff.mp hpkey).1
      have := (List.getElem?_eq_some_iff.mp hqkey).1
      omega
    refine ⟨p.1, q.1, hpkey, hqkey, ?_⟩
    rcases h.compare?_cases hlength (List.mem_of_getElem? hpkey) (List.mem_of_getElem? hqkey)
      descending with ⟨-, -, hcompare⟩ | ⟨heq, -, hcompare⟩ | ⟨hgt, -⟩
    · exact .inl hcompare
    · exact .inr ⟨hcompare, by omega⟩
    · omega

end Store

namespace Exec

/-- Items are sorted by the ranks of their keys. -/
theorem sortItems_eq_keyedSort {call : Callback} {options : SortOptions} {items keys : List Value}
    {w w' : World} (hkeys : keysOf call options.key? items w = .ok (keys.map some) w')
    (h : w'.store.Sortable keys) : sortItems call options items w =
      .ok ((w'.store.keyedSort options.descending keys items).map (·.2)) w' := by
  rw [sortItems_eq, bind_of_ok hkeys]
  exact lift_of_ok (h.inOrder_eq options.descending items)

/-- Sorting items by keys that can be sorted by succeeds. The key function has been called for each
item once, in order, and nothing else has happened. -/
theorem sortItems_sortedBy {call : Callback} {options : SortOptions} {items keys : List Value}
    {w w' : World} (hkeys : keysOf call options.key? items w = .ok (keys.map some) w')
    (h : w'.store.Sortable keys) :
    ∃ sorted order, sortItems call options items w = .ok sorted w' ∧
      w'.store.SortedBy options.descending keys items order sorted := by
  obtain ⟨order, horder⟩ := h.exists_sortedBy options.descending (length_keysOf hkeys)
  exact ⟨_, order, sortItems_eq_keyedSort hkeys h, horder⟩

end Exec

/-! ## Sorting in place -/

/-- A list that is sorted is in a block, and making one changes nothing else. -/
theorem Store.list?_of_blockOf {ref block : Nat} {s s₁ : Store}
    (h : Op.blockOf ref s = .ok block s₁) :
    (s₁.blocks.getD block {}).list? = some ref ∧ ∃ blocks, s₁ = { s with blocks } := by
  unfold Op.blockOf at h
  change EStateM.Result.ok _ _ = _ at h
  cases hfind : s.blocks.toList.findIdx? (·.list? == some ref) with
  | some i =>
      rw [hfind] at h
      cases h
      obtain ⟨hi, hlist, -⟩ := List.findIdx?_eq_some_iff_getElem.mp hfind
      refine ⟨?_, s.blocks, rfl⟩
      rw [Array.getD_eq_getD_getElem?, Array.getElem?_eq_getElem hi]
      simpa using hlist
  | none =>
      rw [hfind] at h
      cases h
      exact ⟨by simp, _, rfl⟩

namespace Store

variable {s : Store} {α β : Type}

/-- Only the keys decide about the order. -/
theorem keyedSort_map (descending : Bool) (keys : List Value) (f : α → β) (xs : List α) :
    (s.keyedSort descending keys xs).map (fun p => (p.1, f p.2)) =
      s.keyedSort descending keys (xs.map f) := by
  unfold keyedSort
  rw [List.zip_map_right]
  exact List.map_mergeSort fun _ _ _ _ => rfl

/-- Sorting items is sorting their positions, and then reading the cells of which they are the first
ones. -/
theorem keyedSort_positions (descending : Bool) (keys items rest : List Value) :
    (s.keyedSort descending keys items).map (·.2) =
      ((s.keyedSort descending keys (List.range items.length)).map (·.2)).map
        fun i => (items ++ rest).getD i .none := by
  have hread : (List.range items.length).map (fun i => (items ++ rest).getD i .none) = items := by
    refine List.ext_getElem (by simp) fun i hi _ => ?_
    have hi : i < items.length := by simpa using hi
    simp [List.getElem?_append_left hi, hi]
  conv_lhs => rw [← hread, ← keyedSort_map, List.map_map]
  rw [List.map_map]
  rfl

end Store

/-- A list has these items, and is in a block. -/
structure World.Places (ref block : Nat) (items : List Value) (w : World) : Prop where
  items_eq : w.store.items ref = items
  list?_eq : (w.store.blocks.getD block {}).list? = some ref

namespace Exec

variable {call : Callback} {key? : Option Value} {options : SortOptions} {ref block : Nat}
  {items keys : List Value} {keys? : List (Option Value)} {w w₁ w' : World}

/-- Calls of the key function for some items leave a list in its place, as it is. -/
def LeavesInPlace (call : Callback) (key? : Option Value) (items : List Value) (ref block : Nat) :
    Prop :=
  ∀ item ∈ items, ∀ w k w' content, World.Places ref block content w →
    keyOf call key? item w = .ok k w' → World.Places ref block content w'

/-- The first cells of the block are those of the items. -/
theorem exists_cells (h : World.Places ref block items w) :
    ∃ rest, (liftM (Op.cells block) : Exec (List Value)) w = .ok (items ++ rest) w := by
  refine ⟨(w.store.blocks.getD block {}).rest, ?_⟩
  refine lift_of_ok (congrArg (EStateM.Result.ok · w.store) ?_)
  rw [Store.cells, h.list?_eq, Option.map_some, Option.getD_some, h.items_eq]

/-- The calls of the key function are those for the items, as long as these stay in place. The list
is split into what has been gone through and what is still to come. -/
theorem cellKeys_eq_from (front : List Value) {back : List Value}
    (hleaves : LeavesInPlace call key? back ref block)
    (hkeys : keysOf call key? back w = .ok keys? w')
    (hplace : World.Places ref block (front ++ back) w) :
    ((List.range' front.length back.length).mapM fun i => do
        let item := (← Op.cells block).getD i .none
        return (← keyOf call key? item, i) : Exec (List (Option Value × Nat))) w =
      .ok (keys?.zip (List.range' front.length back.length)) w' ∧
      World.Places ref block (front ++ back) w' := by
  induction back generalizing front keys? w with
  | nil =>
      cases hkeys
      exact ⟨rfl, hplace⟩
  | cons item back ih =>
      rw [keysOf, List.mapM_cons] at hkeys
      obtain ⟨key, w₁, hkey, hkeys⟩ := bind_eq_ok hkeys
      obtain ⟨rest, w₂, hrest, hkeys⟩ := bind_eq_ok hkeys
      cases hkeys
      -- the call has left the items where they were, so the next cell has the next item
      have hplace₁ := hleaves item List.mem_cons_self w key w₁ _ hplace hkey
      obtain ⟨behind, hcells⟩ := exists_cells hplace
      have hitem : ((front ++ item :: back) ++ behind).getD front.length .none = item := by simp
      have hfront : front ++ item :: back = (front ++ [item]) ++ back := by simp
      rw [hfront] at hplace₁ ⊢
      obtain ⟨hrun, hplace'⟩ :=
        ih (front ++ [item]) (fun v hv => hleaves v (List.mem_cons_of_mem _ hv)) hrest hplace₁
      refine ⟨?_, hplace'⟩
      rw [List.length_append, List.length_singleton] at hrun
      rw [List.length_cons, List.range'_succ, List.mapM_cons, bind_assoc, bind_of_ok hcells, hitem,
        bind_assoc, bind_of_ok hkey, pure_bind, bind_of_ok hrun]
      rfl

/-- Reading the cells gives the keys of the items. -/
theorem cellKeys_eq (hleaves : LeavesInPlace call key? items ref block)
    (hkeys : keysOf call key? items w = .ok keys? w') (hplace : World.Places ref block items w) :
    cellKeys call key? block items.length w = .ok (keys?.zip (List.range items.length)) w' ∧
      World.Places ref block items w' := by
  have h := cellKeys_eq_from [] hleaves hkeys hplace
  rwa [List.length_nil, ← List.range_eq_range'] at h

/-- Filling the cells of a list with as many values gives it these as its items. -/
theorem exists_setCells (hplace : World.Places ref block items w) {values : List Value}
    (hlength : values.length = items.length) :
    ∃ s, (liftM (Op.setCells block values) : Exec Unit) w = .ok () { w with store := s } ∧
      s.items ref = values ∧
      s = { w.store with lists := w.store.lists.setIfInBounds ref values, blocks := s.blocks } := by
  have hlists (s : Store) (h : s.lists = w.store.lists.setIfInBounds ref values) :
      s.items ref = values := by
    rw [Store.items, h, Array.getD_eq_getD_getElem?, Array.getElem?_setIfInBounds_self]
    split
    · rfl
    · next hout =>
      have hnil : items = [] := by
        rw [← hplace.items_eq, Store.items, Array.getD_eq_getD_getElem?,
          Array.getElem?_eq_none (Nat.le_of_not_lt hout), Option.getD_none]
      rw [hnil, List.length_nil, List.length_eq_zero_iff] at hlength
      rw [hlength, Option.getD_none]
  refine ⟨_, lift_of_ok rfl, ?_⟩
  dsimp only
  rw [hplace.list?_eq]
  dsimp only
  -- the cells of the items are filled, and those behind them are left
  have htaken : ((values ++ (w.store.cells (w.store.blocks.getD block {})).drop
      values.length).take (w.store.items ref).length) = values := by
    simp [hplace.items_eq, ← hlength]
  rw [htaken]
  exact ⟨hlists _ rfl, rfl⟩

/-- Sorting a list in place fills its block with what is there when the keys have been ordered. -/
theorem sortList_eq_setCells {s₁ : Store} {keyed : List (Option Value × Nat)} {order : List Nat}
    {cells : List Value} (hblock : Op.blockOf ref w.store = .ok block s₁)
    (hkeyed : cellKeys call options.key? block (w.store.items ref).length
      { w with store := s₁ } = .ok keyed w')
    (horder : inOrder options.descending keyed w'.store = .ok order w'.store)
    (hcells : (liftM (Op.cells block) : Exec (List Value)) w' = .ok cells w') :
    sortList call options ref w =
      (liftM (Op.setCells block (order.map fun i => cells.getD i .none)) : Exec Unit) w' := by
  have hcount : (liftM (Op.items ref) : Exec (List Value)) w = .ok (w.store.items ref) w := rfl
  rw [sortList, bind_of_ok hcount, bind_of_ok (lift_of_ok hblock), bind_of_ok hkeyed,
    bind_of_ok (lift_of_ok horder), bind_of_ok hcells]

/-- Sorting a list in place, when the calls of the key function leave it there. -/
theorem sortList_eq_keyedSort {s₁ : Store} (hblock : Op.blockOf ref w.store = .ok block s₁)
    (hleaves : LeavesInPlace call options.key? (w.store.items ref) ref block)
    (hkeys : keysOf call options.key? (w.store.items ref) { w with store := s₁ } =
      .ok (keys.map some) w')
    (h : w'.store.Sortable keys) :
    let sorted := (w'.store.keyedSort options.descending keys (w.store.items ref)).map (·.2)
    ∃ s, sortList call options ref w = .ok () { w' with store := s } ∧ s.items ref = sorted ∧
      s = { w'.store with
        lists := w'.store.lists.setIfInBounds ref sorted, blocks := s.blocks } := by
  obtain ⟨hlist, blocks, hblocks⟩ := Store.list?_of_blockOf hblock
  have hplace : World.Places ref block (w.store.items ref) { w with store := s₁ } :=
    ⟨by rw [hblocks]; rfl, hlist⟩
  -- the items are still in their place after the calls
  obtain ⟨hkeyed, hplace'⟩ := cellKeys_eq hleaves hkeys hplace
  obtain ⟨rest, hcells⟩ := exists_cells hplace'
  have hlength := length_keysOf hkeys
  have hsize : ((w'.store.keyedSort options.descending keys (w.store.items ref)).map (·.2)).length =
      (w.store.items ref).length := by
    simp [Store.keyedSort, hlength]
  obtain ⟨s, hset, hstore⟩ := exists_setCells hplace' hsize
  refine ⟨s, ?_, hstore⟩
  rw [sortList_eq_setCells hblock hkeyed (h.inOrder_eq options.descending _) hcells,
    ← Store.keyedSort_positions]
  exact hset

/-- Sorting by keys that can be sorted by succeeds. The key function is called for each item once,
in order. The result has the items in the order of their keys, and those with equal keys in the
order in which they stood, in both directions. For a copy of the items, this is so whatever the key
function does. A list that is sorted in place must be left alone by the calls of the key function;
nothing else is changed but its items. -/
theorem sort_sortedBy (call : Callback) (options : SortOptions) :
    (∀ items keys w w', keysOf call options.key? items w = .ok (keys.map some) w' →
        w'.store.Sortable keys →
      ∃ sorted order, sortItems call options items w = .ok sorted w' ∧
        w'.store.SortedBy options.descending keys items order sorted) ∧
      ∀ ref block keys w s₁ w', Op.blockOf ref w.store = .ok block s₁ →
        LeavesInPlace call options.key? (w.store.items ref) ref block →
        keysOf call options.key? (w.store.items ref) { w with store := s₁ } =
          .ok (keys.map some) w' →
        w'.store.Sortable keys →
        ∃ s sorted order, sortList call options ref w = .ok () { w' with store := s } ∧
          w'.store.SortedBy options.descending keys (w.store.items ref) order sorted ∧
          s.items ref = sorted ∧ s = { w'.store with
            lists := w'.store.lists.setIfInBounds ref sorted, blocks := s.blocks } := by
  refine ⟨fun items keys w w' => sortItems_sortedBy, ?_⟩
  intro ref block keys w s₁ w' hblock hleaves hkeys h
  obtain ⟨s, hrun, hstore⟩ := sortList_eq_keyedSort hblock hleaves hkeys h
  obtain ⟨order, horder⟩ := h.exists_sortedBy options.descending (length_keysOf hkeys)
  exact ⟨s, _, order, hrun, horder, hstore⟩

/-- Sorting by absolute value, from the greatest to the least. -/
theorem sort_sortedBy_abs :
    let call := (Machine.surroundings {} 2).callback
    let options : SortOptions := ⟨some (.builtin .abs), true⟩
    let items : List Value := [.int 2, .int (-5), .int 5]
    let keys : List Value := [.int 2, .int 5, .int 5]
    let w : World := { store := { lists := #[items] } }
    let w₁ : World := { store := { lists := #[items], blocks := #[{ list? := some 0 }] } }
    keysOf call options.key? items w = .ok (keys.map some) w ∧ w.store.Sortable keys ∧
      Op.blockOf 0 w.store = .ok 0 w₁.store ∧ LeavesInPlace call options.key? items 0 0 ∧
      keysOf call options.key? items w₁ = .ok (keys.map some) w₁ ∧ w₁.store.Sortable keys ∧
      (∃ order, sortItems call options items w = .ok [.int (-5), .int 5, .int 2] w ∧
        w.store.SortedBy true keys items order [.int (-5), .int 5, .int 2]) ∧
      ∃ s order, sortList call options 0 w = .ok () { w₁ with store := s } ∧
        w₁.store.SortedBy true keys items order [.int (-5), .int 5, .int 2] ∧
        s.items 0 = [.int (-5), .int 5, .int 2] := by
  intro call options items keys w w₁
  have hcall (n : Int64) (w : World) : keyOf call options.key? (.int n) w =
      .ok (some (.int (if n < 0 then -n else n))) w := rfl
  have hint {v : Value} {l : List Int64} (h : v ∈ l.map Value.int) : ∃ n, v = .int n := by
    obtain ⟨n, -, rfl⟩ := List.mem_map.mp h
    exact ⟨n, rfl⟩
  have hordinary (s : Store) : ∀ k ∈ keys, s.Ordinary k := by
    intro k hk
    obtain ⟨n, rfl⟩ := hint (l := [2, 5, 5]) hk
    exact .of_atom rfl trivial
  have hsortable : w.store.Sortable keys :=
    ⟨fun d hd => (nomatch hd), hordinary _, by decide +kernel⟩
  have hsortable₁ : w₁.store.Sortable keys :=
    ⟨fun d hd => (nomatch hd), hordinary _, by decide +kernel⟩
  -- taking absolute values changes nothing
  have hleaves : LeavesInPlace call options.key? items 0 0 := by
    intro item hitem w k w' content hplace hkey
    obtain ⟨n, rfl⟩ := hint (l := [2, -5, 5]) hitem
    cases (hcall n w).symm.trans hkey
    exact hplace
  obtain ⟨hcopy, hplace⟩ := sort_sortedBy call options
  obtain ⟨sorted, order, hsorted, horder⟩ := hcopy items keys w w rfl hsortable
  obtain ⟨s, sorted₁, order₁, hsorted₁, horder₁, hitems, -⟩ :=
    hplace 0 0 keys w w₁.store w₁ rfl hleaves rfl hsortable₁
  have hcopied : sortItems call options items w = .ok [.int (-5), .int 5, .int 2] w := by
    cbv
  obtain ⟨w₂, hplaced, hitems₂⟩ : ∃ w₂, sortList call options 0 w = .ok () w₂ ∧
      w₂.store.items 0 = [.int (-5), .int 5, .int 2] := by
    refine ⟨?_, ?_, ?_⟩
    rotate_left 1
    · cbv
      rfl
    · rfl
  cases hsorted.symm.trans hcopied
  cases hsorted₁.symm.trans hplaced
  cases hitems.symm.trans hitems₂
  exact ⟨rfl, hsortable, rfl, hleaves, rfl, hsortable₁, ⟨order, hsorted, horder⟩,
    s, order₁, hsorted₁, horder₁, hitems⟩

/-- A function that assigns 100 to the first item of the list `xs` and then returns its argument. -/
def assigningKey : Function where
  code :=
    { name := "k", serial := 1, variableNames := ["x"], positional := 1, names := ["xs"]
      constants := [.int 100, .int 0]
      instructions := [0x64, 0, 0x74, 0, 0x64, 1, 0x3c, 0, 0x7c, 0, 0x53, 0] }
  keywordDefaults := 0
  snapshot := 0

/-- A running program in which `xs` is a list of three items. -/
def assigningWorld : World where
  running := true
  globals := [("xs", .list 0)]
  store :=
    { lists := #[[.int 3, .int 1, .int 2]], dicts := #[{}], scopes := #[[]]
      functions := #[assigningKey] }

/-- Each key is the item itself. -/
theorem keysOf_assigningKey :
    ∃ w, keysOf (Machine.surroundings {} 12).callback (some (.function 0))
      [.int 3, .int 1, .int 2] assigningWorld =
        .ok [some (.int 3), some (.int 1), some (.int 2)] w := by
  refine ⟨?_, Eq.trans (b := ?_) ?_ ?_⟩
  rotate_left 2
  · cbv
    rfl
  · rfl

/-- Reading the cells gives the same keys, but the first item has been replaced meanwhile. -/
theorem cellKeys_assigningKey :
    let s := { assigningWorld.store with blocks := #[{ list? := some 0 }] }
    ∃ w, cellKeys (Machine.surroundings {} 12).callback (some (.function 0)) 0 3
        { assigningWorld with store := s } =
      .ok [(some (.int 3), 0), (some (.int 1), 1), (some (.int 2), 2)] w ∧
      World.Places 0 0 [.int 100, .int 1, .int 2] w := by
  refine ⟨?_, Eq.trans (b := ?_) ?_ ?_, ?_, ?_⟩
  rotate_left 2
  · cbv
    rfl
  all_goals rfl

/-- The order of these keys. -/
theorem inOrder_assigningKey (s : Store) :
    inOrder false [(some (.int 3), 0), (some (.int 1), 1), (some (.int 2), 2)] s =
      .ok [1, 2, 0] s := by
  have hless (a b : Int64) :
      lessKey (some (.int a)) (some (.int b)) s = .ok (compare a b == .lt) s := by
    have hcompare : s.compare? (.int a) (.int b) = some (compare a b) := by
      unfold Store.compare?
      cases s.size <;> rfl
    rw [lessKey, Store.less_eq (by rw [hcompare]; rfl), hcompare, Option.some_beq_some]
  have h₁ : (compare (1 : Int64) 3 == .lt) = true := by decide
  have h₂ : (compare (2 : Int64) 3 == .lt) = true := by decide
  have h₃ : (compare (2 : Int64) 1 == .lt) = false := by decide
  simp [inOrder, Sort.stable, Sort.blocks, Sort.blockSize, Sort.insertion, Sort.insert,
    Sort.mergeAll, bind, EStateM.bind, pure, EStateM.pure, hless, h₁, h₂, h₃, -beq_iff_eq]

/-- The sort puts the replacement where the first item belongs. -/
theorem sortList_assigningKey :
    ∃ w, sortList (Machine.surroundings {} 12).callback ⟨some (.function 0), false⟩ 0
      assigningWorld = .ok () w ∧ w.store.items 0 = [.int 1, .int 2, .int 100] := by
  obtain ⟨w, hkeyed, hplace⟩ := cellKeys_assigningKey
  obtain ⟨rest, hcells⟩ := exists_cells hplace
  have hlength : [Value.int 1, .int 2, .int 100].length = 3 := rfl
  obtain ⟨s, hset, hitems, -⟩ := exists_setCells hplace hlength
  have hblock : Op.blockOf 0 assigningWorld.store = .ok 0 _ := rfl
  refine ⟨{ w with store := s }, ?_, hitems⟩
  have hfilled : sortList (Machine.surroundings {} 12).callback ⟨some (.function 0), false⟩ 0
      assigningWorld = _ :=
    sortList_eq_setCells hblock hkeyed (inOrder_assigningKey _) hcells
  exact hfilled.trans hset

/-- The key function is called with every item, in order, and returns it. But it has assigned to the
list meanwhile, and the list is left with what was assigned instead of an item. -/
theorem not_sort_sortedBy_assigning :
    let call := (Machine.surroundings {} 12).callback
    ∃ w₁ w₂, keysOf call (some (.function 0)) [.int 3, .int 1, .int 2] assigningWorld =
        .ok [some (.int 3), some (.int 1), some (.int 2)] w₁ ∧
      sortList call ⟨some (.function 0), false⟩ 0 assigningWorld = .ok () w₂ ∧
      w₂.store.items 0 = [.int 1, .int 2, .int 100] ∧
      ∀ order, ¬ w₂.store.SortedBy false [.int 3, .int 1, .int 2] [.int 3, .int 1, .int 2] order
        (w₂.store.items 0) := by
  intro call
  obtain ⟨w₁, hkeys⟩ := keysOf_assigningKey
  obtain ⟨w₂, hsort, hitems⟩ := sortList_assigningKey
  refine ⟨w₁, w₂, hkeys, hsort, hitems, fun order horder => ?_⟩
  -- what was assigned is none of the items
  have hassigned : some (Value.int 100) ∈ order.map ([Value.int 3, .int 1, .int 2][·]?) := by
    rw [← horder.items_eq, hitems]
    simp
  obtain ⟨i, -, hi⟩ := List.mem_map.mp hassigned
  have := List.mem_of_getElem? hi
  simp at this

end Exec

end Wordcode
