import Wordcode.Machine
import Wordcode.Proofs.Distribution
import Wordcode.Proofs.Growth
import Wordcode.Proofs.Sorting
import Mathlib

namespace Wordcode

/-! # The least and the greatest item

`min` and `max` go through the items once. They hold on to the best item so far, which a later one
replaces only if it is strictly better, and so they end with the first one of the best. This is
also the one that a stable sort puts first, in the direction in which better comes first.

Sorting asks for all keys before it compares, and here keys are compared in between. That makes no
difference with a key function that has no side effects, because what is compared then stays as it
is.

* `Exec.KeyCalls` are the calls of a key function without side effects.
* `Exec.bestOf_spec` is the run through the items.
* `Exec.extremes_eq_sorted` is the result.
-/

/-! ## Key functions without side effects -/

namespace Exec

/-- Calls of a key function for items, one after the other. Each call gives a key that has no floats
and no cycles, and leaves the lists and dicts that there are as they are. -/
inductive KeyCalls (call : Callback) (key? : Option Value) :
    World → List Value → List Value → World → Prop
  | nil {w : World} : KeyCalls call key? w [] [] w
  | cons {w w₁ w' : World} {item key : Value} {items keys : List Value}
    (hcall : keyOf call key? item w = .ok (some key) w₁) (hkeeps : w.store.Keeps w₁.store)
    (hkey : w₁.store.Ordinary key) (hrest : KeyCalls call key? w₁ items keys w') :
    KeyCalls call key? w (item :: items) (key :: keys) w'

variable {call : Callback} {key? : Option Value} {w w' : World} {items keys : List Value}
  {descending : Bool}

namespace KeyCalls

/-- These are the calls that sorting makes. -/
theorem keysOf_eq (h : KeyCalls call key? w items keys w') :
    keysOf call key? items w = .ok (keys.map some) w' := by
  induction h with
  | nil => rfl
  | cons hcall hkeeps hkey hrest ih =>
      unfold keysOf at ih ⊢
      rw [List.mapM_cons, bind_of_ok hcall, bind_of_ok ih]
      rfl

/-- All of them leave what there is. -/
theorem keeps (h : KeyCalls call key? w items keys w') : w.store.Keeps w'.store := by
  induction h with
  | nil => exact .refl _
  | cons hcall hkeeps hkey hrest ih => exact hkeeps.trans ih

end KeyCalls

/-! ## The run through the items -/

/-- Whether a candidate is strictly better than the best item so far. -/
def better (descending : Bool) (candidate best : Option Value) : Exec Bool :=
  liftM (if descending then lessKey best candidate else lessKey candidate best)

/-- A comparison in between gives what it will give at the end. -/
theorem better_spec (descending : Bool) {K : List Value} {a b : Value}
    (hkeeps : w.store.Keeps w'.store) (hK : w'.store.Sortable K) (hlength : 2 ≤ K.length)
    (haK : a ∈ K) (hbK : b ∈ K) (ha : w.store.Ordinary a) (hb : w.store.Ordinary b) :
    better descending (some a) (some b) w =
      .ok (decide (w'.store.place descending K a < w'.store.place descending K b)) w := by
  rw [← hK.before_eq hlength haK hbK descending]
  have hab := hkeeps.compare?_eq hK.sound ha b hb
  have hba := hkeeps.compare?_eq hK.sound hb a ha
  cases descending with
  | false =>
      have hless := Store.less_eq (hab ▸ hK.isSome_compare? hlength haK hbK)
      simpa [better, lessKey, Store.before, hab] using lift_of_ok hless
  | true =>
      have hless := Store.less_eq (hba ▸ hK.isSome_compare? hlength hbK haK)
      simpa [better, lessKey, Store.before, hba] using lift_of_ok hless

/-- The run holds on to the first one of the least among the items that it has seen. -/
theorem bestOf_spec {K : List Value} {seen : List (Value × Value)} {best : Value × Value}
    (hcalls : KeyCalls call key? w items keys w') (hK : w'.store.Sortable K)
    (hlength : 2 ≤ K.length) (hkeys : keys ⊆ K) (hbestK : best.1 ∈ K)
    (hbest : w.store.Ordinary best.1)
    (hseen : Sort.FirstLeast (fun p => w'.store.place descending K p.1) seen best) :
    ∃ p, bestOf (keyOf call key?) (better descending) best.2 (some best.1) items w = .ok p.2 w' ∧
      Sort.FirstLeast (fun p => w'.store.place descending K p.1) (seen ++ keys.zip items) p := by
  induction hcalls generalizing best seen with
  | nil => exact ⟨best, rfl, by simpa using hseen⟩
  | @cons w w₁ w' item key items keys hcall hkeeps hkey hrest ih =>
      rw [List.cons_subset] at hkeys
      have hbest := hkeeps.ordinary hbest
      -- the comparison in between gives what it would give at the end
      have hcompare := better_spec descending hrest.keeps hK hlength hkeys.1 hbestK hkey hbest
      have hnext := hseen.snoc (key, item)
      rw [bestOf, bind_of_ok hcall, bind_of_ok hcompare]
      have hsplit : seen ++ (key :: keys).zip (item :: items) =
          seen ++ [(key, item)] ++ keys.zip items := by simp
      rw [hsplit]
      by_cases hlt : w'.store.place descending K key < w'.store.place descending K best.1
      · rw [if_pos hlt] at hnext
        rw [decide_eq_true hlt, if_pos rfl]
        exact ih hK hkeys.2 hkeys.1 hkey hnext
      · rw [if_neg hlt] at hnext
        rw [decide_eq_false hlt, if_neg Bool.false_ne_true]
        exact ih hK hkeys.2 hbestK hbest hnext

/-! ## Arguments -/

/-- Keyword arguments that name a key function, or none. -/
inductive KeyKeyword : List Entry → Option Value → Prop
  | absent : KeyKeyword [] none
  | nothing {e : Entry} (he : e.Files "key" .none) : KeyKeyword [e] none
  | given {e : Entry} {f : Value} (he : e.Files "key" f) (hf : f.isCallable = true) :
    KeyKeyword [e] (some f)

/-- An entry of keyword arguments that asks for the descending direction. -/
def ReverseKeyword (e : Entry) : Prop := e.Files "reverse" (.bool true)

/-- A value that is a list or a tuple, and its items. -/
inductive Lists (s : Store) : Value → List Value → Prop
  | list {ref : Nat} : Lists s (.list ref) (s.items ref)
  | tuple {items : List Value} {id : Nat} : Lists s (.tuple items id) items

variable {keywords keywords' : List Entry} {e : Entry} {argument : Value}

/-- Collecting the items of a list or a tuple calls nothing. -/
theorem Lists.collect_eq (h : Lists w.store argument items) (fuel : Nat) :
    collect call fuel argument w = .ok items w := by
  cases h <;> rfl

/-- `None` cannot be called. -/
theorem isNone_of_isCallable {f : Value} (hf : f.isCallable = true) : f.isNone = false := by
  cases f <;> first | rfl | cases hf

/-- The options that keyword arguments stand for when items are sorted. -/
theorem KeyKeyword.sortOptions_eq (h : KeyKeyword keywords key?) (name : String) :
    sortOptions name keywords = pure ⟨key?, false⟩ := by
  cases h with
  | absent => rfl
  | nothing he =>
      obtain ⟨-, ⟨id, hkey⟩, hvalue⟩ := he
      simp [sortOptions, hkey, hvalue, Value.str?, Value.isNone]
  | given he hf =>
      obtain ⟨-, ⟨id, hkey⟩, rfl⟩ := he
      simp [sortOptions, hkey, hf, Value.str?, isNone_of_isCallable hf]

/-- The options with the other direction. -/
theorem KeyKeyword.sortOptions_reverse (h : KeyKeyword keywords key?) (he : ReverseKeyword e)
    (hkeywords : keywords' = e :: keywords ∨ keywords' = keywords ++ [e]) (name : String) :
    sortOptions name keywords' = pure ⟨key?, true⟩ := by
  obtain ⟨-, ⟨id, hreverse⟩, hyes⟩ := he
  have htruthy : (liftM (Op.truthy (.bool true)) : Exec Bool) = pure true := rfl
  cases h with
  | absent =>
      rcases hkeywords with rfl | rfl <;>
        simp [sortOptions, hreverse, hyes, htruthy, Value.str?]
  | nothing he =>
      obtain ⟨-, ⟨id, hkey⟩, hvalue⟩ := he
      rcases hkeywords with rfl | rfl <;>
        simp [sortOptions, hkey, hvalue, hreverse, hyes, htruthy, Value.str?, Value.isNone]
  | given he hf =>
      obtain ⟨-, ⟨id, hkey⟩, rfl⟩ := he
      rcases hkeywords with rfl | rfl <;>
        simp [sortOptions, hkey, hf, hreverse, hyes, htruthy, Value.str?, isNone_of_isCallable hf]

/-- The keywords of `min` and `max`, and the keys that they lead to. -/
theorem KeyKeyword.exists_bindings (h : KeyKeyword keywords key?) {b : Builtin}
    (hb : knownKeywords b = ["key", "default"]) :
    ∃ kw, readKeywords b keywords = pure kw ∧ kw.lookup "default" = none ∧
      ∀ call best first rest, extremeOf call b best kw (first :: rest) = (do
        let key ← keyOf call key? first
        bestOf (keyOf call key?) best first key rest) := by
  -- a key of `None` is the same as none
  cases h with
  | absent => exact ⟨[], rfl, rfl, fun call best first rest => by simp [extremeOf, keyOf]⟩
  | nothing he =>
      obtain ⟨-, ⟨id, hkey⟩, hvalue⟩ := he
      refine ⟨[("key", .none)], ?_, rfl, fun call best first rest => ?_⟩
      · simp [readKeywords, hkey, hvalue, hb]
      · simp [extremeOf, keyOf]
  | @given e f he hf =>
      obtain ⟨-, ⟨id, hkey⟩, hvalue⟩ := he
      refine ⟨[("key", f)], ?_, rfl, fun call best first rest => ?_⟩
      · simp [readKeywords, hkey, hvalue, hb]
      · -- `None` stands for no key
        have hlookup : List.lookup "key" [("key", f)] = some f := rfl
        rw [extremeOf, hlookup]
        cases f with
        | none => cases hf
        | _ => simp only [hf, if_true]; rfl

/-! ## The result -/

/-- The builtin that gives the best item in a direction. -/
def extremum (descending : Bool) : Builtin := if descending then .max else .min

/-- With an argument or more, the arity is right. -/
theorem callBuiltin_extremum (fuel : Nat) (descending : Bool) (arg : Value) (args : List Value) :
    callBuiltin call fuel (extremum descending) (arg :: args) keywords =
      extreme call fuel (extremum descending) (better descending) (arg :: args) keywords := by
  have harity : checkArity (extremum descending) (arg :: args).length = pure () := by
    cases descending <;> simp [checkArity, arityOf, extremum]
  cases descending <;> rw [callBuiltin, harity] <;> rfl

/-- A single argument is the list of items. -/
theorem callBuiltin_extremum_single (fuel : Nat) {kw : Bindings}
    (hread : readKeywords (extremum descending) keywords = pure kw)
    (hargument : Lists w.store argument items) :
    callBuiltin call fuel (extremum descending) [argument] keywords w =
      extremeOf call (extremum descending) (better descending) kw items w := by
  rw [callBuiltin_extremum, extreme, hread]
  simp only [pure_bind]
  exact bind_of_ok (hargument.collect_eq fuel)

/-- `min` and `max` give the first one of the least items in their direction. -/
theorem extremum_spec (fuel : Nat) (descending : Bool) (hkey : KeyKeyword keywords key?)
    (hargument : Lists w.store argument items) (hitems : items ≠ [])
    (hcalls : KeyCalls call key? w items keys w') (h : w'.store.Sortable keys) :
    ∃ p, callBuiltin call fuel (extremum descending) [argument] keywords w = .ok p.2 w' ∧
      Sort.FirstLeast (fun p => w'.store.place descending keys p.1) (keys.zip items) p := by
  have hknown : knownKeywords (extremum descending) = ["key", "default"] := by
    cases descending <;> rfl
  obtain ⟨kw, hread, -, hextreme⟩ := hkey.exists_bindings hknown
  rw [callBuiltin_extremum_single fuel hread hargument]
  cases hcalls with
  | nil => exact absurd rfl hitems
  | @cons _ w₁ _ first key rest keys hcall hkeeps hfirst hrest =>
      rw [hextreme, bind_of_ok hcall]
      -- the first item is the best so far
      have hseen := Sort.firstLeast_singleton
        (fun p : Value × Value => w'.store.place descending (key :: keys) p.1) (key, first)
      cases hrest with
      | nil => exact ⟨(key, first), rfl, hseen⟩
      | cons hcall' hkeeps' hkey' hrest' =>
          obtain ⟨p, hrun, hleast⟩ := bestOf_spec (.cons hcall' hkeeps' hkey' hrest') h (by simp)
            (List.subset_cons_self _ _) List.mem_cons_self hfirst hseen
          exact ⟨p, hrun, hleast⟩

/-- `sorted` gives a new list of the items in the order of their ranks. -/
theorem sorted_spec (fuel : Nat)
    (hoptions : sortOptions "sorted" keywords = pure ⟨key?, descending⟩)
    (hargument : Lists w.store argument items) (hcalls : KeyCalls call key? w items keys w')
    (h : w'.store.Sortable keys) :
    ∃ ref w₁, callBuiltin call fuel .sorted [argument] keywords w = .ok (.list ref) w₁ ∧
      w₁.store.items ref = (w'.store.keyedSort descending keys items).map (·.2) := by
  -- the keys are asked for once, before anything is compared
  have hsort : sortItems call ⟨key?, descending⟩ items w =
      .ok ((w'.store.keyedSort descending keys items).map (·.2)) w' :=
    sortItems_eq_keyedSort hcalls.keysOf_eq h
  have harity : checkArity .sorted [argument].length = pure () := rfl
  have hrun : callBuiltin call fuel .sorted [argument] keywords w =
      runBuiltin call fuel .sorted [argument] keywords w := by
    rw [callBuiltin, harity]
    rfl
  refine ⟨w'.store.lists.size, { w' with store := { w'.store with
    lists := w'.store.lists.push ((w'.store.keyedSort descending keys items).map (·.2)) } }, ?_, ?_⟩
  · rw [hrun, runBuiltin]
    simp only [hoptions, pure_bind, List.headD_cons]
    rw [bind_of_ok (hargument.collect_eq fuel), bind_of_ok hsort]
    exact lift_of_ok rfl
  · simp [Store.items]

/-- What `min` and `max` give is what a stable sort in their direction puts first. -/
theorem extremum_eq_sorted (fuel : Nat) (hkey : KeyKeyword keywords key?)
    (hoptions : sortOptions "sorted" keywords' = pure ⟨key?, descending⟩)
    (hargument : Lists w.store argument items) (hitems : items ≠ [])
    (hcalls : KeyCalls call key? w items keys w') (h : w'.store.Sortable keys) :
    ∃ v ref w₁, callBuiltin call fuel (extremum descending) [argument] keywords w = .ok v w' ∧
      callBuiltin call fuel .sorted [argument] keywords' w = .ok (.list ref) w₁ ∧
      (w₁.store.items ref).head? = some v := by
  obtain ⟨p, hextremum, hleast⟩ := extremum_spec fuel descending hkey hargument hitems hcalls h
  obtain ⟨ref, w₁, hsorted, hresult⟩ := sorted_spec fuel hoptions hargument hcalls h
  refine ⟨p.2, ref, w₁, hextremum, hsorted, ?_⟩
  rw [hresult, List.head?_map, Store.keyedSort, hleast.head?_eq (Sort.isStable_mergeSort _ _)]
  rfl

/-- Items can be given one by one, or all in one list. -/
theorem extremum_separate (fuel : Nat) (descending : Bool) (hkey : KeyKeyword keywords key?)
    (hargument : Lists w.store argument items) (hlength : 2 ≤ items.length) :
    callBuiltin call fuel (extremum descending) items keywords w =
      callBuiltin call fuel (extremum descending) [argument] keywords w := by
  have hknown : knownKeywords (extremum descending) = ["key", "default"] := by
    cases descending <;> rfl
  obtain ⟨kw, hread, hdefault, -⟩ := hkey.exists_bindings hknown
  match items, hlength with
  | first :: second :: rest, _ =>
      rw [callBuiltin_extremum_single fuel hread hargument, callBuiltin_extremum, extreme, hread]
      simp [hdefault]

/-- For a list or a tuple that is not empty, and a key function without side effects, or none, that
gives keys to sort by: `min` gives the item that `sorted` puts first, and `max` the one that
`sorted` puts first in the descending direction. Two items or more can also be given one by one. -/
theorem extremes_eq_sorted (fuel : Nat) (hkey : KeyKeyword keywords key?)
    (hargument : Lists w.store argument items) (hitems : items ≠ [])
    (hcalls : KeyCalls call key? w items keys w') (h : w'.store.Sortable keys) :
    (∃ v ref w₁, callBuiltin call fuel .min [argument] keywords w = .ok v w' ∧
        callBuiltin call fuel .sorted [argument] keywords w = .ok (.list ref) w₁ ∧
        (w₁.store.items ref).head? = some v) ∧
      (∀ e keywords', ReverseKeyword e →
        (keywords' = e :: keywords ∨ keywords' = keywords ++ [e]) →
        ∃ v ref w₁, callBuiltin call fuel .max [argument] keywords w = .ok v w' ∧
          callBuiltin call fuel .sorted [argument] keywords' w = .ok (.list ref) w₁ ∧
          (w₁.store.items ref).head? = some v) ∧
      (2 ≤ items.length → ∀ b ∈ [Builtin.min, .max],
        callBuiltin call fuel b items keywords w =
          callBuiltin call fuel b [argument] keywords w) := by
  refine ⟨?_, fun e keywords' he hkeywords => ?_, fun hlength b hb => ?_⟩
  · exact extremum_eq_sorted fuel hkey (hkey.sortOptions_eq _) hargument hitems hcalls h
  · exact extremum_eq_sorted fuel hkey (hkey.sortOptions_reverse he hkeywords _) hargument hitems
      hcalls h
  · -- separate arguments are made a list of
    rcases List.mem_pair.mp hb with rfl | rfl
    · exact extremum_separate fuel false hkey hargument hlength
    · exact extremum_separate fuel true hkey hargument hlength

/-- A list of numbers that are not told apart by their absolute values. -/
def mirrored : World := { store := { lists := #[[.int 3, .int (-3), .int 2, .int (-2)]] } }

/-- Numbers by their absolute values. -/
theorem extremes_eq_sorted_abs :
    let call := (Machine.surroundings {} 2).callback
    let key : Entry := ⟨.str "key", .str "key" 0, .builtin .abs⟩
    let reverse : Entry := ⟨.str "reverse", .str "reverse" 1, .bool true⟩
    let items : List Value := [.int 3, .int (-3), .int 2, .int (-2)]
    let keys : List Value := [.int 3, .int 3, .int 2, .int 2]
    KeyKeyword [key] (some (.builtin .abs)) ∧ ReverseKeyword reverse ∧
      Lists mirrored.store (.list 0) items ∧
      KeyCalls call (some (.builtin .abs)) mirrored items keys mirrored ∧
      mirrored.store.Sortable keys ∧
      callBuiltin call 0 .min [.list 0] [key] mirrored = .ok (.int 2) mirrored ∧
      callBuiltin call 0 .max [.list 0] [key] mirrored = .ok (.int 3) mirrored ∧
      (∃ ref w, callBuiltin call 0 .sorted [.list 0] [key] mirrored = .ok (.list ref) w ∧
        (w.store.items ref).head? = some (.int 2)) ∧
      (∃ ref w, callBuiltin call 0 .sorted [.list 0] [key, reverse] mirrored = .ok (.list ref) w ∧
        (w.store.items ref).head? = some (.int 3)) ∧
      callBuiltin call 0 .max items [key] mirrored = .ok (.int 3) mirrored := by
  intro call key reverse items keys
  have hkey : KeyKeyword [key] (some (.builtin .abs)) := .given ⟨rfl, ⟨0, rfl⟩, rfl⟩ rfl
  have hreverse : ReverseKeyword reverse := ⟨rfl, ⟨1, rfl⟩, rfl⟩
  have hargument : Lists mirrored.store (.list 0) items := .list
  -- taking absolute values leaves everything
  have hcalls : KeyCalls call (some (.builtin .abs)) mirrored items keys mirrored :=
    .cons rfl (.refl _) (.of_atom rfl trivial) <| .cons rfl (.refl _) (.of_atom rfl trivial) <|
      .cons rfl (.refl _) (.of_atom rfl trivial) <| .cons rfl (.refl _) (.of_atom rfl trivial) .nil
  have hsortable : mirrored.store.Sortable keys := by
    refine ⟨fun d hd => ?_, fun k hk => ?_, by decide +kernel⟩
    · cases hd
    · change k ∈ [.int 3, .int 3, .int 2, .int 2] at hk
      fin_cases hk <;> exact .of_atom rfl trivial
  have hmin : callBuiltin call 0 .min [.list 0] [key] mirrored = .ok (.int 2) mirrored := by
    cbv
  have hmax : callBuiltin call 0 .max [.list 0] [key] mirrored = .ok (.int 3) mirrored := by
    cbv
  obtain ⟨⟨v, ref, w, hv, hsorted, hhead⟩, hdescending, hseparate⟩ :=
    extremes_eq_sorted 0 hkey hargument (by decide) hcalls hsortable
  obtain ⟨v', ref', w', hv', hsorted', hhead'⟩ := hdescending reverse _ hreverse (.inr rfl)
  rw [hmin] at hv
  rw [hmax] at hv'
  cases hv
  cases hv'
  exact ⟨hkey, hreverse, hargument, hcalls, hsortable, hmin, hmax, ⟨ref, w, hsorted, hhead⟩,
    ⟨ref', w', hsorted', hhead'⟩, (hseparate (by decide) .max (by decide)).trans hmax⟩

end Exec

end Wordcode
