import Wordcode.Proofs.Occurrences
import Wordcode.Proofs.Separators
import Wordcode.Proofs.SliceUpdates
import Wordcode.Proofs.Sources
import Mathlib

namespace Wordcode

/-! # Positions in strings

Searching, slicing, indexing, lengths and iteration read the characters of a string each in a way of
its own. They count them alike.

* `ReadsText` says what a slice of a string is. `readsText_contiguous` and `readsText_reversed` are
  the slices without a step and the reversed string.
* `Text.FoundAt` and `Text.Absent` say in terms of slices and of bytes what a search has found.
* `Text.Indexed` says that everything that goes through the positions of a string goes through one
  list of characters.
* `Exec.positions_agree` is the result.
-/

/-! ## Slices -/

/-- A slice of a string is a new string of the given text. -/
def ReadsText (s : String) (start stop step : Value) (text : String) : Prop :=
  ∀ (id sliceId : Nat) (st : Store), Op.getItem (.str s id) (.slice start stop step sliceId) st =
    .ok (.str text st.nextId) { st with nextId := st.nextId + 1 }

section

variable {s : String} {start stop step : Value}

theorem readsText_of_select {cs : List Char}
    (h : Slice.select s.toList start stop step = .ok cs) :
    ReadsText s start stop step (String.ofList cs) := by
  intro id sliceId st
  rw [Op.getItem, h]
  rfl

/-- Without a step the characters between two positions are read. -/
theorem readsText_contiguous (hstart : start.IsBound) (hstop : stop.IsBound)
    (hword : s.length < 2 ^ 63) :
    ReadsText s start stop .none (String.ofList
      ((s.toList.drop (Slice.exactFirst start 1 s.length).toNat).take
        (Slice.exactLast stop 1 s.length - Slice.exactFirst start 1 s.length).toNat)) := by
  have hone : Slice.exactStep .none = 1 := rfl
  have hproper : Slice.Proper start stop .none := ⟨hstart, hstop, .inl rfl, by decide⟩
  rw [← String.length_toList] at hword ⊢
  have hbounds := (Slice.exactBounds_mem start stop 1
    (by omega : 0 ≤ (s.toList.length : Int))).1 one_pos
  refine readsText_of_select ?_
  rw [Slice.select_eq hproper hword, Slice.chosen_eq_range' start stop _ hone,
    pick_range' _ _ (by omega)]

/-- Between two words that are positions of the string, the characters between them are read. -/
theorem readsText_between {a b : Int64} {i n : Nat} (hword : s.length < 2 ^ 63)
    (ha : a.toInt = i) (hb : b.toInt = i + n) (hend : i + n ≤ s.length) :
    ReadsText s (.int a) (.int b) .none (String.ofList ((s.toList.drop i).take n)) := by
  have hfirst : Slice.exactFirst (.int a) 1 s.length = i := by
    simp only [Slice.exactFirst, Slice.exactBound, Value.int?, one_pos, if_true, ha]
    omega
  have hlast : Slice.exactLast (.int b) 1 s.length = i + n := by
    simp only [Slice.exactLast, Slice.exactBound, Value.int?, one_pos, if_true, hb]
    omega
  have hreads : ReadsText s (.int a) (.int b) .none _ :=
    readsText_contiguous (.inr ⟨a, rfl⟩) (.inr ⟨b, rfl⟩) hword
  rw [hfirst, hlast] at hreads
  simpa using hreads

/-- The positions from the end to the start. -/
theorem chosen_reversed (length : Nat) :
    Slice.chosen .none .none (.int (-1)) length = (List.range length).reverse := by
  have hstep : Slice.exactStep (.int (-1)) = -1 := by decide
  have hcount : stepCount (-1) (-1) ((length : Int) - 1) = length := by
    simp [stepCount, distance]
  have hfirst : Slice.exactFirst .none (-1) length = length - 1 := rfl
  have hlast : Slice.exactLast .none (-1) length = -1 := rfl
  rw [Slice.chosen, hstep, hfirst, hlast, progression_eq_map (by decide), hcount, List.map_map,
    List.range_eq_range', List.reverse_range', ← List.range_eq_range']
  refine List.map_congr_left fun k _ => ?_
  simp only [Function.comp_apply]
  omega

/-- A step of minus one reads the string from the end to the start. -/
theorem readsText_reversed (hword : s.length < 2 ^ 63) :
    ReadsText s .none .none (.int (-1)) (String.ofList s.toList.reverse) := by
  have hproper : Slice.Proper .none .none (.int (-1)) :=
    ⟨.inl rfl, .inl rfl, .inr ⟨-1, rfl⟩, by decide⟩
  have hall : pick s.toList (List.range s.toList.length) = s.toList := by
    rw [List.range_eq_range', pick_range' 0 _ (by omega), List.drop_zero, List.take_length]
  refine readsText_of_select ?_
  rw [Slice.select_eq hproper (by rwa [String.length_toList]), chosen_reversed, pick,
    List.filterMap_reverse]
  exact congrArg (Except.ok ·.reverse) hall

end

/-! ## Searches -/

namespace Text

/-- A text of length `n` is found at a position: the slice of that length is the text, no slice from
an earlier position is, and the bytes of the text first occur behind those of the characters in
front of the position. -/
structure FoundAt (s t : String) (n i : Int64) : Prop where
  nonneg : 0 ≤ i
  slice : ReadsText s (.int i) (.int (i + n)) .none t
  first : ∀ j : Int64, 0 ≤ j → j < i → ∃ text, text ≠ t ∧
    ReadsText s (.int j) (.int (j + n)) .none text
  bytes : octets t <+: (octets s).drop
      (octets (String.ofList (s.toList.take i.toInt.toNat))).length ∧
    ∀ k < (octets (String.ofList (s.toList.take i.toInt.toNat))).length,
      ¬ octets t <+: (octets s).drop k

/-- A text does not occur: no slice without a step is the text, whatever its bounds are, and its
bytes do not occur. -/
structure Absent (s t : String) : Prop where
  slices : ∀ start stop : Value, start.IsBound → stop.IsBound → ∃ text, text ≠ t ∧
    ReadsText s start stop .none text
  bytes : ¬ octets t <:+: octets s

variable {s t : String} {i : Nat}

/-- The position that a search gives. -/
theorem foundAt_of_find? (hword : s.length < 2 ^ 63) (h : find? t.toList s.toList = some i) :
    FoundAt s t (Int64.ofNat t.length) (Int64.ofNat i) := by
  obtain ⟨hi, hoccurs, hleast⟩ := find?_eq_some_iff.mp h
  have hend := hoccurs.length_le
  rw [List.length_drop, String.length_toList, String.length_toList] at hend
  rw [String.length_toList] at hi
  have hi' : (Int64.ofNat i).toInt = i := Int64.toInt_ofNat_of_lt (by omega)
  have hn : (Int64.ofNat t.length).toInt = t.length := Int64.toInt_ofNat_of_lt (by omega)
  have hsum {j : Int64} {k : Nat} (hj : j.toInt = k) (hk : k ≤ i) :
      (j + Int64.ofNat t.length).toInt = k + t.length := by
    rw [Int64.toInt_add, hn, hj, Int.bmod_eq_of_le] <;> omega
  constructor
  case nonneg =>
    rw [Int64.le_iff_toInt_le, hi']
    exact Int.natCast_nonneg i
  case slice =>
    have htext : t.toList = (s.toList.drop i).take t.length := by
      rw [← String.length_toList]
      exact List.prefix_iff_eq_take.mp hoccurs
    have hreads := readsText_between hword hi' (hsum hi' le_rfl) (by omega)
    rwa [← htext, String.ofList_toList] at hreads
  case first =>
    intro j hj hji
    -- an earlier slice with that text would be an earlier occurrence
    obtain ⟨k, hk⟩ : ∃ k : Nat, j.toInt = k := Int.eq_ofNat_of_zero_le (Int64.le_iff_toInt_le.mp hj)
    have hki : k < i := by
      rw [Int64.lt_iff_toInt_lt] at hji
      omega
    refine ⟨_, fun heq => ?_, readsText_between hword hk (hsum hk hki.le) (by omega)⟩
    have htext := congrArg String.toList heq
    rw [String.toList_ofList] at htext
    refine hleast k hki (List.prefix_iff_eq_take.mpr ?_)
    rw [String.length_toList]
    exact htext.symm
  case bytes =>
    rw [hi', Int.toNat_natCast]
    exact first_octets_of_find? h

/-- What a search says that gives none. -/
theorem absent_of_find? (hword : s.length < 2 ^ 63) (h : find? t.toList s.toList = none) :
    Absent s t where
  slices start stop hstart hstop := by
    refine ⟨_, fun heq => ?_, readsText_contiguous hstart hstop hword⟩
    -- a slice without a step is a part of the string
    refine find?_eq_none_iff.mp h ?_
    rw [← heq, String.toList_ofList]
    exact (List.take_prefix _ _).isInfix.trans (List.drop_suffix _ _).isInfix
  bytes := not_infix_octets_of_find? h

end Text

/-! ## Characters -/

namespace Text

/-- Everything that goes through the positions of a string goes through one list of characters: its
length, iteration, the character at every index, and the string in reverse, which is also what its
reversed items are when they are joined. -/
structure Indexed (s : String) (cs : List Char) : Prop where
  length : ∀ (call : Callback) (fuel id : Nat) (w : World), ∃ n : Int64,
    Exec.callBuiltin call fuel .len [.str s id] [] w = .ok (.int n) w ∧ n.toInt = cs.length
  iterates : ∀ (call : Callback) (fuel id : Nat) (w : World), cs.length + 3 ≤ fuel →
    ∃ vs w', Exec.collect call fuel (.str s id) w = .ok vs w' ∧
      vs.map Value.str? = cs.map fun c => some (String.ofList [c])
  /-- Indices below zero count from the end. -/
  item : ∀ (id : Nat) (key : Value) (i : Int64) (st : Store), key.int? = some i →
    ∀ (k : Nat) (c : Char), cs[k]? = some c → i.toInt = k ∨ i.toInt = k - cs.length →
      Op.getItem (.str s id) key st =
        .ok (.str (String.ofList [c]) st.nextId) { st with nextId := st.nextId + 1 }
  noItem : ∀ (id : Nat) (key : Value) (i : Int64) (st : Store), key.int? = some i →
    i.toInt < -cs.length ∨ cs.length ≤ i.toInt →
      Op.getItem (.str s id) key st = .error (.raise .index "string index out of range") st
  reversed : ReadsText s .none .none (.int (-1)) (String.ofList cs.reverse)
  reversedItems : ∀ (call : Callback) (fuel id emptyId : Nat) (w : World), cs.length + 3 ≤ fuel →
    ∃ ref w₁ textId w₂,
      Exec.callBuiltin call fuel .reversed [.str s id] [] w = .ok (.iterator ref) w₁ ∧
      Exec.callMethod call fuel (.str "" emptyId) (.str .join) [.iterator ref] [] w₁ =
        .ok (.str (String.ofList cs.reverse) textId) w₂

/-- Without a separator, characters are joined to the text that they make up. -/
theorem join_singletons (cs : List Char) : join [] (cs.map fun c => [c]) = cs := by
  induction cs with
  | nil => rfl
  | cons c cs ih =>
      cases cs with
      | nil => rfl
      | cons d cs =>
          rw [List.map_cons, join_cons_of_ne_nil _ (by simp), ih]
          rfl

end Text

namespace Exec

variable {s : String} {w : World}

/-- The characters of a string are given as strings. -/
theorem map_str?_of_gives {cs : List Char} {vs : List Value}
    (h : List.Forall₂ Element.Gives (cs.map .char) vs) :
    vs.map Value.str? = (cs.map fun c => String.ofList [c]).map some := by
  induction cs generalizing vs with
  | nil =>
      cases h
      rfl
  | cons c cs ih =>
      cases h with
      | cons hfirst hrest =>
          cases hfirst
          exact congrArg (some (String.ofList [c]) :: ·) (ih hrest)

/-- Iterating over a string gives its characters. -/
theorem collect_str (call : Callback) (id : Nat) (w : World) {fuel : Nat}
    (hfuel : s.toList.length + 3 ≤ fuel) :
    ∃ vs w', collect call fuel (.str s id) w = .ok vs w' ∧
      vs.map Value.str? = (s.toList.map fun c => String.ofList [c]).map some := by
  obtain ⟨it, w₁, hcursor, -, hstands⟩ :=
    cursorOf_eq (x := .str s id) trivial (List.mem_singleton_self _) w
  obtain ⟨vs, w', hyields, hgives, -⟩ := hstands.yields call
  have htexts := map_str?_of_gives hgives
  have hlength : vs.length = s.toList.length := by simpa using congrArg List.length htexts
  refine ⟨vs, w', ?_, htexts⟩
  exact (bind_of_ok hcursor).trans (hyields.drain_eq (by omega))

/-- The reversed items of a string, joined. -/
theorem join_reversed (call : Callback) (id emptyId : Nat) (w : World) {fuel : Nat}
    (hfuel : s.toList.length + 3 ≤ fuel) :
    ∃ ref w₁ textId w₂,
      callBuiltin call fuel .reversed [.str s id] [] w = .ok (.iterator ref) w₁ ∧
      callMethod call fuel (.str "" emptyId) (.str .join) [.iterator ref] [] w₁ =
        .ok (.str (String.ofList s.toList.reverse) textId) w₂ := by
  obtain ⟨vs, w', hcollect, htexts⟩ := collect_str call id w hfuel
  -- the iterator is over the characters that have been collected, not over the string
  obtain ⟨w₁, hnew, hopens⟩ := newIterator_eq w' (.items "reversed" vs.reverse)
  have hstands : Stands [] w₁ w'.store.iterators.size (vs.reverse.map .value) :=
    ⟨_, hopens.getElem?_new 0, trivial, rfl, nofun⟩
  obtain ⟨us, w₂, hyields, hgives, -⟩ := hstands.yields call
  obtain rfl := Element.eq_of_gives hgives
  have hlength : vs.length = s.toList.length := by simpa using congrArg List.length htexts
  have hroom : 1 + vs.reverse.length + 1 < fuel := by
    rw [List.length_reverse]
    omega
  have hjoined := hyields.collect_eq hroom
  have hreversed : vs.reverse.map Value.str? =
      (s.toList.reverse.map fun c => String.ofList [c]).map some := by
    rw [List.map_reverse, htexts, List.map_reverse, List.map_reverse]
  obtain ⟨textId, w₃, hjoin⟩ := callMethod_join_of_collect hjoined hreversed "" emptyId
  have hcharacters : (s.toList.reverse.map fun c => String.ofList [c]).map String.toList =
      s.toList.reverse.map fun c => [c] := by
    rw [List.map_map]
    exact List.map_congr_left fun c _ => String.toList_ofList
  have hempty : "".toList = [] := rfl
  rw [hcharacters, hempty, Text.join_singletons] at hjoin
  refine ⟨_, w₁, textId, w₃, ?_, hjoin⟩
  show runBuiltin call fuel .reversed [.str s id] [] w = _
  exact (bind_of_ok hcollect).trans hnew

theorem getItem_str_eq (id : Nat) {key : Value} {i : Int64} (hkey : key.int? = some i) :
    Op.getItem (.str s id) key = (do
      let k ← Op.ofExcept (resolveIndex i (Int64.ofNat s.toList.length) "string")
      match s.toList[k]? with
      | some c => Op.newStr (String.ofList [c])
      | none => throw .crash) := by
  cases key with
  | int n => cases hkey; rfl
  | bool b => cases hkey; rfl
  | _ => cases hkey

/-- A string is seen as its characters, in every way. -/
theorem indexed_toList (hword : s.length < 2 ^ 63) : Text.Indexed s s.toList := by
  have hlength : (Int64.ofNat s.toList.length).toInt = s.toList.length :=
    Int64.toInt_ofNat_of_lt (by rwa [String.length_toList])
  have hword' : (s.toList.length : Int) < 2 ^ 63 := by
    rw [String.length_toList]
    exact_mod_cast hword
  constructor
  case length =>
    intro call fuel id w
    refine ⟨Int64.ofNat s.length, rfl, ?_⟩
    rwa [String.length_toList] at hlength ⊢
  case iterates =>
    intro call fuel id w hfuel
    obtain ⟨vs, w', hcollect, htexts⟩ := collect_str call id w hfuel
    exact ⟨vs, w', hcollect, by rw [htexts, List.map_map]; rfl⟩
  case item =>
    intro id key i st hkey k c hc hi
    obtain ⟨hk, -⟩ := List.getElem?_eq_some_iff.mp hc
    -- a negative index counts from the end
    have hposition : (k : Int) = if i.toInt < 0 then i.toInt + (Int64.ofNat s.toList.length).toInt
        else i.toInt := by
      rw [hlength]
      split <;> omega
    have hresolve := resolveIndex_eq i (by omega) "string" hposition
    rw [if_pos (by omega), Int.toNat_natCast] at hresolve
    rw [getItem_str_eq id hkey, hresolve]
    refine (bind_of_ok rfl).trans ?_
    rw [hc]
    rfl
  case noItem =>
    intro id key i st hkey hi
    have hresolve := resolveIndex_eq i
      (by omega : 0 ≤ (Int64.ofNat s.toList.length).toInt) "string" rfl
    rw [hlength, if_neg (by split <;> omega)] at hresolve
    rw [getItem_str_eq id hkey, hresolve]
    rfl
  case reversed => exact readsText_reversed hword
  case reversedItems =>
    intro call fuel id emptyId w hfuel
    exact join_reversed call id emptyId w hfuel

/-- Searching a string and reading it go by the same positions. A text is found at the first
position from which a slice is the text, and is then contained in the string; otherwise no slice is
the text, and it is not contained. Lengths, iteration, indices and reversal go by the characters of
the string. -/
theorem positions_agree (call : Callback) (fuel : Nat) (w : World) (s t : String) (id textId : Nat)
    (hword : s.length < 2 ^ 63) :
    (∃ n i : Int64, callBuiltin call fuel .len [.str t textId] [] w = .ok (.int n) w ∧
      callMethod call fuel (.str s id) (.str .find) [.str t textId] [] w = .ok (.int i) w ∧
      (Text.FoundAt s t n i ∧
          contains call fuel (.str s id) (.str t textId) w = .ok true w ∨
        i = -1 ∧ Text.Absent s t ∧
          contains call fuel (.str s id) (.str t textId) w = .ok false w)) ∧
      Text.Indexed s s.toList := by
  have hcontains : contains call fuel (.str s id) (.str t textId) w =
      .ok (Text.find? t.toList s.toList).isSome w := rfl
  have hfind : callMethod call fuel (.str s id) (.str .find) [.str t textId] [] w =
      .ok (.int (((Text.find? t.toList s.toList).map Int64.ofNat).getD (-1))) w := by
    show strMethod call fuel s .find [.str t textId] w = _
    have htext : (liftM (Op.asStr (.str t textId)) : Exec String) w = .ok t w := rfl
    rw [strMethod]
    refine (bind_of_ok htext).trans ?_
    cases Text.find? t.toList s.toList <;> rfl
  refine ⟨⟨Int64.ofNat t.length, _, rfl, hfind, ?_⟩, indexed_toList hword⟩
  rw [hcontains]
  -- the search finds the first character position, or none
  cases hposition : Text.find? t.toList s.toList with
  | some i => exact .inl ⟨Text.foundAt_of_find? hword hposition, rfl⟩
  | none => exact .inr ⟨rfl, Text.absent_of_find? hword hposition, rfl⟩

/-- A position counts characters, of which the first one has two bytes. -/
theorem positions_agree_accented :
    let call := (Machine.surroundings {} 1).callback
    "éaé".length < 2 ^ 63 ∧
      callMethod call 1 (.str "éaé" 0) (.str .find) [.str "aé" 1] [] {} = .ok (.int 1) {} ∧
      Text.FoundAt "éaé" "aé" 2 1 ∧ Text.Indexed "éaé" ['é', 'a', 'é'] := by
  intro call
  have hword : "éaé".length < 2 ^ 63 := by decide
  obtain ⟨⟨n, i, hlength, hfind, hsearch⟩, hindexed⟩ :=
    positions_agree call 1 {} "éaé" "aé" 0 1 hword
  have hrun : callMethod call 1 (.str "éaé" 0) (.str .find) [.str "aé" 1] [] {} =
      .ok (.int 1) {} := by
    cbv
  have hlength' : callBuiltin call 1 .len [.str "aé" 1] [] {} = .ok (.int 2) {} := by
    cbv
  rw [hrun] at hfind
  rw [hlength'] at hlength
  cases hfind
  cases hlength
  -- the accent is one character of two bytes, so positions and bytes differ
  rcases hsearch with ⟨hfound, -⟩ | ⟨hnone, -⟩
  · exact ⟨hword, hrun, hfound, hindexed⟩
  · exact absurd hnone (by decide)

end Exec

end Wordcode
