import Wordcode.Proofs.Literals
import Wordcode.Proofs.Nesting
import Mathlib

namespace Wordcode

/-! # Texts of values are unambiguous

Values that consist of `None`, truth values, integers, strings, tuples, lists and dicts can be told
from each other by their texts, as long as none holds itself.

* `Store.Data` are these values, and `Store.Identical` are two of them that have the same types,
  numbers, strings, items and entries.
* `Store.Data.reprIn_eq` says that the text of such a value is the same wherever it stands, so that
  the text of a list, tuple or dict is made of the texts of what it holds.
* `Store.Data.reads` reads a value off its text by what it holds, `Store.Data.written_eq` says that
  identical values have one text, and `Store.repr_eq_iff_identical` is the result.
-/

/-! ## Data -/

/-- Whether the text of a value's type is what its values consist of. -/
def Value.isData : Value → Bool
  | .none | .bool _ | .int _ | .str .. | .tuple .. | .list _ | .dict _ => true
  | _ => false

namespace Store

open Relation

variable {s : Store} {v w : Value}

/-- A value without cycles that neither is nor holds, however deep, anything but `None`, truth
values, integers, strings, tuples, lists and dicts. -/
structure Data (s : Store) (v : Value) : Prop where
  ordinary : s.Ordinary v
  isData : ∀ w, ReflTransGen s.Holds v w → w.isData = true

/-- What a data value holds is a data value. -/
theorem Data.held (hv : s.Data v) (hw : s.Holds v w) : s.Data w where
  ordinary := hv.ordinary.held hw
  isData := fun x hx => hv.isData x (.head hw hx)

theorem Data.isData_self (hv : s.Data v) : v.isData = true := hv.isData v .refl

/-- A value of a type of data, all of whose parts are data values. -/
theorem Data.of_held (hv : s.Admits v) (hdata : v.isData = true)
    (hheld : ∀ w, s.Holds v w → s.Data w) : s.Data v where
  ordinary := .of_held hv fun w hw => (hheld w hw).ordinary
  isData := by
    intro x hx
    rcases hx.cases_head with rfl | ⟨w, hw, hx⟩
    · exact hdata
    · exact (hheld w hw).isData x hx

theorem Data.int (n : Int64) : s.Data (.int n) :=
  .of_held trivial rfl fun w hw => by cases hw

theorem Data.str (t : String) (id : Nat) : s.Data (.str t id) :=
  .of_held trivial rfl fun w hw => by cases hw

theorem Data.tuple {items : List Value} {id : Nat} (hitems : ∀ v ∈ items, s.Data v) :
    s.Data (.tuple items id) := by
  refine .of_held trivial rfl fun w hw => ?_
  cases hw with
  | item hv => exact hitems _ hv

theorem Data.list {ref : Nat} (href : ref < s.lists.size) (hitems : ∀ v ∈ s.items ref, s.Data v) :
    s.Data (.list ref) := by
  refine .of_held href rfl fun w hw => ?_
  cases hw with
  | element hv => exact hitems _ hv

theorem Data.dict {ref : Nat} (href : ref < s.dicts.size)
    (hentries : ∀ e ∈ s.entries ref, s.Data e.key ∧ s.Data e.value) : s.Data (.dict ref) := by
  refine .of_held href rfl fun w hw => ?_
  cases hw with
  | key he => exact (hentries _ he).1
  | value he => exact (hentries _ he).2

/-- Induction over what data holds. -/
theorem Data.induction {motive : ∀ v, s.Data v → Prop}
    (step : ∀ v (hv : s.Data v), (∀ w (hw : s.Holds v w), motive w (hv.held hw)) → motive v hv)
    {v : Value} (hv : s.Data v) : motive v hv := by
  suffices h : ∀ hv : s.Data v, motive v hv from h hv
  induction hv.ordinary using Ordinary.induction with
  | step v _ ih => exact fun hv => step v hv fun w hw => ih w hw (hv.held hw) (hv.held hw)

/-- Two values that are of one type and consist of the same numbers and strings, and of identical
items or entries in the same order. -/
inductive Identical (s : Store) : Value → Value → Prop
  | none : Identical s .none .none
  | bool (b : Bool) : Identical s (.bool b) (.bool b)
  | int (n : Int64) : Identical s (.int n) (.int n)
  | str (t : String) (id id' : Nat) : Identical s (.str t id) (.str t id')
  | tuple {items items' : List Value} (id id' : Nat) : List.Forall₂ (Identical s) items items' →
    Identical s (.tuple items id) (.tuple items' id')
  | list {ref ref' : Nat} : List.Forall₂ (Identical s) (s.items ref) (s.items ref') →
    Identical s (.list ref) (.list ref')
  | dict {ref ref' : Nat} :
    List.Forall₂ (Identical s) ((s.entries ref).map (·.key)) ((s.entries ref').map (·.key)) →
    List.Forall₂ (Identical s) ((s.entries ref).map (·.value)) ((s.entries ref').map (·.value)) →
    Identical s (.dict ref) (.dict ref')

end Store

/-! ## Texts that do not depend on the place -/

/-- The text of a tuple, given those of its items. -/
def tupleText (parts : List String) : String :=
  match parts with
  | [part] => "(" ++ part ++ ",)"
  | _ => "(" ++ String.intercalate ", " parts ++ ")"

/-- The texts of several values are the texts of each of them. -/
theorem Value.reprItemsWith_eq (lists dicts iterators functions : Nat → String) (vs : List Value) :
    Value.reprItemsWith lists dicts iterators functions vs =
      vs.map (Value.reprWith lists dicts iterators functions) := by
  induction vs with
  | nil => rfl
  | cons v vs ih => exact congrArg (Value.reprWith lists dicts iterators functions v :: ·) ih

theorem Value.reprWith_tuple (lists dicts iterators functions : Nat → String) (items : List Value)
    (id : Nat) : Value.reprWith lists dicts iterators functions (.tuple items id) =
      tupleText (items.map (Value.reprWith lists dicts iterators functions)) := by
  rw [← Value.reprItemsWith_eq]
  rfl

namespace Store

open Relation

variable {s : Store} {v w : Value} {n ref id : Nat} {o : Open} {items : List Value}

/-- A tuple is written as its items are, inside the same lists and dicts. -/
theorem reprIn_tuple (s : Store) (n : Nat) (o : Open) (items : List Value) (id : Nat) :
    s.reprIn n o (.tuple items id) = tupleText (items.map (s.reprIn n o)) := by
  cases n <;> exact Value.reprWith_tuple _ _ _ _ items id

/-- None of the references that are being written is reached from a value. -/
structure Avoids (s : Store) (o : Open) (v : Value) : Prop where
  lists : ∀ ref ∈ o.lists, ¬ ReflTransGen s.Holds v (.list ref)
  dicts : ∀ ref ∈ o.dicts, ¬ ReflTransGen s.Holds v (.dict ref)

/-- Outside of everything there is nothing to avoid. -/
theorem avoids_empty (s : Store) (v : Value) : s.Avoids {} v :=
  ⟨fun _ h => (List.not_mem_nil h).elim, fun _ h => (List.not_mem_nil h).elim⟩

/-- What a value holds avoids what the value itself does. -/
theorem Avoids.held (ho : s.Avoids o v) (hw : s.Holds v w) : s.Avoids o w where
  lists ref href h := ho.lists ref href (.head hw h)
  dicts ref href h := ho.dicts ref href (.head hw h)

/-- What a list without cycles holds does not reach the list. -/
theorem Avoids.element (ho : s.Avoids o (.list ref)) (hv : s.Ordinary (.list ref))
    (hw : s.Holds (.list ref) w) : s.Avoids { o with lists := ref :: o.lists } w where
  lists := by
    intro ref' href' h
    rcases List.mem_cons.mp href' with rfl | href'
    · exact hv.acyclic _ .refl (.head' hw h)
    · exact (ho.held hw).lists ref' href' h
  dicts := (ho.held hw).dicts

/-- What a dict without cycles holds avoids the dict as well. -/
theorem Avoids.entry (ho : s.Avoids o (.dict ref)) (hv : s.Ordinary (.dict ref))
    (hw : s.Holds (.dict ref) w) : s.Avoids { o with dicts := ref :: o.dicts } w where
  lists := (ho.held hw).lists
  dicts := by
    intro ref' href' h
    rcases List.mem_cons.mp href' with rfl | href'
    · exact hv.acyclic _ .refl (.head' hw h)
    · exact (ho.held hw).dicts ref' href' h

/-- The text of a value is the same at every depth that is enough for it, and inside of all
references that are not reached from it. -/
def Settled (s : Store) (v : Value) : Prop :=
  ∀ n o, s.rank v ≤ n → s.Avoids o v → s.reprIn n o v = s.repr v

/-- A list that is written for the first time shows the texts of its items, which are settled. -/
theorem reprIn_list (hv : s.Ordinary (.list ref)) (hn : s.rank (.list ref) ≤ n)
    (ho : s.Avoids o (.list ref)) (hitems : ∀ w, s.Holds (.list ref) w → s.Settled w) :
    s.reprIn n o (.list ref) =
      "[" ++ String.intercalate ", " ((s.items ref).map s.repr) ++ "]" := by
  have hpos := hv.rank_pos trivial
  obtain ⟨m, rfl⟩ : ∃ m, n = m + 1 := ⟨n - 1, by omega⟩
  have hclosed : ¬ o.lists.contains ref = true := fun h =>
    ho.lists ref (List.contains_iff_mem.mp h) .refl
  have hopen : s.reprIn (m + 1) o (.list ref) = "[" ++ String.intercalate ", "
      ((s.items ref).map (s.reprIn m { o with lists := ref :: o.lists })) ++ "]" := if_neg hclosed
  have hparts : (s.items ref).map (s.reprIn m { o with lists := ref :: o.lists }) =
      (s.items ref).map s.repr := by
    refine List.map_congr_left fun w hw => ?_
    have hlt := hv.rank_lt_of_holds trivial (.element hw)
    exact hitems w (.element hw) m _ (by omega) (ho.element hv (.element hw))
  rw [hopen, hparts]

/-- A dict that is written for the first time shows the texts of its keys and values. -/
theorem reprIn_dict (hv : s.Ordinary (.dict ref)) (hn : s.rank (.dict ref) ≤ n)
    (ho : s.Avoids o (.dict ref)) (hentries : ∀ w, s.Holds (.dict ref) w → s.Settled w) :
    s.reprIn n o (.dict ref) = "\x7b" ++ String.intercalate ", "
      ((s.entries ref).map fun e => s.repr e.key ++ ": " ++ s.repr e.value) ++ "\x7d" := by
  have hpos := hv.rank_pos trivial
  obtain ⟨m, rfl⟩ : ∃ m, n = m + 1 := ⟨n - 1, by omega⟩
  have hclosed : ¬ o.dicts.contains ref = true := fun h =>
    ho.dicts ref (List.contains_iff_mem.mp h) .refl
  have hopen : s.reprIn (m + 1) o (.dict ref) = "\x7b" ++ String.intercalate ", "
      ((s.entries ref).map fun e =>
        s.reprIn m { o with dicts := ref :: o.dicts } e.key ++ ": " ++
          s.reprIn m { o with dicts := ref :: o.dicts } e.value) ++ "\x7d" := if_neg hclosed
  -- an entry is ordinary, so opening this dict does not close a cycle
  have hpart (w : Value) (hw : s.Holds (.dict ref) w) :
      s.reprIn m { o with dicts := ref :: o.dicts } w = s.repr w := by
    have hlt := hv.rank_lt_of_holds trivial hw
    exact hentries w hw m _ (by omega) (ho.entry hv hw)
  have hparts : (s.entries ref).map (fun e =>
        s.reprIn m { o with dicts := ref :: o.dicts } e.key ++ ": " ++
          s.reprIn m { o with dicts := ref :: o.dicts } e.value) =
      (s.entries ref).map fun e => s.repr e.key ++ ": " ++ s.repr e.value := by
    refine List.map_congr_left fun e he => ?_
    rw [hpart e.key (.key he), hpart e.value (.value he)]
  rw [hopen, hparts]

theorem Data.settled (hv : s.Data v) : s.Settled v := by
  induction hv using Data.induction with
  | step v hv ih =>
    intro n o hn ho
    have hsize := hv.ordinary.rank_le_size
    have hdata := hv.isData_self
    -- a container's text is made of the texts of what it holds
    cases v with
    | none | bool | int | str =>
        rw [repr]
        cases n <;> cases s.size <;> rfl
    | tuple items id =>
        rw [repr, reprIn_tuple, reprIn_tuple]
        refine congrArg tupleText (List.map_congr_left fun w hw => ?_)
        have hle := hv.ordinary.rank_le_of_holds (.item hw)
        exact ih w (.item hw) n o (hle.trans hn) (ho.held (.item hw))
    | list ref =>
        rw [reprIn_list hv.ordinary hn ho ih, repr,
          reprIn_list hv.ordinary hsize (s.avoids_empty _) ih]
    | dict ref =>
        rw [reprIn_dict hv.ordinary hn ho ih, repr,
          reprIn_dict hv.ordinary hsize (s.avoids_empty _) ih]
    | _ => cases hdata

/-- The text of a list, without the bound of depth and the marks of what is open. -/
theorem Data.repr_list (hv : s.Data (.list ref)) :
    s.repr (.list ref) = "[" ++ String.intercalate ", " ((s.items ref).map s.repr) ++ "]" :=
  reprIn_list hv.ordinary hv.ordinary.rank_le_size (s.avoids_empty _) fun _ hw =>
    (hv.held hw).settled

/-- The text of a dict, likewise. -/
theorem Data.repr_dict (hv : s.Data (.dict ref)) :
    s.repr (.dict ref) = "\x7b" ++ String.intercalate ", "
      ((s.entries ref).map fun e => s.repr e.key ++ ": " ++ s.repr e.value) ++ "\x7d" :=
  reprIn_dict hv.ordinary hv.ordinary.rank_le_size (s.avoids_empty _) fun _ hw =>
    (hv.held hw).settled

/-- The text of a tuple. -/
theorem repr_tuple (s : Store) (items : List Value) (id : Nat) :
    s.repr (.tuple items id) = tupleText (items.map s.repr) :=
  s.reprIn_tuple s.size {} items id

/-! ## Reading -/

/-- The characters of the text of a value. -/
def written (s : Store) (v : Value) : List Char := (s.repr v).toList

/-- The characters of the text of an entry. -/
def writtenEntry (s : Store) (e : Entry) : List Char :=
  s.written e.key ++ ':' :: ' ' :: s.written e.value

theorem written_none : s.written .none = "None".toList := by
  rw [written, repr]
  cases s.size <;> rfl

theorem written_bool (b : Bool) :
    s.written (.bool b) = (if b then "True" else "False").toList := by
  rw [written, repr]
  cases s.size <;> rfl

theorem written_int (n : Int64) : s.written (.int n) = n.toInt.repr.toList := by
  rw [written, repr]
  cases s.size <;> rfl

/-- A string is written as a literal. -/
theorem written_str (t : String) (id : Nat) : s.written (.str t id) = Text.literal t.toList := by
  have hrepr : s.repr (.str t id) = literalText t := by
    rw [repr]
    cases s.size <;> rfl
  rw [written, hrepr, literalText, String.toList_ofList]

/-- Characters of a tuple, in the form that the reader takes apart. -/
theorem written_tuple (items : List Value) (id : Nat) : s.written (.tuple items id) =
    '(' :: Text.bracketed ')' Text.tupleRest (items.map s.written) := by
  have hparts : (items.map s.repr).map String.toList = items.map s.written := List.map_map
  rw [written, repr_tuple, ← hparts]
  match items.map s.repr with
  | [] => rfl
  | [part] => simp [tupleText, Text.bracketed, Text.tupleRest]
  | _ :: _ :: _ => exact Text.toList_bracketed rfl rfl _

/-- Characters of a list, in this form. -/
theorem Data.written_list (hv : s.Data (.list ref)) : s.written (.list ref) =
    '[' :: Text.bracketed ']' (Text.continued ']') ((s.items ref).map s.written) := by
  have hparts : ((s.items ref).map s.repr).map String.toList = (s.items ref).map s.written :=
    List.map_map
  rw [written, hv.repr_list, ← hparts]
  exact Text.toList_bracketed rfl rfl _

/-- Characters of a dict, in this form. -/
theorem Data.written_dict (hv : s.Data (.dict ref)) : s.written (.dict ref) =
    '\x7b' :: Text.bracketed '\x7d' (Text.continued '\x7d')
      ((s.entries ref).map s.writtenEntry) := by
  have hparts : ((s.entries ref).map fun e => s.repr e.key ++ ": " ++ s.repr e.value).map
      String.toList = (s.entries ref).map s.writtenEntry := by
    rw [List.map_map]
    exact List.map_congr_left fun e _ => by simp [writtenEntry, written]
  rw [written, hv.repr_dict, ← hparts]
  exact Text.toList_bracketed rfl rfl _

/-- The type of the values whose texts start with a character. -/
def leadType (c : Char) : String :=
  if c = 'N' then "NoneType"
  else if c = 'T' || c = 'F' then "bool"
  else if c = '\'' || c = '"' then "str"
  else if c = '(' then "tuple"
  else if c = '[' then "list"
  else if c = '\x7b' then "dict"
  else "int"

/-- A numeral has none of the characters that other values begin with. -/
theorem leadType_of_mem_repr {n : Int} {c : Char} (hc : c ∈ n.repr.toList) :
    leadType c = "int" := by
  have hne (d : Char) (hd : ¬(d = '-' ∨ d.isDigit = true)) : c ≠ d := by
    rintro rfl
    exact hd (isDigit_of_mem_repr hc)
  simp [leadType, hne 'N' (by decide), hne 'T' (by decide), hne 'F' (by decide),
    hne '\'' (by decide), hne '"' (by decide), hne '(' (by decide), hne '[' (by decide),
    hne '\x7b' (by decide)]

/-- The text of data starts with a character that tells the type. -/
theorem Data.exists_lead (hv : s.Data v) : ∃ c, (s.written v).head? = some c ∧
    Text.isStop c = false ∧ leadType c = v.typeName := by
  have hdata := hv.isData_self
  -- the first character tells the type
  cases v with
  | none => exact ⟨'N', by rw [written_none]; rfl, rfl, rfl⟩
  | bool b => cases b <;> exact ⟨_, by rw [written_bool]; rfl, rfl, rfl⟩
  | int n =>
      rw [written_int]
      cases hrepr : n.toInt.repr.toList with
      | nil => exact absurd hrepr (Text.toList_repr_ne_nil n.toInt)
      | cons c r =>
          have hc : c ∈ n.toInt.repr.toList := hrepr ▸ List.mem_cons_self
          exact ⟨c, rfl, Text.isStop_of_mem_repr _ c hc, leadType_of_mem_repr hc⟩
  | str t id =>
      rw [written_str]
      refine ⟨Text.literalQuote t.toList, rfl, ?_⟩
      rcases Text.isQuote_literalQuote t.toList with h | h <;> rw [h] <;> exact ⟨rfl, rfl⟩
  | tuple items id => exact ⟨'(', by rw [written_tuple]; rfl, rfl, rfl⟩
  | list ref => exact ⟨'[', by rw [hv.written_list]; rfl, rfl, rfl⟩
  | dict ref => exact ⟨'\x7b', by rw [hv.written_dict]; rfl, rfl, rfl⟩
  | _ => cases hdata

/-- The text of a data value starts, and not with a stop. -/
theorem Data.starts (hv : s.Data v) : Text.Starts (s.written v) := by
  obtain ⟨c, hhead, hc, -⟩ := hv.exists_lead
  exact ⟨c, hhead, hc⟩

/-- Texts that start in the same way are those of values of one type. -/
theorem Data.typeName_eq (hv : s.Data v) (hw : s.Data w) {r r' : List Char}
    (h : s.written v ++ r = s.written w ++ r') : v.typeName = w.typeName := by
  obtain ⟨c, hhead, -, htype⟩ := hv.exists_lead
  obtain ⟨c', hhead', -, htype'⟩ := hw.exists_lead
  have hfirst := congrArg List.head? h
  rw [List.head?_append, List.head?_append, hhead, hhead'] at hfirst
  obtain rfl : c = c' := by simpa using hfirst
  exact htype.symm.trans htype'

/-- Two values of one type. -/
inductive Alike : Value → Value → Prop
  | none : Alike .none .none
  | bool (b b' : Bool) : Alike (.bool b) (.bool b')
  | int (n n' : Int64) : Alike (.int n) (.int n')
  | str (t : String) (id : Nat) (t' : String) (id' : Nat) : Alike (.str t id) (.str t' id')
  | tuple (items : List Value) (id : Nat) (items' : List Value) (id' : Nat) :
    Alike (.tuple items id) (.tuple items' id')
  | list (ref ref' : Nat) : Alike (.list ref) (.list ref')
  | dict (ref ref' : Nat) : Alike (.dict ref) (.dict ref')

/-- Data values of one type have one shape. -/
theorem alike_of_typeName_eq (hv : v.isData = true) (hw : w.isData = true)
    (h : v.typeName = w.typeName) : Alike v w := by
  cases v with
  | none | bool | int | str | tuple | list | dict =>
      cases w with
      | none | bool | int | str | tuple | list | dict =>
          first
            | constructor
            | simp [Value.typeName] at h
      | _ => cases hw
  | _ => cases hv

/-- An entry can be read off its text if its key, which ends at the colon, and its value can. -/
theorem reads_entry {e e' : Entry} (hkey : Text.Reads s.written s.Identical e.key e'.key)
    (hvalue : Text.Reads s.written s.Identical e.value e'.value) :
    Text.Reads s.writtenEntry
      (fun e e' => s.Identical e.key e'.key ∧ s.Identical e.value e'.value) e e' := by
  intro r r' hr hr' h
  simp only [writtenEntry, List.append_assoc, List.cons_append] at h
  obtain ⟨hkeys, hrest⟩ := hkey _ _ (Text.stops_cons rfl _) (Text.stops_cons rfl _) h
  obtain ⟨hvalues, rfl⟩ :=
    hvalue r r' hr hr' (List.cons_eq_cons.mp (List.cons_eq_cons.mp hrest).2).2
  exact ⟨⟨hkeys, hvalues⟩, rfl⟩

/-- Data can be read off its text if what it holds can. -/
theorem Data.reads (hv : s.Data v) : ∀ w, s.Data w → Text.Reads s.written s.Identical v w := by
  induction hv using Data.induction with
  | step v hv ih =>
    intro w hw r r' hr hr' h
    -- the first character tells the types, so there are only pairs of one type to look at
    cases alike_of_typeName_eq hv.isData_self hw.isData_self (hv.typeName_eq hw h) with
    | none => exact ⟨.none, List.append_cancel_left h⟩
    | bool b b' =>
        rw [written_bool, written_bool] at h
        cases b <;> cases b' <;> first
          | exact ⟨.bool _, List.append_cancel_left h⟩
          | cases h
    | int n n' =>
        rw [written_int, written_int] at h
        obtain ⟨hn, rfl⟩ := Text.repr_append_inj hr hr' h
        obtain rfl := Int64.toInt_inj.mp hn
        exact ⟨.int n, rfl⟩
    | str t id t' id' =>
        rw [written_str, written_str] at h
        obtain ⟨ht, rfl⟩ := Text.literal_append_inj h
        obtain rfl := String.toList_inj.mp ht
        exact ⟨.str t id id', rfl⟩
    | tuple items id items' id' =>
        rw [written_tuple, written_tuple, List.cons_append, List.cons_append] at h
        obtain ⟨hitems, rfl⟩ := Text.bracketed_inj rfl Text.stops_tupleRest
          (fun _ _ => Text.tupleRest_inj) (fun a ha => (hv.held (.item ha)).starts)
          (fun b hb => (hw.held (.item hb)).starts)
          (fun a ha b hb => ih a (.item ha) b (hw.held (.item hb))) (List.cons_eq_cons.mp h).2
        exact ⟨.tuple id id' hitems, rfl⟩
    | list ref ref' =>
        rw [hv.written_list, hw.written_list, List.cons_append, List.cons_append] at h
        obtain ⟨hitems, rfl⟩ := Text.bracketed_inj rfl (Text.stops_continued rfl)
          (fun _ _ => Text.continued_inj rfl (by decide))
          (fun a ha => (hv.held (.element ha)).starts) (fun b hb => (hw.held (.element hb)).starts)
          (fun a ha b hb => ih a (.element ha) b (hw.held (.element hb)))
          (List.cons_eq_cons.mp h).2
        exact ⟨.list hitems, rfl⟩
    | dict ref ref' =>
        rw [hv.written_dict, hw.written_dict, List.cons_append, List.cons_append] at h
        obtain ⟨hentries, rfl⟩ := Text.bracketed_inj rfl (Text.stops_continued rfl)
          (fun _ _ => Text.continued_inj rfl (by decide))
          (fun e he => (hv.held (.key he)).starts.append _)
          (fun e he => (hw.held (.key he)).starts.append _)
          (fun e he e' he' => reads_entry (ih e.key (.key he) e'.key (hw.held (.key he')))
            (ih e.value (.value he) e'.value (hw.held (.value he')))) (List.cons_eq_cons.mp h).2
        refine ⟨.dict ?_ ?_, rfl⟩
        · rw [List.forall₂_map_left_iff, List.forall₂_map_right_iff]
          exact hentries.imp fun _ _ h => h.1
        · rw [List.forall₂_map_left_iff, List.forall₂_map_right_iff]
          exact hentries.imp fun _ _ h => h.2

/-! ## Writing -/

/-- Lists whose members are related have the same texts if related members have. -/
theorem map_eq_of_forall₂ {α β : Type} {R : α → α → Prop} {f : α → β} {as bs : List α}
    (h : List.Forall₂ R as bs) (hf : ∀ a ∈ as, ∀ b ∈ bs, R a b → f a = f b) :
    as.map f = bs.map f := by
  induction h with
  | nil => rfl
  | cons hab _ ih =>
      rw [List.map_cons, List.map_cons, hf _ List.mem_cons_self _ List.mem_cons_self hab,
        ih fun a ha b hb => hf a (List.mem_cons_of_mem _ ha) b (List.mem_cons_of_mem _ hb)]

/-- The texts of entries are made of those of their keys and of their values. -/
theorem map_writtenEntry (es : List Entry) : es.map s.writtenEntry =
    List.zipWith (fun key value => key ++ ':' :: ' ' :: value)
      ((es.map (·.key)).map s.written) ((es.map (·.value)).map s.written) := by
  induction es with
  | nil => rfl
  | cons e es ih => exact congrArg (s.writtenEntry e :: ·) ih

/-- Identical values have one text. -/
theorem Data.written_eq (hv : s.Data v) :
    ∀ w, s.Data w → s.Identical v w → s.written v = s.written w := by
  induction hv using Data.induction with
  | step v hv ih =>
    intro w hw h
    -- identical values have parts that are identical in turn
    cases h with
    | none | bool | int => rfl
    | str t id id' => rw [written_str, written_str]
    | tuple id id' hitems =>
        rw [written_tuple, written_tuple, map_eq_of_forall₂ hitems fun a ha b hb =>
          ih a (.item ha) b (hw.held (.item hb))]
    | list hitems =>
        rw [hv.written_list, hw.written_list, map_eq_of_forall₂ hitems fun a ha b hb =>
          ih a (.element ha) b (hw.held (.element hb))]
    | dict hkeys hvalues =>
        rw [hv.written_dict, hw.written_dict, map_writtenEntry, map_writtenEntry]
        rw [map_eq_of_forall₂ hkeys, map_eq_of_forall₂ hvalues]
        · rintro _ ha _ hb
          obtain ⟨e, he, rfl⟩ := List.mem_map.mp ha
          obtain ⟨e', he', rfl⟩ := List.mem_map.mp hb
          exact ih e.value (.value he) e'.value (hw.held (.value he'))
        · rintro _ ha _ hb
          obtain ⟨e, he, rfl⟩ := List.mem_map.mp ha
          obtain ⟨e', he', rfl⟩ := List.mem_map.mp hb
          exact ih e.key (.key he) e'.key (hw.held (.key he'))

/-- The texts of two values of data are equal exactly if the values are identical. -/
theorem repr_eq_iff_identical (hv : s.Data v) (hw : s.Data w) :
    s.repr v = s.repr w ↔ s.Identical v w := by
  constructor
  · intro h
    have hwritten : s.written v ++ [] = s.written w ++ [] := by rw [written, written, h]
    exact (hv.reads w hw [] [] Text.stops_nil Text.stops_nil hwritten).1
  · intro h
    exact String.toList_inj.mp (hv.written_eq w hw h)

/-- Two lists, two dicts that hold them and two tuples of these, with separators, brackets and
quotes in their strings. -/
def punctuated : Store where
  lists := #[[.str "a', \"b]" 0, .int (-1)], [.str "a', \"b]" 1, .int (-1)]]
  dicts := #[Dict.set {} (.str "\\:\n") (.str "\\:\n" 2) (.list 0),
    Dict.set {} (.str "\\:\n") (.str "\\:\n" 3) (.list 1)]

/-- The dicts of this store are data values. -/
theorem data_punctuated {ref : Nat} (href : ref < 2) : punctuated.Data (.dict ref) := by
  have hlist : punctuated.Data (.list ref) := by
    refine .list href fun v hv => ?_
    interval_cases ref <;> rcases List.mem_pair.mp hv with rfl | rfl <;> first
      | exact .str _ _
      | exact .int _
  refine .dict href fun e he => ?_
  interval_cases ref <;> obtain rfl := List.mem_singleton.mp he <;> exact ⟨.str _ _, hlist⟩

/-- Two tuples of different dicts, whose keys and values are full of quotes, brackets and commas. -/
theorem repr_eq_iff_identical_punctuated :
    punctuated.Data (.tuple [.dict 0] 4) ∧ punctuated.Data (.tuple [.dict 1] 5) ∧
      punctuated.repr (.tuple [.dict 0] 4) = punctuated.repr (.tuple [.dict 1] 5) ∧
        punctuated.Identical (.tuple [.dict 0] 4) (.tuple [.dict 1] 5) := by
  have hdata {ref : Nat} (href : ref < 2) (id : Nat) : punctuated.Data (.tuple [.dict ref] id) :=
    .tuple fun v hv => List.mem_singleton.mp hv ▸ data_punctuated href
  have htext : punctuated.repr (.tuple [.dict 0] 4) = punctuated.repr (.tuple [.dict 1] 5) := by
    decide +kernel
  exact ⟨hdata (by decide) 4, hdata (by decide) 5, htext,
    (repr_eq_iff_identical (hdata (by decide) 4) (hdata (by decide) 5)).mp htext⟩

end Store

end Wordcode
