namespace Wordcode.Assoc

/-! # Association lists

Lists of names with data, each name at most once. `List.lookup` reads them.
-/

/-- Sets the datum of a name: in place if the name is there, at the end if it is new. -/
def set {α : Type} (entries : List (String × α)) (name : String) (a : α) : List (String × α) :=
  match entries with
  | [] => [(name, a)]
  | (n, b) :: rest => if n = name then (n, a) :: rest else (n, b) :: set rest name a

/-- Removes a name. -/
def erase {α : Type} (entries : List (String × α)) (name : String) : List (String × α) :=
  entries.filter (·.1 ≠ name)

/-- Sets all entries of a list one after another. -/
def setAll {α : Type} (entries new : List (String × α)) : List (String × α) :=
  new.foldl (fun es (name, a) => set es name a) entries

/-- Entries in the order of their names. -/
def sort {α : Type} (entries : List (String × α)) : List (String × α) :=
  entries.mergeSort fun a b => decide (a.1 ≤ b.1)

end Wordcode.Assoc
