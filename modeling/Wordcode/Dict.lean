import Wordcode.Value

namespace Wordcode

/-! # Dicts

A dict is a list of entries in the order of insertion, and an index that says for the key of each
entry where in the list it stands.

* `Dict.find?` looks a key up through the index.
* `Dict.set` replaces the value of a key that is there, keeping the position and the earlier key,
  and appends a new key.
* `Dict.remove?` drops a key and keeps the order of the rest, which moves the later entries.
-/

/-- The value filed under a key in a list of entries. -/
def Entry.find? (entries : List Entry) (hash : HashKey) : Option Value :=
  (List.find? (fun e : Entry => e.hash == hash) entries).map (·.value)

/-- Positions by keys. -/
abbrev Positions := List (HashKey × Nat)

namespace Positions

/-- The position of a key. -/
def find? (ps : Positions) (hash : HashKey) : Option Nat :=
  (List.find? (fun p : HashKey × Nat => p.1 == hash) ps).map (·.2)

/-- Sets the position of a key. -/
def set (ps : Positions) (hash : HashKey) (i : Nat) : Positions :=
  match ps with
  | [] => [(hash, i)]
  | p :: ps => if p.1 == hash then (p.1, i) :: ps else p :: set ps hash i

/-- Drops a key. -/
def erase (ps : Positions) (hash : HashKey) : Positions :=
  ps.filter fun p => !(p.1 == hash)

/-- Sets the positions of entries that stand one after another from position `i` on. -/
def setFrom (ps : Positions) (i : Nat) : List Entry → Positions
  | [] => ps
  | e :: es => setFrom (ps.set e.hash i) (i + 1) es

end Positions

/-- A mapping from keys to values that keeps the order of insertion. -/
structure Dict where
  entries : List Entry := []
  index : Positions := []
  deriving Inhabited

namespace Dict

/-- The number of entries. -/
def size (d : Dict) : Nat := d.entries.length

/-- The value of a key. -/
def find? (d : Dict) (hash : HashKey) : Option Value :=
  match d.index.find? hash with
  | some i => d.entries[i]?.map (·.value)
  | none => none

/-- Sets the value of a key. -/
def set (d : Dict) (hash : HashKey) (key value : Value) : Dict :=
  match d.index.find? hash with
  | some i => { d with entries := d.entries.modify i ({ · with value }) }
  | none =>
    { entries := d.entries ++ [{ hash, key, value }], index := d.index.set hash d.size }

/-- Sets the keys of entries one after another. -/
def setAll (d : Dict) (new : List Entry) : Dict :=
  new.foldl (fun d e => d.set e.hash e.key e.value) d

/-- The value of a key, and the dict without it. -/
def remove? (d : Dict) (hash : HashKey) : Option (Value × Dict) := do
  let i ← d.index.find? hash
  let e ← d.entries[i]?
  let rest := d.entries.eraseIdx i
  return (e.value, { entries := rest, index := (d.index.erase hash).setFrom i (rest.drop i) })

end Dict

end Wordcode
