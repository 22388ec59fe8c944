import Wordcode.Store.Equality
import Wordcode.Store.Repr

namespace Wordcode

/-! # Operations on dicts

Operations look up, set and remove values, which must have keys; merge dicts; and make lists of what
a dict holds.

* `Op.dictGet?`, `Op.dictSet` and `Op.dictPop?` are the operations on one key.
* `Op.dictMerge` sets the keys of entries, `Op.dictUnion` does that in a copy.
-/

namespace Op

/-- The key under which a dict files a value. -/
def hash (v : Value) : Op HashKey := ofExcept v.hash

/-- The value of a key. -/
def dictGet? (ref : Nat) (key : Value) : Op (Option Value) := do
  let h ← hash key
  return (← dict ref).find? h

/-- Sets the value of a key. -/
def dictSet (ref : Nat) (key value : Value) : Op Unit := do
  let h ← hash key
  setDict ref ((← dict ref).set h key value)

/-- Removes a key and returns its value if it was there. -/
def dictPop? (ref : Nat) (key : Value) : Op (Option Value) := do
  let h ← hash key
  match (← dict ref).remove? h with
  | some (v, d) =>
    setDict ref d
    return some v
  | none => return none

/-- A fault about a missing key. -/
def missingKey {α : Type} (key : Value) : Op α := do raise .key (← repr key)

/-- Removes a key, which must be there. -/
def dictDelete (ref : Nat) (key : Value) : Op Unit := do
  match ← dictPop? ref key with
  | some _ => return ()
  | none => missingKey key

/-- Removes all keys. -/
def dictClear (ref : Nat) : Op Unit := setDict ref {}

/-- A new dict with the same entries. -/
def dictCopy (ref : Nat) : Op Value := do newDict (← dict ref)

/-- The value of a key, which is set to another value if it is not there. -/
def dictSetDefault (ref : Nat) (key fallback : Value) : Op Value := do
  match ← dictGet? ref key with
  | some v => return v
  | none =>
    dictSet ref key fallback
    return fallback

/-- Sets the keys of entries one after another. -/
def dictMerge (ref : Nat) (entries : List Entry) : Op Unit := do
  setDict ref ((← dict ref).setAll entries)

/-- A copy of a dict into which another one is merged. -/
def dictUnion (a b : Nat) : Op Value := do newDict ((← dict a).setAll (← entries b))

/-- A new list of the keys. -/
def dictKeys (ref : Nat) : Op Value := do newList ((← entries ref).map (·.key))

/-- A new list of the values. -/
def dictValues (ref : Nat) : Op Value := do newList ((← entries ref).map (·.value))

/-- A new list of the pairs of keys and values. -/
def dictItems (ref : Nat) : Op Value := do
  newList (← (← entries ref).mapM fun e => newTuple [e.key, e.value])

/-- Makes a dict from keys and values; later values of equal keys win. -/
def dictOfPairs (pairs : List (Value × Value)) : Op Value := do
  newDict (← pairs.foldlM (fun d (key, value) => return d.set (← hash key) key value) {})

end Op

end Wordcode
