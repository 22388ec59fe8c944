namespace Wordcode.Sort

/-! # Stable sorting

A stable sort whose comparison may fail: blocks of twenty are sorted by insertion, then neighbouring
runs are merged until one is left. Which items are compared, and in which order, is part of the
definition, because the first comparison that fails decides the outcome.

* `Sort.stable` sorts a list.
* `Sort.merge` merges two runs by splitting both around their common middle.
-/

variable {m : Type → Type} [Monad m] {α : Type}

/-- Inserts an item into a run that is kept in reverse. -/
def insert (less : α → α → m Bool) (x : α) : List α → m (List α)
  | [] => return [x]
  | y :: ys => do
    if ← less x y then return y :: (← insert less x ys) else return x :: y :: ys

/-- Sorts by insertion from the left. -/
def insertion (less : α → α → m Bool) (xs : List α) : m (List α) := do
  return (← xs.foldlM (fun run x => insert less x run) []).reverse

/-- The least position between `low` and `high` at which a test that changes once from true to
false is false, by halving. -/
def search (test : Nat → m Bool) : Nat → Nat → Nat → m Nat
  | 0, low, _ => return low
  | fuel + 1, low, high =>
    if low < high then do
      let middle := (low + high) / 2
      if ← test middle then search test fuel (middle + 1) high else search test fuel low middle
    else return low

/-- Compares two positions of an array. -/
def lessAt (less : α → α → m Bool) (xs : Array α) (i j : Nat) : m Bool :=
  match xs[i]?, xs[j]? with
  | some x, some y => less x y
  | _, _ => return false

/-- Merges two runs. A run of one item is put in place by binary search. Otherwise both runs are cut
so that the lower parts fill the first half, and the halves are merged on their own. -/
def merge (less : α → α → m Bool) : Nat → List α → List α → m (List α)
  | 0, xs, ys => return xs ++ ys
  | _, [], ys => return ys
  | _, xs, [] => return xs
  | _ + 1, [x], ys => do
    let table := ys.toArray
    let i ← search (fun h => match table[h]? with
      | some y => less y x
      | none => return false) (ys.length + 1) 0 ys.length
    return ys.take i ++ x :: ys.drop i
  | _ + 1, xs, [y] => do
    let table := xs.toArray
    let i ← search (fun h => match table[h]? with
      | some x => return !(← less y x)
      | none => return false) (xs.length + 1) 0 xs.length
    return xs.take i ++ y :: xs.drop i
  | fuel + 1, xs, ys => do
    let all := xs ++ ys
    let table := all.toArray
    let size := all.length
    let split := xs.length
    let middle := size / 2
    let n := middle + split
    let (low, high) := if middle < split then (n - size, middle) else (0, split)
    let start ← search (fun c => return !(← lessAt less table (n - 1 - c) c)) (size + 1) low high
    let stop := n - start
    let lower ← merge less fuel (all.take start) ((all.drop split).take (stop - split))
    let upper ← merge less fuel ((all.drop start).take (split - start)) (all.drop stop)
    return lower ++ upper

/-- The size of the blocks that are sorted by insertion. -/
def blockSize : Nat := 20

/-- Cuts a list into blocks; the last one may be shorter. -/
def blocks : Nat → List α → List (List α)
  | 0, _ => []
  | fuel + 1, xs =>
    if xs.isEmpty then [] else xs.take blockSize :: blocks fuel (xs.drop blockSize)

/-- Merges runs two by two. -/
def mergePairs (less : α → α → m Bool) : List (List α) → m (List (List α))
  | xs :: ys :: rest => do
    return (← merge less (xs.length + ys.length) xs ys) :: (← mergePairs less rest)
  | runs => return runs

/-- Merges runs until one is left. -/
def mergeAll (less : α → α → m Bool) : Nat → List (List α) → m (List α)
  | 0, runs => return runs.flatten
  | _, [] => return []
  | _, [run] => return run
  | fuel + 1, runs => do mergeAll less fuel (← mergePairs less runs)

/-- Sorts a list so that items which compare equal keep their order. -/
def stable (less : α → α → m Bool) (xs : List α) : m (List α) := do
  let runs ← (blocks xs.length xs).mapM (insertion less)
  mergeAll less runs.length runs

end Wordcode.Sort
