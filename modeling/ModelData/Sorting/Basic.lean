import ModelData.Sorting.Run
import ModelData.Sorting.Merge

/-!
Sorting by comparing pairs of items, which may refuse to be compared. Runs are found from the
front, and a run waits until it is merged with a neighbour. Between two neighbours lies a
level: the number of times the whole has to be halved until their middles lie in different
parts. Before a run is added, runs that wait at higher levels are merged. Which pairs are
compared, and in which order, is part of what is defined here, as it shows where the order is
none or where pairs cannot be compared.
-/

namespace ModelData.Sorting

variable {ε α : Type}

/-- A run that waits, the place of its first item, and the level between it and the next. -/
structure Waiting (α : Type) where
  start : Nat
  items : List α
  level : Nat

/-- How often a whole has to be halved until two places in it, in halves, lie in different
parts. -/
def levelFrom (total : Nat) : (steps : Nat) → (a b : Nat) → Nat
  | 0, _, _ => 0
  | steps + 1, a, b =>
    if a / total = b / total then levelFrom total steps (2 * a) (2 * b) + 1 else 1

/-- The level between two neighbours, from the place and length of the first and the length of
the second. -/
def levelBetween (total start first second : Nat) : Nat :=
  let a := 2 * start + first
  levelFrom total (total.log2 + 2) a (a + first + second)

/-- Merges the last run that waits with those before it that wait at higher levels. -/
def collapse (before : α → α → Except ε Bool) (level : Nat) (last : Waiting α)
    (patience : Nat) : List (Waiting α) → Except ε (List (Waiting α) × Nat)
  | [] => .ok ([{ last with level }], patience)
  | run :: rest =>
    if level < run.level then do
      let (items, patience) ← merge before patience run.items last.items
      collapse before level ⟨run.start, items, level⟩ patience rest
    else .ok ({ last with level } :: run :: rest, patience)

/-- Merges all runs that wait, the last ones first; the shorter of two neighbours of a run is
merged with it. -/
def mergeAll (before : α → α → Except ε Bool) (patience : Nat) :
    List (Waiting α) → Except ε (List α)
  | [] => .ok []
  | [run] => .ok run.items
  | [last, run] => do
    let (items, _) ← merge before patience run.items last.items
    return items
  | last :: run :: third :: rest =>
    if third.items.length < last.items.length then do
      let (items, patience) ← merge before patience third.items run.items
      mergeAll before patience (last :: ⟨third.start, items, 0⟩ :: rest)
    else do
      let (items, patience) ← merge before patience run.items last.items
      mergeAll before patience (⟨run.start, items, 0⟩ :: third :: rest)
termination_by waiting => waiting.length

/-- Adds the runs of what is left to those that wait, and merges them all. The steps bound the
number of runs. -/
def sortFrom (before : α → α → Except ε Bool) (total : Nat) : (steps : Nat) → (patience : Nat) →
    List (Waiting α) → List α → Except ε (List α)
  | 0, patience, waiting, _ => mergeAll before patience waiting
  | _, patience, waiting, [] => mergeAll before patience waiting
  | steps + 1, patience, waiting, x :: xs => do
    let (items, left) ← nextRun before (leastRun total 0) (x :: xs)
    let start := total - (x :: xs).length
    match waiting with
    | [] => sortFrom before total steps patience [⟨start, items, 0⟩] left
    | last :: rest => do
      let level := levelBetween total last.start last.items.length items.length
      let (waiting, patience) ← collapse before level last patience rest
      sortFrom before total steps patience (⟨start, items, 0⟩ :: waiting) left

/-- Sorts by comparing pairs; the first pair that cannot be compared ends it. -/
def sort (before : α → α → Except ε Bool) (xs : List α) : Except ε (List α) :=
  sortFrom before xs.length xs.length worthwhile [] xs

end ModelData.Sorting
