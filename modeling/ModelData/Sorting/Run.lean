/-!
Runs at the front of a list. A run either rises, so that no item comes before the one in front
of it, or falls, so that each does; a falling run is turned round. A run that is too short
takes in the items behind it, each at the place that a search by halves finds, behind what it
does not come before. Two items may refuse to be compared, and then there is no run.
-/

namespace ModelData.Sorting

variable {ε α : Type}

/-- The rest of a run behind its last item so far, and what is left when it ends. -/
def runAfter (before : α → α → Except ε Bool) (falls : Bool) (last : α) :
    List α → Except ε (List α × List α)
  | [] => .ok ([], [])
  | x :: rest => do
    if (← before x last) = falls then
      let (run, left) ← runAfter before falls x rest
      return (x :: run, left)
    else return ([], x :: rest)

/-- The run that a list starts with, in rising order, and what is left. -/
def firstRun (before : α → α → Except ε Bool) : List α → Except ε (List α × List α)
  | first :: second :: rest => do
    let falls ← before second first
    let (run, left) ← runAfter before falls second rest
    let run := first :: second :: run
    return (if falls then run.reverse else run, left)
  | xs => .ok (xs, [])

/-- The place for an item among sorted ones, from one place up to another. -/
def placeFor (before : α → α → Except ε Bool) (x : α) (sorted : List α) (low high : Nat) :
    Except ε Nat :=
  if low < high then
    match sorted[(low + high) / 2]? with
    | none => .ok low
    | some y => do
      if ← before x y then placeFor before x sorted low ((low + high) / 2)
      else placeFor before x sorted ((low + high) / 2 + 1) high
  else .ok low
termination_by high - low
decreasing_by all_goals omega

def insertAll (before : α → α → Except ε Bool) (sorted : List α) :
    List α → Except ε (List α)
  | [] => .ok sorted
  | x :: rest => do
    let place ← placeFor before x sorted 0 sorted.length
    insertAll before (sorted.insertIdx place x) rest

/-- The next run, filled up to the least length if it is shorter, and what is left. -/
def nextRun (before : α → α → Except ε Bool) (least : Nat) (xs : List α) :
    Except ε (List α × List α) := do
  let (run, left) ← firstRun before xs
  let missing := least - run.length
  return (← insertAll before run (left.take missing), left.drop missing)

/-- The least length of runs: all items if they are fewer than 64, and else from 32 to 64, so
that the number of runs is a power of two or little less. -/
def leastRun (n : Nat) (carry : Nat) : Nat :=
  if n < 64 then n + carry else leastRun (n / 2) (max carry (n % 2))
termination_by n

end ModelData.Sorting
