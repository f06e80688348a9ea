/-!
Counting the items at the front of a list that pass a test. Items are looked at in steps that
double until one fails, and then by halves between the last that passed and the first that
failed. Where the test fails for all items behind one that failed, this is the length of the
longest front that passes; a test may also refuse to answer.
-/

namespace ModelData.Sorting

variable {ε α : Type}

/-- From a place up to which items passed and a next place to look at: the bounds between which
the count lies. -/
def widen (passes : α → Except ε Bool) (xs : List α) (low next : Nat) :
    Except ε (Nat × Nat) :=
  if h : next < xs.length then do
    if ← passes xs[next] then widen passes xs (next + 1) (2 * next + 1)
    else return (low, next)
  else return (low, xs.length)
termination_by xs.length - next

/-- The place between two bounds that is looked at. Where a list is read from its end, of two
places in the middle the other one is taken. -/
def middle (fromEnd : Bool) (low high : Nat) : Nat :=
  if fromEnd then low + (high - low - 1) / 2 else low + (high - low) / 2

/-- The count between two bounds. -/
def narrow (fromEnd : Bool) (passes : α → Except ε Bool) (xs : List α) (low high : Nat) :
    Except ε Nat :=
  if low < high then
    match xs[middle fromEnd low high]? with
    | none => .ok low
    | some x => do
      if ← passes x then narrow fromEnd passes xs (middle fromEnd low high + 1) high
      else narrow fromEnd passes xs low (middle fromEnd low high)
  else .ok low
termination_by high - low
decreasing_by all_goals (unfold middle; split <;> omega)

/-- How many items at the front pass. -/
def countFront (fromEnd : Bool) (passes : α → Except ε Bool) : List α → Except ε Nat
  | [] => .ok 0
  | x :: rest => do
    if ← passes x then
      let (low, high) ← widen passes (x :: rest) 1 1
      narrow fromEnd passes (x :: rest) low high
    else return 0

end ModelData.Sorting
