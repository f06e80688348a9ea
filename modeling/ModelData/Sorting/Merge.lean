import ModelData.Sorting.Search

/-!
Merging two runs that follow each other. Items are compared one by one until one run has won
so often in a row that it is worth searching how far it goes on winning; when the searches
bring little, items are compared one by one again. The number of wins that it takes, the
patience, goes over from one merge to the next. The shorter run is merged into the longer
one: from the front if the first run is no longer than the second, and otherwise from the
end, where both runs are read backwards.
-/

namespace ModelData.Sorting

variable {ε α : Type}

/-- What a merge goes by: whether an item of the second run goes before one of the first, and
whether the runs are read from their ends. -/
structure Merging (ε α : Type) where
  secondGoes : α → α → Except ε Bool
  fromEnd : Bool

/-- What a merge does next. A search is known by the number of items it has brought. -/
inductive Phase where
  /-- Compare the next items; the runs have won so often in a row. -/
  | comparing (firstWins secondWins : Nat)
  | searchingFirst (again : Bool)
  | takingSecond (ofFirst : Nat)
  | searchingSecond (ofFirst : Nat)
  | takingFirst (ofFirst ofSecond : Nat)
  | leaving

/-- Where a merge stands: what is left of the runs, what is done next, and the patience. -/
structure Standing (α : Type) where
  first : List α
  second : List α
  phase : Phase
  patience : Nat

/-- The number of items that a search has to bring for the searches to go on, and the patience
to start with. -/
def worthwhile : Nat := 7

/-- What is left of two runs once it needs no more comparing: one of them has run out, or one
item is left of the shorter run, and goes behind all others. -/
def settled? (fromEnd : Bool) (first second : List α) : Option (List α) :=
  match first, second with
  | first, [] => some first
  | [], second => some second
  | [x], second => if fromEnd then lastOfSecond [x] second else some (second ++ [x])
  | first, second => if fromEnd then lastOfSecond first second else none
where
  lastOfSecond (first : List α) : List α → Option (List α)
    | [y] => some (first ++ [y])
    | _ => none

/-- The next items of a merge, and where it stands then. -/
def Merging.step (m : Merging ε α) (s : Standing α) : Except ε (List α × Standing α) :=
  match s.phase, s.first, s.second with
  | .comparing firstWins secondWins, x :: xs, y :: ys => do
    if ← m.secondGoes y x then
      return ([y], { s with
        second := ys
        phase := if s.patience ≤ secondWins + 1 then .searchingFirst false
          else .comparing 0 (secondWins + 1) })
    else
      return ([x], { s with
        first := xs
        phase := if s.patience ≤ firstWins + 1 then .searchingFirst false
          else .comparing (firstWins + 1) 0 })
  | .searchingFirst again, first, y :: _ => do
    let n ← countFront m.fromEnd (fun x => do return !(← m.secondGoes y x)) first
    return (first.take n, { s with
      first := first.drop n
      phase := .takingSecond n
      patience := if again then max 1 (s.patience - 1) else s.patience })
  | .takingSecond n, _, y :: ys => .ok ([y], { s with second := ys, phase := .searchingSecond n })
  | .searchingSecond ofFirst, x :: _, second => do
    let n ← countFront m.fromEnd (fun y => m.secondGoes y x) second
    return (second.take n, { s with second := second.drop n, phase := .takingFirst ofFirst n })
  | .takingFirst ofFirst ofSecond, x :: xs, _ =>
    .ok ([x], { s with
      first := xs
      phase := if worthwhile ≤ ofFirst || worthwhile ≤ ofSecond then .searchingFirst true
        else .leaving })
  | .leaving, _, _ => .ok ([], { s with phase := .comparing 0 0, patience := s.patience + 1 })
  | _, _, _ => .ok ([], s)

/-- Goes on merging, for some steps at most; with the items comes the patience at the end. -/
def Merging.finish (m : Merging ε α) : Nat → Standing α → Except ε (List α × Nat)
  | 0, s => .ok (s.first ++ s.second, s.patience)
  | steps + 1, s =>
    match settled? m.fromEnd s.first s.second with
    | some rest => .ok (rest, s.patience)
    | none => do
      let (items, next) ← m.step s
      let (rest, patience) ← m.finish steps next
      return (items ++ rest, patience)

/-- Merges what follows the first item. Three steps suffice for an item. -/
def Merging.start (m : Merging ε α) (patience : Nat) (first second : List α) :
    Except ε (List α × Nat) :=
  m.finish (3 * (first.length + second.length) + 3) ⟨first, second, .comparing 0 0, patience⟩

/-- Merges two runs of which the second starts with the first of all items, and the first ends
with the last. -/
def mergeOverlap (before : α → α → Except ε Bool) (patience : Nat) (first second : List α) :
    Except ε (List α × Nat) :=
  if first.length ≤ second.length then
    match second with
    | [] => .ok (first, patience)
    | y :: ys => do
      let (rest, patience) ← Merging.start ⟨before, false⟩ patience first ys
      return (y :: rest, patience)
  else
    match first.reverse with
    | [] => .ok (second, patience)
    | x :: xs => do
      let (rest, patience) ←
        Merging.start ⟨fun y x => do return !(← before y x), true⟩ patience xs second.reverse
      return ((x :: rest).reverse, patience)

/-- Merges two runs. What goes in front of the second run stays where it is, and so does what
goes behind the first. -/
def merge (before : α → α → Except ε Bool) (patience : Nat) (first second : List α) :
    Except ε (List α × Nat) :=
  match second with
  | [] => .ok (first, patience)
  | y :: _ => do
    let n ← countFront false (fun x => do return !(← before y x)) first
    match (first.drop n).getLast? with
    | none => return (first ++ second, patience)
    | some x => do
      let kept ← countFront true (fun z => do return !(← before z x)) second.reverse
      let inner := second.length - kept
      if inner = 0 then return (first ++ second, patience)
      else
        let (merged, patience) ←
          mergeOverlap before patience (first.drop n) (second.take inner)
        return (first.take n ++ merged ++ second.drop inner, patience)

end ModelData.Sorting
