import ModelData.Yaml.Node
import ModelData.Yaml.Plain

/-!
Entries taken over from other tables. What stands under the mark of a merge is a table or a
list of tables; their entries come in front of those of the table itself, the last table of a
list first, so that of equal keys the table itself counts before others, and an earlier table
of a list before a later one. A merge of anything else cannot be made; of a table with such a
merge nothing is left but that.
-/

namespace ModelData.Yaml.Node

/-- Whether a key is the mark of a merge, by its spelling or by its tag. -/
def isMergeMark : Node → Bool
  | .scalar marks isPlain text =>
    match marks.tag with
    | none => isPlain && plainKind text = .merge
    | some .bySpelling => plainKind text = .merge
    | some (.core name) => name = "merge"
    | some .foreign => false
  | _ => false

/-- The entries of a table. -/
def entries? : Node → Option (List (Node × Node))
  | .table _ entries => some entries
  | _ => none

/-- The entries of the tables that an entry takes over. -/
def takenOver? (value : Node) : Option (List (Node × Node)) :=
  match value with
  | .table _ entries => some entries
  | .list _ items => (items.reverse.mapM entries?).map List.flatten
  | _ => none

/-- A merge among entries that cannot be made. -/
def badMerge? (entries : List (Node × Node)) : Option (Node × Node) :=
  entries.find? fun (key, _) => key.isMergeMark

/-- The entries with those that they take over; the entries of other tables are already so. -/
def flatten (entries : List (Node × Node)) : List (Node × Node) :=
  let merges := entries.filter fun (key, _) => key.isMergeMark
  let own := entries.filter fun (key, _) => !key.isMergeMark
  let taken := merges.flatMap fun (key, value) => value.takenOver?.getD [(key, value)]
  match badMerge? taken with
  | some entry => [entry]
  | none => taken ++ own

mutual

/-- A tree in which merges have been made. -/
def merged : Node → Node
  | .list marks items => .list marks (mergedItems items)
  | .table marks entries => .table marks (flatten (mergedEntries entries))
  | n => n

def mergedItems : List Node → List Node
  | [] => []
  | n :: rest => merged n :: mergedItems rest

def mergedEntries : List (Node × Node) → List (Node × Node)
  | [] => []
  | (key, value) :: rest => (merged key, merged value) :: mergedEntries rest

end

end ModelData.Yaml.Node
