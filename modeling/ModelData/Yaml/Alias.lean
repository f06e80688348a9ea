import ModelData.Yaml.Node

/-!
Aliases. In the order of the text, an anchor gives its name to a node, and an alias behind it
stands for a copy of that node. No name is given twice, and an alias of a name that has not
been given, or of a node that is not complete yet, is malformed.
-/

namespace ModelData.Yaml

/-- The nodes that have been given a name. -/
abbrev Anchors := List (String × Node)

/-- Gives a node its name, if it has an anchor. -/
def Anchors.add (known : Anchors) (marks : Marks) (n : Node) : Except Fault (Node × Anchors) :=
  match marks.anchor with
  | none => .ok (n, known)
  | some name =>
    if (known.lookup name).isSome then .error .malformed else .ok (n, (name, n) :: known)

namespace Node

mutual

/-- A tree without aliases, and the names that are known behind it. -/
def resolve (known : Anchors) : Node → Except Fault (Node × Anchors)
  | .alias name =>
    match known.lookup name with
    | some n => .ok (n, known)
    | none => .error .malformed
  | .scalar marks isPlain text => known.add marks (.scalar marks isPlain text)
  | .list marks items => do
    let (items, known) ← resolveItems known items
    known.add marks (.list marks items)
  | .table marks entries => do
    let (entries, known) ← resolveEntries known entries
    known.add marks (.table marks entries)

def resolveItems (known : Anchors) : List Node → Except Fault (List Node × Anchors)
  | [] => .ok ([], known)
  | n :: rest => do
    let (n, known) ← resolve known n
    let (rest, known) ← resolveItems known rest
    return (n :: rest, known)

def resolveEntries (known : Anchors) :
    List (Node × Node) → Except Fault (List (Node × Node) × Anchors)
  | [] => .ok ([], known)
  | (key, value) :: rest => do
    let (key, known) ← resolve known key
    let (value, known) ← resolve known value
    let (rest, known) ← resolveEntries known rest
    return ((key, value) :: rest, known)

end

end Node

end ModelData.Yaml
