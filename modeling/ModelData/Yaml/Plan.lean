import ModelData.Yaml.Merge
import ModelData.Yaml.Tagged
import ModelData.Value.Table

/-!
What nodes stand for. A tree is turned into a plan: scalars are read, and collections are of
the kind that their tags ask for. Collections are filled in level by level, so of several
faults the one nearest to the root counts, and of these the first. A key cannot be a list, a
table or a set; a key that occurs again keeps its first place and takes its last value.
-/

namespace ModelData.Yaml

/-- What is to be made of a node. -/
inductive Plan where
  | leaf (r : Except Fault Value)
  | list (items : List Plan)
  | table (entries : List (Plan × Plan))
  | set (entries : List (Plan × Plan))
  /-- A list of pairs, each from a table with one entry. -/
  | pairs (entries : List (Plan × Plan))
  /-- A collection that cannot be filled from its node. -/
  | unfillable

namespace Plan

def malformed : Plan :=
  .leaf (.error .malformed)

def isCollection : Plan → Bool
  | .leaf _ => false
  | _ => true

end Plan

/-- The kinds of collections that a tag may ask for. -/
inductive CollectionKind where
  | list
  | table
  | set
  | pairs
deriving DecidableEq

def CollectionKind.ofName? : String → Option CollectionKind
  | "seq" => some .list
  | "map" => some .table
  | "set" => some .set
  | "omap" | "pairs" => some .pairs
  | _ => none

/-- The kind of collection that a tag asks for, where there may be one. -/
def Tag.collection? (usual : CollectionKind) : Option Tag → Option CollectionKind
  | none | some .bySpelling => some usual
  | some (.core name) => CollectionKind.ofName? name
  | some .foreign => none

namespace Node

/-- Whether a key is the mark of a chief value, by its spelling or by its tag. -/
def isChiefMark : Node → Bool
  | .scalar marks isPlain text =>
    match marks.tag with
    | none => isPlain && plainKind text = .chief
    | some .bySpelling => plainKind text = .chief
    | some (.core name) => name = "value"
    | some .foreign => false
  | _ => false

mutual

/-- The text of a scalar, or of the chief value of a table. -/
def chiefText? : Node → Option (List Char)
  | .scalar _ _ text => some text
  | .table _ entries => chiefTextAmong? entries
  | _ => none

def chiefTextAmong? : List (Node × Node) → Option (List Char)
  | [] => none
  | (key, value) :: rest => if key.isChiefMark then chiefText? value else chiefTextAmong? rest

end

/-- What a table with the tag of a scalar stands for. -/
def chiefPlan (tag : Option Tag) (entries : List (Node × Node)) : Plan :=
  match chiefTextAmong? entries with
  | some text => .leaf (scalarValue false tag true text)
  | none => .malformed

/-- A scalar with the tag of a collection cannot become one. -/
def scalarPlan (isKey : Bool) (tag : Option Tag) (isPlain : Bool) (text : List Char) : Plan :=
  match tag with
  | some (.core name) =>
    if (CollectionKind.ofName? name).isSome then .unfillable
    else .leaf (taggedValue isKey name text)
  | tag => .leaf (scalarValue isKey tag isPlain text)

mutual

def plan (isKey : Bool) : Node → Plan
  | .scalar marks isPlain text => scalarPlan isKey marks.tag isPlain text
  | .list marks items =>
    match Tag.collection? .list marks.tag with
    | some .list => .list (itemPlans items)
    | some .pairs => .pairs (pairPlans items)
    | some _ => .unfillable
    | none => .malformed
  | .table marks entries =>
    match Tag.collection? .table marks.tag with
    | some .table => .table (entryPlans entries)
    | some .set => .set (entryPlans entries)
    | some _ => .unfillable
    | none => chiefPlan marks.tag entries
  | .alias _ => .malformed

def itemPlans : List Node → List Plan
  | [] => []
  | n :: rest => plan false n :: itemPlans rest

def entryPlans : List (Node × Node) → List (Plan × Plan)
  | [] => []
  | (key, value) :: rest => (plan true key, plan false value) :: entryPlans rest

/-- The pairs of a list of tables with one entry each. -/
def pairPlans : List Node → List (Plan × Plan)
  | [] => []
  | .table _ [(key, value)] :: rest => (plan false key, plan false value) :: pairPlans rest
  | _ :: _ => [(.malformed, .malformed)]

end

end Node

namespace Plan

/-- The fault of a part itself. -/
def ownFault? : Plan → Option Fault
  | .leaf (.error f) => some f
  | _ => none

mutual

/-- The faults in a plan with their distance from the root, in the order in which they are met. -/
def faults (level : Nat) : Plan → List (Nat × Fault)
  | .leaf (.error f) => [(level, f)]
  | .leaf (.ok _) => []
  | .list items => itemFaults (level + 1) items
  | .table entries | .set entries => entryFaults true (level + 1) entries
  | .pairs entries => entryFaults false (level + 1) entries
  | .unfillable => [(level + 1, .malformed)]

def itemFaults (level : Nat) : List Plan → List (Nat × Fault)
  | [] => []
  | p :: rest => faults level p ++ itemFaults level rest

/-- Collections among the keys are faults where these are looked up. -/
def entryFaults (areKeys : Bool) (level : Nat) : List (Plan × Plan) → List (Nat × Fault)
  | [] => []
  | (key, value) :: rest =>
    faults level key ++ (if areKeys && key.isCollection then [(level, .malformed)] else [])
      ++ faults level value ++ entryFaults areKeys level rest

end

/-- The first of the faults that are nearest to the root. -/
def nearest : List (Nat × Fault) → Option (Nat × Fault)
  | [] => none
  | f :: rest =>
    match nearest rest with
    | none => some f
    | some g => if g.1 < f.1 then some g else some f

mutual

/-- The value of a plan without faults. -/
def value : Plan → Value
  | .leaf (.ok v) => v
  | .leaf (.error _) | .unfillable => .null
  | .list items => .list (itemValues items)
  | .table entries => .table (Table.ofList (entryValues entries))
  | .set _ => .unknown "set" 0
  | .pairs entries => .list (pairValues entries)

def itemValues : List Plan → List Value
  | [] => []
  | p :: rest => value p :: itemValues rest

def entryValues : List (Plan × Plan) → List (Value × Value)
  | [] => []
  | (key, v) :: rest => (value key, value v) :: entryValues rest

def pairValues : List (Plan × Plan) → List Value
  | [] => []
  | (key, v) :: rest => .tuple [value key, value v] :: pairValues rest

end

/-- The value of a plan, or the fault that counts. -/
def carryOut (p : Plan) : Except Fault Value :=
  match nearest (p.faults 0) with
  | some (_, f) => .error f
  | none => .ok p.value

end Plan

end ModelData.Yaml
