import ModelData.Yaml.Tag

/-!
The tree of nodes in a text. A node is a scalar, a list or a table, with the marks in front of
it, or stands for a node before it by the name of its anchor.
-/

namespace ModelData.Yaml

inductive Node where
  /-- A plain scalar is read by its spelling; a quoted one is a text. -/
  | scalar (marks : Marks) (isPlain : Bool) (text : List Char)
  | list (marks : Marks) (items : List Node)
  | table (marks : Marks) (entries : List (Node × Node))
  | alias (name : String)

namespace Node

/-- Nothing where a node could stand. -/
def empty : Node :=
  .scalar {} true []

def isCollection : Node → Bool
  | .list .. | .table .. => true
  | _ => false

/-- Adds marks to those of a node; neither may have what the other has. -/
def joinMarks (outer inner : Marks) : Except Fault Marks :=
  if (outer.tag.isSome && inner.tag.isSome) || (outer.anchor.isSome && inner.anchor.isSome) then
    .error .malformed
  else .ok ⟨outer.tag.or inner.tag, outer.anchor.or inner.anchor⟩

/-- A node behind marks. An alias has none. -/
def mark (outer : Marks) (n : Node) : Except Fault Node :=
  if outer.isEmpty then .ok n
  else
    match n with
    | .scalar inner isPlain text => do return .scalar (← joinMarks outer inner) isPlain text
    | .list inner items => do return .list (← joinMarks outer inner) items
    | .table inner entries => do return .table (← joinMarks outer inner) entries
    | .alias _ => .error .malformed

/-- Nothing behind marks. -/
def emptyBehind (marks : Marks) : Node :=
  .scalar marks true []

end Node

end ModelData.Yaml
