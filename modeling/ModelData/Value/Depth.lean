import ModelData.Value.Basic

/-!
How deep lists and tables nest in a value. What is read from a value by going down from a
collection to its items takes no more steps than this.
-/

namespace ModelData.Value

mutual

def depth : Value → Nat
  | .list items | .tuple items | .stream _ items => depths items + 1
  | .table entries => entryDepths entries + 1
  | _ => 0

def depths : List Value → Nat
  | [] => 0
  | v :: rest => max (depth v) (depths rest)

def entryDepths : List (Value × Value) → Nat
  | [] => 0
  | (k, v) :: rest => max (max (depth k) (depth v)) (entryDepths rest)

end

end ModelData.Value
