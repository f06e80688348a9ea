import ModelData.Identifier.Counter
import ModelData.Value.Table
import ModelData.Element.Build

/-!
Assigning identifiers to objects, and arrays whose entries are named by them. Each
occurrence of an object is numbered and given an identifier in turn; of equal objects the
first keeps its place and takes the identifier of the last. An assignment also tells which
calls of the caller's function were made, the one that failed included.
-/

namespace ModelData

namespace Identifier

/-- The calls that were made, each an object with its number, and what came of them. -/
structure Assignment where
  calls : List (Value × Nat)
  result : Except Misfit (List (Value × Value))

/-- Goes on with the assignment from a number on. -/
def assignFrom (generator : Value → Nat → Except Misfit Value) (index : Nat)
    (ids : List (Value × Value)) : List Value → Assignment
  | [] => ⟨[], .ok ids⟩
  | object :: rest =>
    match generator object index with
    | .error e => ⟨[(object, index)], .error e⟩
    | .ok id =>
      match requireHashable object with
      | .error e => ⟨[(object, index)], .error e⟩
      | .ok () =>
        let later := assignFrom generator (index + 1) (Table.put object id ids) rest
        ⟨(object, index) :: later.calls, later.result⟩

def assign (generator : Value → Nat → Except Misfit Value) (items : Value) : Assignment :=
  match items.items with
  | .error e => ⟨[], .error e⟩
  | .ok objects => assignFrom generator 0 [] objects

/-- Numbers every object with the same stem. -/
def counters (stem form : Value) (_ : Value) (index : Nat) : Except Misfit Value := do
  return .text (← counterOf stem (.int index) form)

def enumerate (items stem form : Value) : Except Misfit (List (Value × Value)) :=
  (assign (counters stem form) items).result

end Identifier

/-- The objects that were mapped, the one that failed included, and the array. -/
structure Assembly where
  calls : List Value
  result : Except Misfit Named

namespace Assembly

/-- Maps the objects in turn and names each result by the object's identifier. -/
def entries (mapper : Value → Except Misfit Value) :
    List (Value × Value) → List Value × Except Misfit (List Named)
  | [] => ([], .ok [])
  | (object, id) :: rest =>
    match mapper object >>= Named.make id with
    | .error e => ([object], .error e)
    | .ok entry =>
      let (calls, later) := entries mapper rest
      (object :: calls, later.map (entry :: ·))

/-- An array with one entry for each object of a table from objects to identifiers. -/
def array (name items : Value) (mapper : Value → Except Misfit Value) : Assembly :=
  match items with
  | .table ids =>
    let (calls, children) := entries mapper ids
    ⟨calls, children.map fun children => ⟨name, .array children⟩⟩
  | .element (.set _) | .element (.tuple _) | .element (.array _) =>
    ⟨[], .error (.notCallable .tuple)⟩
  | v => ⟨[], .error (.noMethod v.kind "items")⟩

/-- An array of tuples; the mapper gives the items of one tuple. -/
def tupleArray (name items : Value) (mapper : Value → Except Misfit Value) : Assembly :=
  array name items fun object => do
    return .element (← Element.makeTuple (← mapper object))

end Assembly

end ModelData
