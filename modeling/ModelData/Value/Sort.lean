import ModelData.Sorting.Basic
import ModelData.Value.Order

/-!
Sorting by keys that need not have an order among them. Texts always have one, and any
stable sort of them comes to the same. With other keys the pairs that are compared decide
what comes out and whether the sort fails.
-/

namespace ModelData

/-- Sorts by a key; what has equal keys keeps its order. -/
def sortBy {α : Type} (key : α → Value) (xs : List α) : Except Misfit (List α) :=
  if xs.all fun x => (key x).kind = .text then
    .ok (xs.mergeSort fun x y => (key x).mayPrecede (key y))
  else Sorting.sort (fun x y => (key x).isBefore (key y)) xs

end ModelData
