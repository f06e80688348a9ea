import ModelData.Identifier.Assignment
import ModelData.Dat.File
import ModelData.Report

/-!
An example document from production planning: a title, a horizon, a step length, the set of
the identifiers of all products, and an array with the costs of each: to produce it, to
recycle it at a quarter of that, and to transport it.
-/

namespace ModelData

structure Product where
  label : Value
  productionCost : Value
  transportCost : Value

namespace Product

/-- Products are equal when their parts are. -/
def toValue (p : Product) : Value :=
  .tuple [p.label, p.productionCost, p.transportCost]

def standard : List Product :=
  [⟨.text "bolt", quarters 6, quarters 1⟩, ⟨.text "nut", quarters 3, eighths 1⟩,
    ⟨.text "washer", quarters 2, eighths 1⟩]
where
  quarters (n : Nat) : Value := .float (.ofRatio false n 4)
  eighths (n : Nat) : Value := .float (.ofRatio false n 8)

def quarter : Binary64 :=
  .ofRatio false 1 4

/-- A quarter of a cost; one that is no number stays as it is, to be refused as such. -/
def recycled : Value → Value
  | .int i => .float (((Binary64.ofInt i).product? quarter).getD (Binary64.ofInt i))
  | .float x => .float ((x.product? quarter).getD x)
  | v => v

/-- The costs of a product in the order in which they are written. -/
def costs : Value → Except Misfit Value
  | .tuple [_, production, transport] => do
    let produce ← Element.makeFloat production
    let recycle ← Element.makeFloat (recycled production)
    let carry ← Element.makeFloat transport
    return .list [.element produce, .element recycle, .element carry]
  | v => .error (.noField v.kind)

end Product

namespace Document

def stepLength : Value :=
  .float (.ofRatio false 15 1)

/-- The example document for some products. -/
def ofProducts (products : List Product) (pretty : Value) : Except Misfit Document := do
  let start : Document := { pretty, headerLines := [.text "Example production planning data"] }
  let d := start
    |>.add ⟨.text "dataTitle", ← Element.makeScalar (.text "test name")⟩
    |>.add ⟨.text "timeHorizon", ← Element.makeScalar (.int 4)⟩
    |>.add ⟨.text "stepLength", ← Element.makeFloat stepLength⟩
  let ids ← Identifier.enumerate (.list (products.map Product.toValue)) (.text "di")
    (.int d.config.idPadding)
  let d := d.add ⟨.text "dataItemIDs", ← Element.makeSet (.list (ids.map (·.2)))⟩
  return d.add (← (Assembly.tupleArray (.text "myData") (.table ids) Product.costs).result)

end Document

/-- The example in both layouts, its report, and where a copy of it was saved. -/
def demonstration (now : Moment) (path : String) : Except Misfit String := do
  let d ← Document.ofProducts Product.standard (.flag true)
  let rule := String.ofList (List.replicate 80 '=')
  let line := String.ofList (List.replicate 80 '-')
  let compact ← Dat.file d (.flag false) now
  let pretty ← Dat.file d (.flag true) now
  let report ← Report.ofDocument d
  let number (n : Nat) := String.ofList (Digits.ofNat n)
  let lines := [rule, "DATA WRITER DEMO", rule,
      "\nCOMPACT LAYOUT:", line, String.ofList compact,
      "\nPRETTY LAYOUT:", line, String.ofList pretty,
      "Elements: " ++ number report.elementCount ++ ", nodes: " ++ number report.nodeCount
        ++ ", max depth: " ++ number report.maxDepth]
    ++ report.warnings.map ("WARNING: " ++ ·)
    ++ ["\nSaved to: " ++ path, rule]
  return String.join (lines.map (· ++ "\n"))

end ModelData
