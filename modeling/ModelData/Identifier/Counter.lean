import ModelData.Identifier.CounterForm

/-!
Counter identifiers: a stem, an underscore, and a counter filled up with zeros. The form of
the counter is given by a value whose text spells it; a number asks for that width.
-/

namespace ModelData.Identifier

/-- The identifier for an integer counter. -/
def counter (stem : String) (index : Int) (form : CounterForm) : String :=
  String.ofList (stem.toList ++ '_' :: form.write index)

/-- The identifier for an integer counter of some kind, in a form that integers take. -/
def integerCounter (stem : String) (k : Kind) (index : Int) (form : Value) :
    Except Misfit String := do
  let f ← CounterForm.read k form.chars
  if f.hasPlaces then .error .counterPlaces
  else if f.forbidsNegativeZero then .error .counterNegativeZero
  else return counter stem index f

/-- The identifier for a counter of any kind; a truth value counts as zero or one. -/
def counterOf (stem index form : Value) : Except Misfit String :=
  match index with
  | .int i => integerCounter stem.asText .int i form
  | .flag b => integerCounter stem.asText .flag (if b then 1 else 0) form
  | .float _ => do
    let _ ← CounterForm.read .float form.chars
    .error (.counterCode .float)
  | .text _ => do
    let _ ← CounterForm.read .text form.chars
    .error (.counterCode .text)
  | v => .error (.counterOf v.kind)

/-- The width that is used when none is given. -/
def defaultWidth : Value := .int 4

end ModelData.Identifier
