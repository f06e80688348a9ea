import ModelData.Misfit

/-!
Indentation given by values. A width and a level, of which truth values count as zero and
one, make a count of spaces: the product of the width with the level, and with the level
after it. Other values may be asked to make one as well; then the first step that fails says
why they do not.
-/

namespace ModelData

namespace Dat

/-- The bound of the counts of spaces that can be asked for. -/
def countLimit : Int := Nat.pow 2 63

def isCount (n : Int) : Bool :=
  -countLimit ≤ n && n < countLimit

def whole? : Value → Option Int
  | .int i => some i
  | .flag b => some (if b then 1 else 0)
  | _ => none

/-- Why one cannot be added to a level. -/
def levelFault? (level : Value) : Option Misfit :=
  if level.kind.isNumber then none
  else if level.kind.isSequence then some (.addedTo level.kind)
  else some (.operands "+" level.kind .int)

/-- Whether a number, if it is whole, rounds to a finite float. -/
def hasFloat (n : Option Int) : Bool :=
  n.all fun i => (Binary64.ofInt i).isFinite

/-- Why a sequence cannot be repeated so often, or else why what comes out is no count. -/
def repetitionFault (sequence : Value) (times : Int) : Misfit :=
  if !isCount times then .countTooLarge
  else
    match sequence with
    | .text s => if countLimit ≤ s.length * times then .textTooLong else .repeatCount .text
    | .bytes b => if countLimit ≤ b.length * times then .bytesTooLong else .repeatCount .bytes
    | v => .repeatCount v.kind

/-- Why a width and a level that are not both whole make no count. A sequence of things may be
repeated, but is no count itself. -/
def productFault (width level : Value) : Misfit :=
  let next := (whole? level).map (· + 1)
  if width.kind.isNumber then
    if hasFloat (whole? width) && hasFloat next then .repeatCount .float else .noFloat
  else if width.kind.isSequence then
    match next with
    | some n => repetitionFault width n
    | none => .repeatCount .float
  else .operands "*" width.kind (if next.isSome then .int else .float)

/-- The level one further in. Past a level that is not whole lies another such. -/
def levelAfter (level : Value) : Value :=
  match whole? level with
  | some n => .int (n + 1)
  | none => level

end Dat

end ModelData
