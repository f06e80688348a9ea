import ModelData.Misfit
import ModelData.Value.Form

/-!
The order among values. Numbers compare by value whatever their kind, and a NaN comes neither
before a number nor behind one; texts compare by code point, and lists and tuples by the
first items that differ; moments compare if both have a known distance from universal time or
neither has; other values compare only within their kind, or not at all.
-/

namespace ModelData

/-- A number for comparison: minus or plus one for the infinities, and zero with the units of
2^-1074 for a finite number. A NaN has no place among them. -/
def Value.number? : Value → Option (Int × Int)
  | .flag b => some (0, (if b then 1 else 0) * Binary64.one)
  | .int i => some (0, i * Binary64.one)
  | .float (.finite x) => some (0, x.signedUnits)
  | .float (.infinite negative) => some (if negative then -1 else 1, 0)
  | .float (.nan _) => some (0, 0)
  | _ => none

def Value.isNan : Value → Bool
  | .float (.nan _) => true
  | _ => false

def lexBefore (x y : Int × Int) : Bool :=
  x.1 < y.1 || (x.1 = y.1 && x.2 < y.2)

def Date.isBefore (d e : Date) : Bool :=
  lexBefore (d.year, d.month * 32 + d.day) (e.year, e.month * 32 + e.day)

/-- The order of two values that hold no other values. -/
def Value.leafBefore (v w : Value) : Except Misfit Bool :=
  match v, w with
  | .text s, .text t => .ok (s < t)
  | .bytes a, .bytes b => .ok (a < b)
  | .date d, .date e => .ok (d.isBefore e)
  | .moment m, .moment n =>
    if m.isPlaced = n.isPlaced then .ok (m.elapsed < n.elapsed) else .error .momentsApart
  | .moment _, .date _ | .date _, .moment _ => .error .momentWithDate
  | v, w =>
    match v.number?, w.number? with
    | some x, some y => .ok (!v.isNan && !w.isNan && lexBefore x y)
    | _, _ => .error (.notOrdered v.kind w.kind)

mutual

/-- Whether a value comes before another. -/
def Value.isBefore : Value → Value → Except Misfit Bool
  | .list vs, .list ws => Value.areBefore vs ws
  | .tuple vs, .tuple ws => Value.areBefore vs ws
  | v, w => v.leafBefore w

def Value.areBefore : List Value → List Value → Except Misfit Bool
  | v :: vs, w :: ws => if v.form = w.form then Value.areBefore vs ws else Value.isBefore v w
  | [], _ :: _ => .ok true
  | _, [] => .ok false

end

/-- Whether a value may stand in front of another. -/
def Value.mayPrecede (v w : Value) : Bool :=
  match w.isBefore v with
  | .ok true => false
  | _ => true

end ModelData
