import ModelData.Misfit
import ModelData.Value.Form

/-!
Building elements from values. Each builder refuses what its element cannot hold and says
why. A set takes bare texts, integers or floats, but only one of the three, keeps the first
of equal items and drops the rest; the items of an array are named elements.
-/

namespace ModelData

/-- The items that a value yields when it is gone through from the front. -/
def Value.items : Value → Except Misfit (List Value)
  | .list items | .tuple items | .stream _ items => .ok items
  | .text s => .ok (s.toList.map fun c => .text (String.singleton c))
  | .bytes b => .ok (b.map fun x => .int x.toNat)
  | .table entries => .ok (entries.map (·.1))
  | v => .error (.notIterable v.kind)

/-- The items for a collection, which a single text does not stand for. -/
def Value.itemsFor (e : ElementKind) : Value → Except Misfit (List Value)
  | .text _ => .error (.textAsItems e)
  | v => v.items

def requireHashable (v : Value) : Except Misfit Unit :=
  match v.unhashable? with
  | some k => .error (.unhashable k)
  | none => .ok ()

namespace Element

def makeScalar : Value → Except Misfit Element
  | .text s => .ok (.scalar (.text s))
  | .int i => .ok (.scalar (.int i))
  | .flag b => .ok (.scalar (.flag b))
  | v => .error (.scalarOf v.kind)

/-- The nearest float to some number, which has to be finite. -/
def ofNearest (source : String) : Binary64 → Except Misfit Element
  | .finite x => .ok (.float x)
  | _ => .error (.floatOutOfRange source)

/-- An integer becomes the nearest float. -/
def makeFloat : Value → Except Misfit Element
  | .float (.finite x) => .ok (.float x)
  | .float x => .error (.floatNotFinite (Value.float x).quoted)
  | .int i => ofNearest (Value.int i).quoted (Binary64.ofInt i)
  | v => .error (.floatOf v.kind)

end Element

namespace Member

def make : Value → Except Misfit Member
  | .text s => .ok (.scalar (.text s))
  | .int i => .ok (.scalar (.int i))
  | .flag b => .ok (.scalar (.flag b))
  | .float (.finite x) => .ok (.float x)
  | .float x => .error (.memberNotFinite (Value.float x).quoted)
  | .element e => .ok (.element e)
  | v => .error (.memberOf v.kind)

/-- What sort of bare literal a member is; a truth value is an integer. -/
def literalName? : Member → Option String
  | .scalar (.text _) => some "str"
  | .scalar _ => some "int"
  | .float _ => some "float"
  | .element _ => none

/-- The sorts of bare literals among members, in alphabetical order. -/
def literalNames (members : List Member) : List String :=
  ["float", "int", "str"].filter fun name => members.any fun m => m.literalName? = some name

end Member

namespace Element

def makeSet (items : Value) : Except Misfit Element := do
  let members ← (← items.itemsFor .set).mapM Member.make
  let names := Member.literalNames members
  if 1 < names.length then .error (.mixedMembers names)
  else match Member.anyUnhashable? members with
    | some k => .error (.unhashable k)
    | none => .ok (.set (distinct Member.form members))

def makeTuple (items : Value) : Except Misfit Element := do
  let elements ← (← items.itemsFor .tuple).mapM fun
    | .element e => .ok e
    | v => .error (.tupleItemOf v.kind)
  return .tuple elements

def makeArray (items : Value) : Except Misfit Element := do
  let entries ← (← items.itemsFor .array).mapM fun
    | .named n => .ok n
    | v => .error (.arrayItemOf v.kind)
  return .array entries

end Element

/-- Names an element; the name is not looked at. -/
def Named.make (name : Value) : Value → Except Misfit Named
  | .element e => .ok ⟨name, e⟩
  | v => .error (.nameFor v.kind)

end ModelData
