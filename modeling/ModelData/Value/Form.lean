import ModelData.Value.Kind

/-!
Equality of values. Two values are equal when they have the same form. A number's form is
its integer value if it has one, so that one, one point zero and true are equal, and zeros
are equal whatever their sign. Moments with a known distance from universal time are equal
when they are the same instant, and never equal to a moment without one. Lists, tuples and the collections among the elements keep
apart by kind and compare item by item; tables compare without regard to order. Streams,
unknown values, custom elements and NaNs are equal only to themselves.
-/

namespace ModelData

inductive FormAtom where
  | null
  | int (i : Int)
  | fraction (x : Binary64.Finite)
  | infinite (negative : Bool)
  | nan (occurrence : Nat)
  | text (s : String)
  | bytes (b : List UInt8)
  | date (d : Date)
  /-- Whether the distance from universal time is known, and the time that has passed. -/
  | moment (isPlaced : Bool) (microseconds : Int)
  | stream (label : Nat)
  | unknown (label : Nat)
  | custom (label : Nat)
deriving DecidableEq

inductive FormNode where
  | list
  | tuple
  | table
  | entry
  | element (k : ElementKind)
  | named
deriving DecidableEq

inductive Form where
  | atom (a : FormAtom)
  | node (n : FormNode) (children : List Form)

namespace Form

mutual

def same : Form → Form → Bool
  | .atom a, .atom b => a = b
  | .node m xs, .node n ys => m = n && sameAll xs ys
  | _, _ => false

def sameAll : List Form → List Form → Bool
  | [], [] => true
  | x :: xs, y :: ys => same x y && sameAll xs ys
  | _, _ => false

end

mutual

theorem same_iff : (x y : Form) → same x y = true ↔ x = y
  | .atom a, .atom b => by simp [same]
  | .node m xs, .node n ys => by simp [same, sameAll_iff xs ys]
  | .atom _, .node _ _ => by simp [same]
  | .node _ _, .atom _ => by simp [same]

theorem sameAll_iff : (xs ys : List Form) → sameAll xs ys = true ↔ xs = ys
  | [], [] => by simp [sameAll]
  | x :: xs, y :: ys => by simp [sameAll, same_iff x y, sameAll_iff xs ys]
  | [], _ :: _ => by simp [sameAll]
  | _ :: _, [] => by simp [sameAll]

end

instance : DecidableEq Form := fun x y =>
  decidable_of_iff (same x y = true) (same_iff x y)

/-- Numbers that tell atoms apart: first the sort of atom, then what it holds. -/
def FormAtom.code : FormAtom → List Int
  | .null => [0]
  | .int i => [1, i]
  | .fraction x => [2, if x.negative then -(x.rank : Int) else x.rank]
  | .infinite negative => [3, if negative then 1 else 0]
  | .nan occurrence => [4, occurrence]
  | .text s => 5 :: s.length :: s.toList.map fun c => (c.toNat : Int)
  | .bytes b => 6 :: b.length :: b.map fun x => (x.toNat : Int)
  | .date d => [7, d.year, d.month, d.day]
  | .stream label => [8, label]
  | .unknown label => [9, label]
  | .custom label => [10, label]
  | .moment isPlaced microseconds => [22, if isPlaced then 1 else 0, microseconds]

def FormNode.code : FormNode → List Int
  | .list => [11]
  | .tuple => [12]
  | .table => [13]
  | .entry => [14]
  | .element .scalar => [15]
  | .element .float => [16]
  | .element .set => [17]
  | .element .tuple => [18]
  | .element .array => [19]
  | .element (.custom name) => 20 :: name.length :: name.toList.map fun c => (c.toNat : Int)
  | .named => [21]

mutual

/-- A listing of a form from the outside in, by which the entries of a table are ordered. -/
def code : Form → List Int
  | .atom a => FormAtom.code a
  | .node n children => FormNode.code n ++ (children.length : Int) :: codes children

def codes : List Form → List Int
  | [] => []
  | x :: xs => code x ++ codes xs

end

def precedes : List Int → List Int → Bool
  | [], _ => true
  | _ :: _, [] => false
  | x :: xs, y :: ys => x < y || (x = y && precedes xs ys)

/-- The entries of a table in an order that does not depend on how they came. -/
def table (entries : List Form) : Form :=
  .node .table (entries.mergeSort fun x y => precedes x.code y.code)

end Form

def Binary64.form : Binary64 → Form
  | .finite x =>
    match x.toInt? with
    | some i => .atom (.int i)
    | none => .atom (.fraction x)
  | .infinite negative => .atom (.infinite negative)
  | .nan occurrence => .atom (.nan occurrence)

def flagForm (b : Bool) : Form :=
  .atom (.int (if b then 1 else 0))

def Scalar.form : Scalar → Form
  | .text s => .atom (.text s)
  | .int i => .atom (.int i)
  | .flag b => flagForm b

mutual

def Value.form : Value → Form
  | .null => .atom .null
  | .flag b => flagForm b
  | .int i => .atom (.int i)
  | .float x => x.form
  | .text s => .atom (.text s)
  | .bytes b => .atom (.bytes b)
  | .date d => .atom (.date d)
  | .moment m => .atom (.moment m.isPlaced m.elapsed)
  | .list items => .node .list (Value.forms items)
  | .tuple items => .node .tuple (Value.forms items)
  | .stream label _ => .atom (.stream label)
  | .table entries => Form.table (Value.entryForms entries)
  | .unknown _ label => .atom (.unknown label)
  | .element e => Element.form e
  | .named n => Binding.form n

def Value.forms : List Value → List Form
  | [] => []
  | v :: rest => Value.form v :: Value.forms rest

def Value.entryForms : List (Value × Value) → List Form
  | [] => []
  | (k, v) :: rest => .node .entry [Value.form k, Value.form v] :: Value.entryForms rest

def Element.form : Element → Form
  | .scalar s => .node (.element .scalar) [s.form]
  | .float x => .node (.element .float) [(Binary64.finite x).form]
  | .set members => .node (.element .set) (Member.forms members)
  | .tuple items => .node (.element .tuple) (Element.forms items)
  | .array entries => .node (.element .array) (Binding.forms entries)
  | .custom _ label => .atom (.custom label)

def Element.forms : List Element → List Form
  | [] => []
  | e :: rest => Element.form e :: Element.forms rest

def Member.form : Member → Form
  | .scalar s => s.form
  | .float x => (Binary64.finite x).form
  | .element e => Element.form e

def Member.forms : List Member → List Form
  | [] => []
  | m :: rest => Member.form m :: Member.forms rest

def Binding.form : Binding Value Element → Form
  | ⟨name, element⟩ => .node .named [Value.form name, Element.form element]

def Binding.forms : List (Binding Value Element) → List Form
  | [] => []
  | n :: rest => Binding.form n :: Binding.forms rest

end

def Value.equals (v w : Value) : Bool :=
  v.form = w.form

def Element.equals (d e : Element) : Bool :=
  d.form = e.form

mutual

/-- The kind of the first part that keeps a value from being a key: a list or a table. -/
def Value.unhashable? : Value → Option Kind
  | .list _ => some .list
  | .table _ => some .table
  | .tuple items => Value.anyUnhashable? items
  | .element e => Element.unhashable? e
  | .named n => Binding.unhashable? n
  | _ => none

def Value.anyUnhashable? : List Value → Option Kind
  | [] => none
  | v :: rest => (Value.unhashable? v).or (Value.anyUnhashable? rest)

def Element.unhashable? : Element → Option Kind
  | .set members => Member.anyUnhashable? members
  | .tuple items => Element.anyUnhashable? items
  | .array entries => Binding.anyUnhashable? entries
  | _ => none

def Element.anyUnhashable? : List Element → Option Kind
  | [] => none
  | e :: rest => (Element.unhashable? e).or (Element.anyUnhashable? rest)

def Member.unhashable? : Member → Option Kind
  | .element e => Element.unhashable? e
  | _ => none

def Member.anyUnhashable? : List Member → Option Kind
  | [] => none
  | m :: rest => (Member.unhashable? m).or (Member.anyUnhashable? rest)

def Binding.unhashable? : Binding Value Element → Option Kind
  | ⟨name, element⟩ => (Value.unhashable? name).or (Element.unhashable? element)

def Binding.anyUnhashable? : List (Binding Value Element) → Option Kind
  | [] => none
  | n :: rest => (Binding.unhashable? n).or (Binding.anyUnhashable? rest)

end

/-- The items whose form is neither among those seen nor that of an earlier item. -/
def distinctFrom {α : Type} (form : α → Form) (seen : List Form) : List α → List α
  | [] => []
  | x :: xs =>
    if form x ∈ seen then distinctFrom form seen xs
    else x :: distinctFrom form (form x :: seen) xs

/-- The items without those equal to an earlier one. -/
def distinct {α : Type} (form : α → Form) (items : List α) : List α :=
  distinctFrom form [] items

end ModelData
