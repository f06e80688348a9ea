import ModelData.Number.Binary64
import ModelData.Calendar.Moment

/-!
Values and elements. A value is anything that may be handed to the library: plain data, a
collection of values, an element or a named element. An element is what a data file holds:
a literal, a set, a tuple, or an array whose children are named. The name of a named element
may be any value; whether it can be written as an identifier is asked only when a document
is examined.
-/

namespace ModelData

/-- A name bound to content. -/
structure Binding (ν ε : Type) where
  name : ν
  element : ε
deriving DecidableEq

/-- A text or an integer; a truth value counts as an integer when written. -/
inductive Scalar where
  | text (s : String)
  | int (i : Int)
  | flag (b : Bool)
deriving DecidableEq

mutual

inductive Value where
  | null
  | flag (b : Bool)
  | int (i : Int)
  | float (x : Binary64)
  | text (s : String)
  | bytes (b : List UInt8)
  | date (d : Date)
  | moment (m : Moment)
  | list (items : List Value)
  | tuple (items : List Value)
  /-- Items that are read once; a stream is known by its label. -/
  | stream (label : Nat) (items : List Value)
  /-- Keys with values, in the order in which the keys came. -/
  | table (entries : List (Value × Value))
  /-- Something the library knows nothing about but the name of its kind and its label. -/
  | unknown (kind : String) (label : Nat)
  | element (e : Element)
  | named (n : Binding Value Element)

inductive Element where
  | scalar (s : Scalar)
  | float (x : Binary64.Finite)
  | set (members : List Member)
  | tuple (items : List Element)
  | array (entries : List (Binding Value Element))
  /-- An element of a kind defined elsewhere, known by the full name of its kind and a label. -/
  | custom (kind : String) (label : Nat)

/-- What a set holds: a bare literal or an element. -/
inductive Member where
  | scalar (s : Scalar)
  | float (x : Binary64.Finite)
  | element (e : Element)

end

/-- An element with its name. -/
abbrev Named := Binding Value Element

namespace Scalar

def toValue : Scalar → Value
  | .text s => .text s
  | .int i => .int i
  | .flag b => .flag b

end Scalar

namespace Member

/-- The value that a member was made from. -/
def toValue : Member → Value
  | .scalar s => s.toValue
  | .float x => .float (.finite x)
  | .element e => .element e

end Member

namespace Element

/-- The number of children of a collection, and none for a literal. -/
def count? : Element → Option Nat
  | .set members => some members.length
  | .tuple items => some items.length
  | .array entries => some entries.length
  | _ => none

/-- The names of the children of an array. -/
def keys? : Element → Option (List Value)
  | .array entries => some (entries.map (·.name))
  | _ => none

end Element

namespace Value

/-- The number of characters of a text and of the things in a collection, if their number is
known before they are read. -/
def count? : Value → Option Nat
  | .text s => some s.length
  | .bytes b => some b.length
  | .list items | .tuple items => some items.length
  | .table entries => some entries.length
  | .element e => e.count?
  | _ => none

/-- Empty texts and collections, zeros, the null value and a false flag do not hold. -/
def holds : Value → Bool
  | .null => false
  | .flag b => b
  | .int i => i ≠ 0
  | .float (.finite x) => x.rank ≠ 0
  | .text s => !s.isEmpty
  | .bytes b => !b.isEmpty
  | .list items | .tuple items => !items.isEmpty
  | .table entries => !entries.isEmpty
  | .element e => e.count? ≠ some 0
  | _ => true

end Value

end ModelData
