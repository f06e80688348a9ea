import ModelData.Value.Basic

/-!
Kinds of values and the names that messages call them by. An element kind has a short name,
and a full name that also says where the kind belongs.
-/

namespace ModelData

inductive ElementKind where
  | scalar
  | float
  | set
  | tuple
  | array
  | custom (fullName : String)
deriving DecidableEq

inductive Kind where
  | null
  | flag
  | int
  | float
  | text
  | bytes
  | date
  | moment
  | list
  | tuple
  | stream
  | table
  | unknown (name : String)
  | element (k : ElementKind)
  | named
deriving DecidableEq

/-- What follows the last point of a name. -/
def lastPart (fullName : String) : String :=
  String.ofList ((fullName.toList.reverse.takeWhile (· ≠ '.')).reverse)

namespace ElementKind

def name : ElementKind → String
  | .scalar => "ScalarConstant"
  | .float => "FloatConstant"
  | .set => "SetElement"
  | .tuple => "TupleElement"
  | .array => "IndexedArray"
  | .custom fullName => lastPart fullName

def fullName : ElementKind → String
  | .custom fullName => fullName
  | k => "opldat.elements." ++ k.name

end ElementKind

namespace Kind

def name : Kind → String
  | .null => "NoneType"
  | .flag => "bool"
  | .int => "int"
  | .float => "float"
  | .text => "str"
  | .bytes => "bytes"
  | .date => "date"
  | .moment => "datetime"
  | .list => "list"
  | .tuple => "tuple"
  | .stream => "list_iterator"
  | .table => "dict"
  | .unknown name => name
  | .element k => k.name
  | .named => "NamedElement"

/-- Truth values count as integers. -/
def isNumber : Kind → Bool
  | .flag | .int | .float => true
  | _ => false

/-- Kinds of values that can be joined and repeated. -/
def isSequence : Kind → Bool
  | .text | .bytes | .list | .tuple => true
  | _ => false

/-- The name used where a value does not support an operation. -/
def operandName : Kind → String
  | .date => "datetime.date"
  | .moment => "datetime.datetime"
  | k => k.name

def fullName : Kind → String
  | .date => "datetime.date"
  | .moment => "datetime.datetime"
  | .element k => k.fullName
  | .named => "opldat.elements.NamedElement"
  | k => k.name

/-- The kind as it is quoted in messages about unsupported elements. -/
def quoted (k : Kind) : String :=
  "<class '" ++ k.fullName ++ "'>"

end Kind

def Element.kind : Element → ElementKind
  | .scalar _ => .scalar
  | .float _ => .float
  | .set _ => .set
  | .tuple _ => .tuple
  | .array _ => .array
  | .custom kind _ => .custom kind

def Value.kind : Value → Kind
  | .null => .null
  | .flag _ => .flag
  | .int _ => .int
  | .float _ => .float
  | .text _ => .text
  | .bytes _ => .bytes
  | .date _ => .date
  | .moment _ => .moment
  | .list _ => .list
  | .tuple _ => .tuple
  | .stream _ _ => .stream
  | .table _ => .table
  | .unknown kind _ => .unknown kind
  | .element e => .element e.kind
  | .named _ => .named

end ModelData
