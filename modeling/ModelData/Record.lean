import ModelData.Document.Basic
import ModelData.Value.Depth

/-!
Records: elements and documents as plain tables that can be stored. A record of an element
names its type and holds its value or its items; the entries of an array are records of a
name and an element. Reading a record builds the element anew, with all the checks that
building makes, and the first fault found is reported as it stands.
-/

namespace ModelData

inductive RecordFault where
  | unsupportedElement (k : Kind)
  | notRecord (k : Kind)
  | missingKey (key type : String)
  | missingNamedKey (key : String)
  | invalid (type : String) (m : Misfit)
  | unsupportedType (type : String)
deriving DecidableEq

def RecordFault.message : RecordFault → String
  | .unsupportedElement k => "Unsupported Element type: " ++ k.quoted
  | .notRecord k => "Expected element dict, got " ++ k.name
  | .missingKey key type => "Missing key '" ++ key ++ "' in " ++ type ++ " element"
  | .missingNamedKey key => "Missing key '" ++ key ++ "' in named element"
  | .invalid type m => "Invalid " ++ type ++ " element: " ++ m.message
  | .unsupportedType type => "Unsupported element dict type: " ++ type

namespace Record

def typed (type key : String) (content : Value) : Value :=
  .table [(.text "type", .text type), (.text key, content)]

mutual

def ofElement : Element → Except RecordFault Value
  | .scalar s => .ok (typed "scalar" "value" s.toValue)
  | .float x => .ok (typed "float" "value" (.float (.finite x)))
  | .set members => do return typed "set" "items" (.list (← ofMembers members))
  | .tuple items => do return typed "tuple" "items" (.list (← ofItems items))
  | .array entries => do return typed "array" "items" (.list (← ofEntries entries))
  | .custom kind _ => .error (.unsupportedElement (.element (.custom kind)))

def ofMember : Member → Except RecordFault Value
  | .scalar s => .ok s.toValue
  | .float x => .ok (.float (.finite x))
  | .element e => ofElement e

def ofMembers : List Member → Except RecordFault (List Value)
  | [] => .ok []
  | m :: rest => do
    let first ← ofMember m
    return first :: (← ofMembers rest)

def ofItems : List Element → Except RecordFault (List Value)
  | [] => .ok []
  | e :: rest => do
    let first ← ofElement e
    return first :: (← ofItems rest)

def ofNamed : Binding Value Element → Except RecordFault Value
  | ⟨name, element⟩ => do
    return .table [(.text "name", name), (.text "element", ← ofElement element)]

def ofEntries : List (Binding Value Element) → Except RecordFault (List Value)
  | [] => .ok []
  | n :: rest => do
    let first ← ofNamed n
    return first :: (← ofEntries rest)

end

/-- The record of a value that may be no element. -/
def ofValue : Value → Except RecordFault Value
  | .element e => ofElement e
  | v => .error (.unsupportedElement v.kind)

end Record

/-- Why a stored document cannot be read. -/
inductive StoreFault where
  | misfit (m : Misfit)
  | record (f : RecordFault)
  | config (f : ConfigFault)
  /-- The text is no JSON. -/
  | json
  /-- The text is no YAML, or a value cannot be written as YAML. -/
  | yaml
deriving DecidableEq

namespace StoreFault

def message : StoreFault → String
  | .misfit m => m.message
  | .record f => f.message
  | .config f => f.message
  | .json => "malformed JSON"
  | .yaml => "malformed YAML"

/-- A fault within an array: a misfit is reported as a fault of the array. -/
def within (type : String) : StoreFault → RecordFault
  | .misfit m => .invalid type m
  | .record f => f
  | f => .invalid type (.refused f.message)

end StoreFault

namespace Record

/-- What a value holds under a name, if it can be asked for names at all. -/
def field? (v : Value) (name : String) : Except Misfit (Option Value) :=
  match v with
  | .table entries => .ok (Table.field? name entries)
  | .list _ | .tuple _ | .text _ | .bytes _ => .error (.fieldOfList v.kind)
  | v => .error (.noField v.kind)

/-- The items of a record; a record without the key has none. -/
def itemsOf (type : String) (entries : List (Value × Value)) :
    Except RecordFault (List Value) :=
  ((Table.field? "items" entries).getD (.list [])).items.mapError (.invalid type)

def valueOf (type : String) (entries : List (Value × Value)) : Except RecordFault Value :=
  match Table.field? "value" entries with
  | some v => .ok v
  | none => .error (.missingKey "value" type)

/-- Reads the record of a named element with a reader for its element. -/
def namedWith (read : Value → Except RecordFault Element) (v : Value) :
    Except StoreFault Named := do
  match ← (field? v "name").mapError .misfit with
  | none => .error (.record (.missingNamedKey "name"))
  | some name =>
    match ← (field? v "element").mapError .misfit with
    | none => .error (.record (.missingNamedKey "element"))
    | some element => do
      let e ← (read element).mapError .record
      return ⟨name, e⟩

/-- The value that a record in a set stands for; anything but a table stands for itself. -/
def memberWith (read : Value → Except RecordFault Element) (v : Value) :
    Except RecordFault Value :=
  match v with
  | .table _ => do return .element (← read v)
  | v => .ok v

/-- Reads a record in which records nest at most so deep. -/
def readElement : Nat → Value → Except RecordFault Element
  | levels + 1, .table entries => do
    match Table.field? "type" entries with
    | some (.text "scalar") =>
      (Element.makeScalar (← valueOf "scalar" entries)).mapError (.invalid "scalar")
    | some (.text "float") =>
      (Element.makeFloat (← valueOf "float" entries)).mapError (.invalid "float")
    | some (.text "set") =>
      let items ← (← itemsOf "set" entries).mapM (memberWith (readElement levels))
      (Element.makeSet (.list items)).mapError (.invalid "set")
    | some (.text "tuple") =>
      return .tuple (← (← itemsOf "tuple" entries).mapM (readElement levels))
    | some (.text "array") =>
      return .array (← (← itemsOf "array" entries).mapM fun v =>
        (namedWith (readElement levels) v).mapError (StoreFault.within "array"))
    | type => .error (.unsupportedType (type.getD .null).asText)
  | _, v => .error (.notRecord v.kind)

def toElement (v : Value) : Except RecordFault Element :=
  readElement (v.depth + 1) v

def toNamed (v : Value) : Except StoreFault Named :=
  namedWith toElement v

/-- A document as a table of its parts. -/
def ofDocument (d : Document) : Except RecordFault Value := do
  let elements ← ofEntries d.elements
  return .table [(.text "elements", .list elements), (.text "prefix_text", .list d.headerLines),
    (.text "pretty_printing", d.pretty), (.text "config", d.config.toValue)]

def toDocument : Value → Except StoreFault Document
  | .table entries => do
    let pretty := (Table.field? "pretty_printing" entries).getD (.flag true)
    let config ← (Config.ofValue ((Table.field? "config" entries).getD .null)).mapError .config
    let headerLines ←
      (Document.linesOf ((Table.field? "prefix_text" entries).getD .null)).mapError .misfit
    let items ← ((Table.field? "elements" entries).getD (.list [])).items.mapError .misfit
    let elements ← items.mapM toNamed
    return { elements, headerLines, pretty, config }
  | v => .error (.misfit (.noMethod v.kind "get"))

end Record

end ModelData
