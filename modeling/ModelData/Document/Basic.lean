import ModelData.Config
import ModelData.Element.Build

/-!
Documents: named elements in the order in which they are written, lines for the comment at
the top of the file, whether collections are spread over lines, and layout settings. Names
need not be identifiers nor differ, and lines may be any values; a report tells.
-/

namespace ModelData

structure Document where
  elements : List Named := []
  headerLines : List Value := []
  /-- Any value; it holds when collections are spread over lines. -/
  pretty : Value := .flag true
  config : Config := .standard

namespace Document

def add (d : Document) (n : Named) : Document :=
  { d with elements := d.elements ++ [n] }

/-- Only a named element can be added. -/
def addValue (d : Document) : Value → Except Misfit (Document × Named)
  | .named n => .ok (d.add n, n)
  | v => .error (.entryOf v.kind)

def addElement (d : Document) (name element : Value) : Except Misfit (Document × Named) := do
  let n ← Named.make name element
  return (d.add n, n)

/-- The header lines a value stands for: none, a single text, or its items. -/
def linesOf : Value → Except Misfit (List Value)
  | .null => .ok []
  | .text s => .ok [.text s]
  | v => v.items

/-- The first element with a name. -/
def get? (d : Document) (name : Value) : Option Named :=
  d.elements.find? fun n => n.name.equals name

def size (d : Document) : Nat :=
  d.elements.length

/-- Documents are equal when their parts are. -/
def equals (d e : Document) : Bool :=
  Binding.forms d.elements = Binding.forms e.elements
    && Value.forms d.headerLines = Value.forms e.headerLines
    && d.pretty.equals e.pretty && d.config = e.config

/-- Whether collections are spread over lines; a null choice leaves it to the document. -/
def spreads (d : Document) (choice : Value) : Value :=
  match choice with
  | .null => d.pretty
  | v => v

end Document

end ModelData
