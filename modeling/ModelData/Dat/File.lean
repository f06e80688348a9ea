import ModelData.Document.Basic
import ModelData.Dat.Layout
import ModelData.Calendar.Moment

/-!
A document as a data file. A comment between two rows of stars holds the title, the lines
of the document and the time of writing; a blank line follows. Then each element is assigned
to its name, with a semicolon and a blank line behind it.
-/

namespace ModelData.Dat

def stars : List Char :=
  List.replicate 54 '*'

def timestamp (d : Document) (now : Moment) : String :=
  now.format d.config.timestampFormat

/-- A line within the comment. -/
def commentLine (text : List Char) : List Char :=
  ' ' :: '*' :: ' ' :: text

def header (d : Document) (now : Moment) : List Char :=
  ['\n'].intercalate
    (('/' :: stars)
      :: commentLine d.config.bannerTitle.toList
      :: d.headerLines.map (fun line => commentLine line.chars)
      ++ [commentLine ("Creation Date: ".toList ++ (timestamp d now).toList),
        ' ' :: stars ++ ['/']])
    ++ ['\n', '\n']

def statement (name content : List Char) : List Char :=
  name ++ [' ', '=', ' '] ++ content ++ [';', '\n', '\n']

/-- The layout of elements at the top of a document. -/
def topLayout (d : Document) (choice : Value) : Layout :=
  if (d.spreads choice).holds then .pretty d.config.indentWidth d.config.indentLevel
  else .compact

def body (d : Document) (choice : Value) : Except Misfit (List Char) := do
  let layout := topLayout d choice
  let statements ← d.elements.mapM fun n => do
    return statement n.name.chars (← render layout n.element)
  return statements.flatten

def file (d : Document) (choice : Value) (now : Moment) : Except Misfit (List Char) := do
  return header d now ++ (← body d choice)

end ModelData.Dat
