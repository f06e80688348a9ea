import ModelData.Dat.Literal
import ModelData.Dat.Indent

/-!
Elements as the text of a data file. A collection is written on one line, or with each child
on a line of its own, indented by one level more than the collection. Both layouts write the
same children in the same brackets. An empty collection is a pair of brackets in either.
-/

namespace ModelData.Dat

inductive Layout where
  | compact
  /-- Spaces per level, and the level of the element itself. -/
  | pretty (width level : Int)
  /-- A layout over lines with a width and a level that make no counts of spaces. -/
  | broken (width level : Value)

namespace Layout

/-- The layout of the children. -/
def inner : Layout → Layout
  | .compact => .compact
  | .pretty width level => .pretty width (level + 1)
  | .broken width level => .broken width (levelAfter level)

/-- Negative counts give no space. -/
def spaces (n : Int) : List Char :=
  List.replicate n.toNat ' '

/-- Joins the children of a collection between its brackets. -/
def wrap (layout : Layout) (opening closing : List Char) (parts : List (List Char)) :
    List Char :=
  match parts, layout with
  | [], _ => opening ++ closing
  | parts, .pretty width level =>
    let indent := spaces (width * (level + 1))
    opening ++ '\n' :: [',', '\n'].intercalate (parts.map (indent ++ ·))
      ++ '\n' :: spaces (width * level) ++ closing
  | parts, _ => opening ++ [','].intercalate parts ++ closing

/-- Why no collection but an empty one can be laid out so. -/
def obstacle? : Layout → Option Misfit
  | .compact => none
  | .pretty width level =>
    if isCount (width * (level + 1)) && isCount (width * level) then none
    else some .countTooLarge
  | .broken width level => some (productFault width level)

/-- The layout for a flag, a width and a level given as values. The level has to be one even
where nothing is laid out over lines. -/
def ofValues (lines width level : Value) : Except Misfit Layout :=
  match levelFault? level with
  | some m => .error m
  | none =>
    if lines.holds then
      match whole? width, whole? level with
      | some w, some l => .ok (.pretty w l)
      | _, _ => .ok (.broken width level)
    else .ok .compact

end Layout

mutual

/-- The text of an element. Elements of foreign kinds have none. -/
def write (layout : Layout) : Element → List Char
  | .scalar s => scalarLiteral s
  | .float x => floatLiteral x
  | .set members => layout.wrap ['\x7b'] ['\x7d'] (writeMembers layout.inner members)
  | .tuple items => layout.wrap ['<'] ['>'] (writeItems layout.inner items)
  | .array entries => layout.wrap ['#', '['] [']', '#'] (writeEntries layout.inner entries)
  | .custom _ _ => []

def writeMember (layout : Layout) : Member → List Char
  | .scalar s => memberLiteral s
  | .float x => floatLiteral x
  | .element e => write layout e

def writeMembers (layout : Layout) : List Member → List (List Char)
  | [] => []
  | m :: rest => writeMember layout m :: writeMembers layout rest

def writeItems (layout : Layout) : List Element → List (List Char)
  | [] => []
  | e :: rest => write layout e :: writeItems layout rest

def writeEntry (layout : Layout) : Binding Value Element → List Char
  | ⟨name, element⟩ => name.chars ++ ':' :: ' ' :: write layout element

def writeEntries (layout : Layout) : List (Binding Value Element) → List (List Char)
  | [] => []
  | n :: rest => writeEntry layout n :: writeEntries layout rest

end

/-- What keeps a collection itself from being written, once its children are. -/
def Layout.obstacleFor? (layout : Layout) (isEmpty : Bool) : Option Misfit :=
  if isEmpty then none else layout.obstacle?

mutual

/-- The first reason, children before their collection, why an element cannot be written. -/
def obstacle? (layout : Layout) : Element → Option Misfit
  | .scalar _ | .float _ => none
  | .set members =>
    (membersObstacle? layout.inner members).or (layout.obstacleFor? members.isEmpty)
  | .tuple items => (itemsObstacle? layout.inner items).or (layout.obstacleFor? items.isEmpty)
  | .array entries =>
    (entriesObstacle? layout.inner entries).or (layout.obstacleFor? entries.isEmpty)
  | .custom kind _ => some (.unsupportedElement (.element (.custom kind)))

def memberObstacle? (layout : Layout) : Member → Option Misfit
  | .element e => obstacle? layout e
  | _ => none

def membersObstacle? (layout : Layout) : List Member → Option Misfit
  | [] => none
  | m :: rest => (memberObstacle? layout m).or (membersObstacle? layout rest)

def itemsObstacle? (layout : Layout) : List Element → Option Misfit
  | [] => none
  | e :: rest => (obstacle? layout e).or (itemsObstacle? layout rest)

def entryObstacle? (layout : Layout) : Binding Value Element → Option Misfit
  | ⟨_, element⟩ => obstacle? layout element

def entriesObstacle? (layout : Layout) : List (Binding Value Element) → Option Misfit
  | [] => none
  | n :: rest => (entryObstacle? layout n).or (entriesObstacle? layout rest)

end

def render (layout : Layout) (e : Element) : Except Misfit (List Char) :=
  match obstacle? layout e with
  | some m => .error m
  | none => .ok (write layout e)

/-- Only elements can be written. -/
def renderValue (layout : Layout) : Value → Except Misfit (List Char)
  | .element e => render layout e
  | v => .error (.unsupportedElement v.kind)

end ModelData.Dat
