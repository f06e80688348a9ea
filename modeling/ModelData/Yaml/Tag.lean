import ModelData.Yaml.Cursor
import ModelData.Yaml.Fault

/-!
Tags, which say what a node stands for. A tag is written after an exclamation mark: alone, it
leaves the matter to the spelling of the node; after two marks, or as a whole in angle
brackets, stands the name of a kind known to every reader; all others are foreign. A mark
within a tag ends a handle, of which only the two just named are known.
-/

namespace ModelData.Yaml

inductive Tag where
  | bySpelling
  | core (name : String)
  | foreign
deriving DecidableEq

/-- What tags of known kinds start with when they are written as a whole. -/
def corePrefix : List Char :=
  "tag:yaml.org,2002:".toList

def isTagChar (c : Char) : Bool :=
  c.isAlphanum || "-;/?:@&=+$,_.!~*'()[]%".toList.contains c

def isWordChar (c : Char) : Bool :=
  c.isAlphanum || c = '-' || c = '_'

/-- The tag with a name written as a whole. -/
def Tag.ofWhole (name : List Char) : Tag :=
  if name = ['!'] then .bySpelling
  else if corePrefix.isPrefixOf name then .core (String.ofList (name.drop corePrefix.length))
  else .foreign

/-- What may follow a tag. -/
def endsTag (rest : List Char) : Bool :=
  match rest with
  | [] => true
  | c :: _ => c = ' ' || isBreak c

/-- A name of a tag, which has at least one character, and what follows. -/
def takeTagName (cs : List Char) : Except Fault (List Char × List Char) :=
  let name := cs.takeWhile isTagChar
  if name.isEmpty then .error .malformed else .ok (name, cs.drop name.length)

/-- Reads a tag from behind its first mark. -/
def readTagBehind (cs : List Char) : Except Fault (Tag × List Char) :=
  match cs with
  | '<' :: rest => do
    let (name, after) ← takeTagName rest
    match after with
    | '>' :: after => return (.ofWhole name, after)
    | _ => .error .malformed
  | '!' :: rest => do
    let (name, after) ← takeTagName rest
    return (.core (String.ofList name), after)
  | cs =>
    if endsWord cs then .ok (.bySpelling, cs)
    else if (cs.takeWhile fun c => !(c = ' ' || isBreak c)).contains '!' then .error .malformed
    else do
      let (_, after) ← takeTagName cs
      return (.foreign, after)

/-- A tag in front of a node, if there is one. -/
def readTag (c : Cursor) : Except Fault (Option Tag × Cursor) :=
  match c.rest with
  | '!' :: rest => do
    let (tag, after) ← readTagBehind rest
    if endsTag after then
      return (some tag, (c.forward (c.rest.length - after.length)).skipSpaces)
    else .error .malformed
  | _ => .ok (none, c)

/-- What may follow the name of an anchor. -/
def endsAnchor (rest : List Char) : Bool :=
  endsWord rest || rest.head?.any ("?:,]\x7d%@`".toList.contains ·)

/-- The name behind the mark of an anchor or an alias, and the place behind it. -/
def readAnchorName (c : Cursor) : Except Fault (String × Cursor) :=
  let name := (c.rest.drop 1).takeWhile isWordChar
  if name.isEmpty || !endsAnchor (c.rest.drop (name.length + 1)) then .error .malformed
  else .ok (String.ofList name, c.forward (name.length + 1))

/-- An anchor in front of a node, if there is one. -/
def readAnchor (c : Cursor) : Except Fault (Option String × Cursor) :=
  match c.rest with
  | '&' :: _ => do
    let (name, after) ← readAnchorName c
    return (some name, after.skipSpaces)
  | _ => .ok (none, c)

/-- What is said about a node in front of it. -/
structure Marks where
  tag : Option Tag := none
  anchor : Option String := none

def Marks.isEmpty (m : Marks) : Bool :=
  m.tag.isNone && m.anchor.isNone

/-- Whether a tag or an anchor starts here. -/
def Cursor.atMarks (c : Cursor) : Bool :=
  c.rest.head? = some '!' || c.rest.head? = some '&'

/-- The marks in front of a node, in any order. -/
def readMarks (c : Cursor) : Except Fault (Marks × Cursor) := do
  let (tag, after) ← readTag c
  let (anchor, after) ← readAnchor after
  let (tag, after) ← if tag.isSome then .ok (tag, after) else readTag after
  return (⟨tag, anchor⟩, after)

end ModelData.Yaml
