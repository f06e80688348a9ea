import ModelData.Text.Source

/-!
Folders. A folder maps paths to files and to further folders. A path is written with slashes
between its parts; empty parts and single dots are passed over, and two dots lead back. A
file is opened for writing only where its parent is a folder and no folder stands there, and
then its content is replaced; nothing else changes.
-/

namespace ModelData

/-- The parts of a path, from the top down. -/
abbrev Place := List String

inductive FolderEntry where
  | file (content : ByteArray)
  | folder

structure Folder where
  entries : List (Place × FolderEntry) := []

inductive FolderFault where
  | missing
  | exists
  | notFolder
  | isFolder
  | nameTooLong
deriving DecidableEq

namespace FolderFault

def code : FolderFault → Nat
  | .missing => 2
  | .exists => 17
  | .notFolder => 20
  | .isFolder => 21
  | .nameTooLong => 36

def reason : FolderFault → String
  | .missing => "No such file or directory"
  | .exists => "File exists"
  | .notFolder => "Not a directory"
  | .isFolder => "Is a directory"
  | .nameTooLong => "File name too long"

/-- The message for a path, which it quotes. -/
def message (f : FolderFault) (path : String) : String :=
  "[Errno " ++ toString f.code ++ "] " ++ f.reason ++ ": "
    ++ String.ofList (Source.quote path.toList)

end FolderFault

namespace Folder

/-- The longest name of an entry, in bytes. -/
def nameLimit : Nat := 255

/-- The length from which on a whole path is refused, in bytes. -/
def pathLimit : Nat := 4096

def find? (f : Folder) (place : Place) : Option FolderEntry :=
  (f.entries.find? fun e => e.1 = place).map (·.2)

/-- What stands at a place; the folder itself is one. -/
def entry? (f : Folder) : Place → Option FolderEntry
  | [] => some .folder
  | place => f.find? place

def replace (place : Place) (entry : FolderEntry) :
    List (Place × FolderEntry) → List (Place × FolderEntry)
  | [] => [(place, entry)]
  | (p, old) :: rest =>
    if p = place then (p, entry) :: rest else (p, old) :: replace place entry rest

def put (f : Folder) (place : Place) (entry : FolderEntry) : Folder :=
  ⟨replace place entry f.entries⟩

/-- Removes an entry and leaves the others. -/
def remove (f : Folder) (place : Place) : Folder :=
  ⟨f.entries.filter fun e => e.1 ≠ place⟩

/-- Goes down from a folder through further folders. -/
def enter (f : Folder) : Place → List String → Except FolderFault Place
  | here, [] => .ok here
  | here, part :: rest =>
    if part = "" || part = "." then enter f here rest
    else if part = ".." then
      if here.isEmpty then .error .missing else enter f here.dropLast rest
    else if nameLimit < part.utf8ByteSize then .error .nameTooLong
    else
      match f.entry? (here ++ [part]) with
      | none => .error .missing
      | some (.file _) => .error .notFolder
      | some .folder => enter f (here ++ [part]) rest

/-- A path taken apart: the parts above the last, the last, and whether a slash follows it. -/
structure Target where
  above : List String
  name : String
  slash : Bool

def dropEmpty (parts : List String) : List String :=
  (parts.reverse.dropWhile (· = "")).reverse

def target (path : String) : Target :=
  let parts := path.splitOn "/"
  let named := dropEmpty parts
  ⟨named.dropLast, named.getLast?.getD "", named.length < parts.length⟩

def isDots (name : String) : Bool :=
  name = "." || name = ".."

/-- The parent that a path leads to from a folder, with the rest of the path. Of what lies
outside, only the root above all folders can be named. -/
def approach (f : Folder) (base : Place) (path : String) :
    Except FolderFault (Place × Target) := do
  if path.isEmpty then .error .missing
  else if pathLimit ≤ path.utf8ByteSize then .error .nameTooLong
  else if path.startsWith "/" then
    if (path.splitOn "/").all fun part => part = "" || isDots part then
      return ([], ⟨[], ".", true⟩)
    else .error .missing
  else
    let t := target path
    return (← enter f base t.above, t)

/-- The place that a path names for a new or an existing file. -/
def placeForWriting (f : Folder) (base : Place) (path : String) : Except FolderFault Place := do
  let (parent, t) ← approach f base path
  if t.slash || isDots t.name then .error .isFolder
  else if nameLimit < t.name.utf8ByteSize then .error .nameTooLong
  else
    match f.entry? (parent ++ [t.name]) with
    | some .folder => .error .isFolder
    | _ => return parent ++ [t.name]

/-- Replaces the content of a file or makes a new one. -/
def write (f : Folder) (path : String) (content : ByteArray) : Except FolderFault Folder := do
  return f.put (← placeForWriting f [] path) (.file content)

def read (f : Folder) (path : String) : Except FolderFault ByteArray := do
  let (parent, t) ← approach f [] path
  if isDots t.name then .error .isFolder
  else if nameLimit < t.name.utf8ByteSize then .error .nameTooLong
  else
    match f.entry? (parent ++ [t.name]) with
    | none => .error .missing
    | some .folder => .error .isFolder
    | some (.file content) => if t.slash then .error .notFolder else return content

def makeFolder (f : Folder) (path : String) : Except FolderFault Folder := do
  let (parent, t) ← approach f [] path
  if isDots t.name then .error .exists
  else if nameLimit < t.name.utf8ByteSize then .error .nameTooLong
  else
    match f.entry? (parent ++ [t.name]) with
    | none => return f.put (parent ++ [t.name]) .folder
    | some _ => .error .exists

/-- The names of the entries at the top, in order. -/
def names (f : Folder) : List String :=
  (f.entries.filterMap fun e =>
    match e.1 with
    | [name] => some name
    | _ => none).mergeSort fun a b => a ≤ b

end Folder

end ModelData
