import ModelData.Folder.Basic
import ModelData.Dat.File
import ModelData.Storage

/-!
Saving documents into a folder. The whole text is made before a file is opened, so a document
that cannot be written leaves every file as it was. A file that is opened for writing is empty
until it is filled. A temporary file gets a name that no entry has yet.
-/

namespace ModelData

inductive SaveFault where
  | misfit (m : Misfit)
  | notWritten (path : String) (f : FolderFault)
  | notCreated (path : String) (f : FolderFault)
  /-- Every name that was tried is taken. -/
  | noName
deriving DecidableEq

def SaveFault.message : SaveFault → String
  | .misfit m => m.message
  | .notWritten path f => "Could not write data file " ++ path ++ ": " ++ f.message path
  | .notCreated path f => "Could not write temporary data file: " ++ f.message path
  | .noName =>
    "Could not write temporary data file: [Errno 17] No usable temporary file name found"

/-- Why settings cannot be loaded from a file. -/
inductive LoadFault where
  | folder (path : String) (f : FolderFault)
  | encoding
  | zeroInPath
  | store (f : StoreFault)
deriving DecidableEq

def LoadFault.message : LoadFault → String
  | .folder path f => f.message path
  | .encoding => "malformed UTF-8"
  | .zeroInPath => Misfit.zeroInPath.message
  | .store f => f.message

namespace Folder

def hasZero (path : String) : Bool :=
  path.toList.contains '\x00'

/-- Work on a folder that may fail on its way; the folder then stays as it was left. -/
abbrev Work (α : Type) := ExceptT SaveFault (StateM Folder) α

/-- What work comes to, and the folder that it leaves. -/
def Work.outcome {α : Type} (w : Work α) (f : Folder) : Except SaveFault α × Folder :=
  w.run.run f

/-- The whole text of a document, made before any file is touched. -/
def rendered (d : Document) (choice : Value) (now : Moment) : Work (List Char) :=
  match Dat.file d choice now with
  | .ok text => return text
  | .error m => throw (.misfit m)

/-- Makes a place an empty file, whatever file stood there. -/
def clear (place : Place) : Work Unit :=
  modify fun f => f.put place (.file .empty)

/-- Writes a text to an open file. -/
def fill (place : Place) (text : List Char) : Work Unit :=
  modify fun f => f.put place (.file (String.ofList text).toUTF8)

/-- Opens a file for writing. -/
def openEmpty (path : String) : Work Place := do
  if hasZero path then throw (.misfit .zeroInPath)
  match placeForWriting (← get) [] path with
  | .error fault => throw (.notWritten path fault)
  | .ok place =>
    clear place
    return place

/-- Writes the data file of a document. -/
def saving (d : Document) (path : String) (choice : Value) (now : Moment) : Work Unit := do
  let text ← rendered d choice now
  let place ← openEmpty path
  fill place text

/-- A folder with the data file of a document in it. -/
def save (f : Folder) (d : Document) (path : String) (choice : Value) (now : Moment) :
    Except SaveFault Folder :=
  match (saving d path choice now).outcome f with
  | (.ok _, left) => .ok left
  | (.error fault, _) => .error fault

/-- A path with its steps back taken in its text, where each undoes the step before. -/
def straighten (here : Place) (part : String) : Except FolderFault Place :=
  if part = "" || part = "." then .ok here
  else if part = ".." then
    if here.isEmpty then .error .missing else .ok here.dropLast
  else .ok (here ++ [part])

/-- The place that a path below a folder names for a file that is new. -/
def placeForNew (f : Folder) (base path : String) : Except FolderFault Place := do
  let home ← enter f [] (← (base.splitOn "/").foldlM straighten [])
  let (parent, t) ← approach f home path
  if t.slash then .error .isFolder
  else if isDots t.name then .error .exists
  else if nameLimit < t.name.utf8ByteSize then .error .nameTooLong
  else
    match f.entry? (parent ++ [t.name]) with
    | some _ => .error .exists
    | none => return parent ++ [t.name]

/-- Opens a new file under the first of some names that is not taken. -/
def openNew (base : String) : List String → Work Place
  | [] => throw .noName
  | path :: others => do
    if hasZero (base ++ path) then throw (.misfit .zeroInPath)
    match placeForNew (← get) base path with
    | .error .exists => openNew base others
    | .error fault => throw (.notCreated path fault)
    | .ok place =>
      clear place
      return place

/-- Names with a stem, a suffix and different marks between them. -/
def temporaryNames (d : Document) (stem : Option String) (marks : List String) : List String :=
  marks.map fun mark => stem.getD d.config.tempPrefix ++ mark ++ d.config.tempSuffix

/-- Writes the data file of a document to a new file below a folder. -/
def savingTemporary (marks : List String) (base : String) (d : Document) (stem : Option String)
    (choice : Value) (now : Moment) : Work Place := do
  let text ← rendered d choice now
  let place ← openNew base (temporaryNames d stem marks)
  fill place text
  return place

/-- The characters that distinguish temporary names. -/
def nameDigits : List Char :=
  "abcdefghijklmnopqrstuvwxyz0123456789_".toList

/-- The eight characters for a number. -/
def nameText (places n : Nat) : List Char :=
  match places with
  | 0 => []
  | places + 1 => nameText places (n / nameDigits.length)
      ++ [nameDigits.getD (n % nameDigits.length) '_']

/-- A folder with the data file of a document in a new file, and where that is. The marks are
eight characters; more are tried than there are entries. -/
def saveTemporary (f : Folder) (base : String) (d : Document) (stem : Option String)
    (choice : Value) (now : Moment) : Except SaveFault (Folder × Place) :=
  let marks := (List.range (f.entries.length + 1)).map fun n => String.ofList (nameText 8 n)
  match (savingTemporary marks base d stem choice now).outcome f with
  | (.ok place, left) => .ok (left, place)
  | (.error fault, _) => .error fault

/-- The settings in a file. -/
def loadConfig (f : Folder) (path : String) : Except LoadFault Config := do
  if hasZero path then .error .zeroInPath
  else
    let content ← (f.read path).mapError (.folder path)
    match String.fromUTF8? content with
    | none => .error .encoding
    | some text => (Config.ofYaml text).mapError .store

end Folder

end ModelData
