import ModelData.Document.Basic
import ModelData.Identifier.Basic
import ModelData.Value.Sort

/-!
Reports on documents. A report counts what a document holds and lists what would break the
data file: names that are no identifiers, names and keys that occur twice, arrays of unequal
tuples or of mixed kinds, and comment lines that end the comment. A place in a document is
given by a path: the name of the element, then the key, tuple position or set position of
each child on the way. Findings come in the order of a walk that visits an array before its
children.
-/

namespace ModelData

structure Report where
  elementCount : Nat
  /-- How many elements there are of each kind, in order of first occurrence. -/
  kinds : List (String × Nat)
  maxDepth : Nat
  nodeCount : Nat
  invalidNames : List String
  duplicateNames : List String
  /-- For the path of an array the keys that occur in it more than once. -/
  duplicateKeys : List (String × List String)
  unequalTuples : List String
  mixedKinds : List String
  /-- The numbers of the comment lines that end the comment. -/
  unsafeLines : List Nat
  warnings : List String
deriving DecidableEq

namespace Report

def isClean (r : Report) : Bool :=
  r.warnings.isEmpty

/-- How deep some trees are and how many nodes they have: elements, and bare literals in sets. -/
structure Extent where
  depth : Nat := 0
  nodeCount : Nat := 0
deriving DecidableEq

namespace Extent

/-- Trees beside other trees. -/
def beside (x y : Extent) : Extent :=
  ⟨max x.depth y.depth, x.nodeCount + y.nodeCount⟩

/-- Trees with a number of leaves beside them. -/
def withLeaves (x : Extent) (count : Nat) : Extent :=
  ⟨if 0 < count then max x.depth 1 else x.depth, x.nodeCount + count⟩

/-- The tree that has the trees as its branches. -/
def rooted (x : Extent) : Extent :=
  ⟨1 + x.depth, 1 + x.nodeCount⟩

end Extent

/-- How many of the members are elements. -/
def elementsAmong (members : List Member) : Nat :=
  members.countP fun
    | .element _ => true
    | _ => false

mutual

/-- The extent of a tree. Children that are elements are visited one by one; the bare literals
of a set are not, and are what is left of its members in the end. -/
def extent : Element → Extent
  | .set members =>
    ((memberExtents {} members).withLeaves (members.length - elementsAmong members)).rooted
  | .tuple items => (itemExtents {} items).rooted
  | .array entries => (entryExtents {} entries).rooted
  | _ => Extent.rooted {}

def memberExtents (before : Extent) : List Member → Extent
  | [] => before
  | .element e :: rest => memberExtents (before.beside (extent e)) rest
  | _ :: rest => memberExtents before rest

def itemExtents (before : Extent) : List Element → Extent
  | [] => before
  | e :: rest => itemExtents (before.beside (extent e)) rest

def entryExtents (before : Extent) : List (Binding Value Element) → Extent
  | [] => before
  | ⟨_, e⟩ :: rest => entryExtents (before.beside (extent e)) rest

end

/-- Something wrong with an array. -/
inductive Finding where
  | invalidKey (path : List Char) (key : Value)
  | duplicateKeys (path : List Char) (keys : List Value)
  | mixedKinds (path : List Char)
  | unequalTuples (path : List Char)

def keyStep (key : Value) : List Char :=
  '[' :: key.chars ++ [']']

def tupleStep (position : Nat) : List Char :=
  '<' :: Digits.ofNat position ++ ['>']

def setStep (position : Nat) : List Char :=
  '\x7b' :: Digits.ofNat position ++ ['\x7d']

/-- The values that occur more than once, each as it first occurs. -/
def repeated (values : List Value) : List Value :=
  let forms := Value.forms values
  distinct Value.form (values.filter fun v => 1 < forms.count v.form)

/-- Whether two of the values differ. -/
def differ {α : Type} [DecidableEq α] : List α → Bool
  | [] => false
  | x :: rest => rest.any fun y => y ≠ x

/-- What is wrong with an array itself. -/
def arrayFindings (path : List Char) (entries : List Named) : List Finding :=
  let names := entries.map (·.name)
  let kinds := entries.map fun n => n.element.kind
  let twice := repeated names
  (if twice.isEmpty then [] else [.duplicateKeys path twice])
    ++ (names.filter fun name => !Identifier.isValid name).map (.invalidKey path)
    ++ (if differ kinds then [.mixedKinds path]
      else if kinds.contains .tuple && differ (entries.map fun n => n.element.count?) then
        [.unequalTuples path]
      else [])

mutual

def findings (path : List Char) : Element → List Finding
  | .set members => memberFindings path 0 members
  | .tuple items => itemFindings path 0 items
  | .array entries => arrayFindings path entries ++ entryFindings path entries
  | _ => []

def memberFindings (path : List Char) (position : Nat) : List Member → List Finding
  | [] => []
  | .element e :: rest =>
    findings (path ++ setStep position) e ++ memberFindings path (position + 1) rest
  | _ :: rest => memberFindings path (position + 1) rest

def itemFindings (path : List Char) (position : Nat) : List Element → List Finding
  | [] => []
  | e :: rest => findings (path ++ tupleStep position) e ++ itemFindings path (position + 1) rest

def entryFindings (path : List Char) : List (Binding Value Element) → List Finding
  | [] => []
  | ⟨name, e⟩ :: rest => findings (path ++ keyStep name) e ++ entryFindings path rest

end

mutual

/-- The kind of the first array key, arrays before their children, that cannot be counted. -/
def uncountable? : Element → Option Kind
  | .set members => memberUncountable? members
  | .tuple items => itemUncountable? items
  | .array entries =>
    (Value.anyUnhashable? (entries.map (·.name))).or (entryUncountable? entries)
  | _ => none

def memberUncountable? : List Member → Option Kind
  | [] => none
  | .element e :: rest => (uncountable? e).or (memberUncountable? rest)
  | _ :: rest => memberUncountable? rest

def itemUncountable? : List Element → Option Kind
  | [] => none
  | e :: rest => (uncountable? e).or (itemUncountable? rest)

def entryUncountable? : List (Binding Value Element) → Option Kind
  | [] => none
  | ⟨_, e⟩ :: rest => (uncountable? e).or (entryUncountable? rest)

end

/-- Everything wrong with the elements of a document. -/
def documentFindings (d : Document) : List Finding :=
  d.elements.flatMap fun n => findings n.name.chars n.element

/-- Whether a comment line holds the mark that ends a comment. -/
def lineCloses : Value → Except Misfit Bool
  | .text s => .ok (closesComment s)
  | .list items | .tuple items | .stream _ items =>
    .ok (items.any fun v => v.equals (.text "*/"))
  | .table entries => .ok (entries.any fun e => e.1.equals (.text "*/"))
  | .bytes _ => .error .bytesContainer
  | v => .error (.notContainer v.kind)

/-- The numbers of the lines that close the comment, from a number on. -/
def closingLines (index : Nat) : List Value → Except Misfit (List Nat)
  | [] => .ok []
  | line :: rest => do
    let closes ← lineCloses line
    let later ← closingLines (index + 1) rest
    return if closes then index :: later else later

/-- A comment line once it has been searched: a stream has been read up to the first mark. -/
def searched : Value → Value
  | .stream label items =>
    .stream label ((items.dropWhile fun v => !v.equals (.text "*/")).drop 1)
  | v => v

/-- The comment lines once they have been searched, up to one that cannot be. -/
def linesSearched : List Value → List Value
  | [] => []
  | line :: rest =>
    match lineCloses line with
    | .ok _ => searched line :: linesSearched rest
    | .error _ => line :: rest

/-- The values as texts; all of them have to be texts. -/
def textsFrom (index : Nat) : List Value → Except Misfit (List String)
  | [] => .ok []
  | .text s :: rest => do return s :: (← textsFrom (index + 1) rest)
  | v :: _ => .error (.joinItem index v.kind)

def texts (values : List Value) : Except Misfit (List String) :=
  textsFrom 0 values

def sorted (texts : List String) : List String :=
  texts.mergeSort fun a b => a ≤ b

/-- The values as texts in order. Values that have no order among them are refused as such. -/
def sortedTexts (values : List Value) : Except Misfit (List String) := do
  texts (← sortBy id values)

def invalidNameOf : Finding → Option Value
  | .invalidKey path key => some (.text (String.ofList (path ++ keyStep key)))
  | _ => none

def mixedPath? : Finding → Option String
  | .mixedKinds path => some (String.ofList path)
  | _ => none

def unequalPath? : Finding → Option String
  | .unequalTuples path => some (String.ofList path)
  | _ => none

/-- The repeated keys for each path; of two arrays with one path the later counts. -/
def putKeys (path : String) (keys : List Value) :
    List (String × List Value) → List (String × List Value)
  | [] => [(path, keys)]
  | (p, old) :: rest =>
    if p = path then (p, keys) :: rest else (p, old) :: putKeys path keys rest

def keysByPath (fs : List Finding) : List (String × List Value) :=
  fs.foldl (fun table f =>
    match f with
    | .duplicateKeys path keys => putKeys (String.ofList path) keys table
    | _ => table) []

/-- How often each kind occurs. -/
def countKinds (names : List String) : List (String × Nat) :=
  names.eraseDups.map fun name => (name, names.count name)

def warning (intro : String) (parts : List String) : List String :=
  if parts.isEmpty then [] else [intro ++ ": " ++ ", ".intercalate parts]

/-- Why the names and keys of a document cannot be counted. -/
def uncounted? (d : Document) : Option Misfit :=
  ((Value.anyUnhashable? (d.elements.map (·.name))).or
    (d.elements.findSome? fun n => uncountable? n.element)).map .unhashable

/-- What is left of a document once it has been examined: its lines are searched only if its
names and keys can be counted. -/
def examined (d : Document) : Document :=
  if (uncounted? d).isSome then d else { d with headerLines := linesSearched d.headerLines }

/-- Examines a document. Names and keys that cannot be counted, lines that cannot be searched,
and names that cannot be listed are misfits. -/
def ofDocument (d : Document) : Except Misfit Report := do
  if let some m := uncounted? d then throw m
  let names := d.elements.map (·.name)
  let found := documentFindings d
  let whole := entryExtents {} d.elements
  let unsafeLines ← closingLines 0 d.headerLines
  let invalid := names.filter (fun name => !Identifier.isValid name)
    ++ found.filterMap invalidNameOf
  let invalidNames ← texts invalid
  let duplicateNames ← sortedTexts (repeated names)
  let duplicateKeys ← ((keysByPath found).mergeSort fun a b => a.1 ≤ b.1).mapM
    fun (path, keys) => do return (path, ← sortedTexts keys)
  let unequalTuples := sorted (found.filterMap unequalPath?).eraseDups
  let mixedKinds := sorted (found.filterMap mixedPath?).eraseDups
  return {
    elementCount := d.elements.length
    kinds := countKinds (d.elements.map fun n => n.element.kind.name)
    maxDepth := whole.depth
    nodeCount := whole.nodeCount
    invalidNames, duplicateNames, duplicateKeys, unequalTuples, mixedKinds, unsafeLines
    warnings := (warning "Invalid identifiers" invalidNames
      ++ warning "Duplicate element names" duplicateNames
      ++ duplicateKeys.flatMap (fun (path, keys) => warning ("Duplicate keys in " ++ path) keys)
      ++ warning "Tuple arrays with inconsistent arity" unequalTuples
      ++ warning "Arrays mixing element kinds" mixedKinds
      ++ warning "Prefix text lines close the header comment"
        (unsafeLines.map fun n => String.ofList (Digits.ofNat n))).eraseDups }

end Report

end ModelData
