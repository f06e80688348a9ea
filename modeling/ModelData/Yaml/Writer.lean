import ModelData.Yaml.Style
import ModelData.Yaml.Fault
import ModelData.Text.Base64
import ModelData.Value.Sort
import ModelData.Value.Depth

/-!
Values as YAML text in block style. A table has one entry a line; what a key stands for goes
on the key's line if it is a scalar or empty, and otherwise below it, a table two spaces
further in and a list with its dashes under the key. The first line of a collection within a
list goes on the line of its dash. A key that is long, empty or runs over lines is marked
with a question mark and has its value on a line of its own.
-/

namespace ModelData.Yaml

def floatStyle : Binary64.Style :=
  { Binary64.Style.source with loneFraction := true, infinity := ".inf", nan := ".nan" }

def flagText (b : Bool) : List Char :=
  if b then "true".toList else "false".toList

/-- Bytes are written after a tag in lines of their own. -/
def writeBytes (indent : Nat) (bytes : List UInt8) : List Char :=
  match Base64.encodeLines bytes with
  | [] => "!!binary \"\"".toList
  | lines => "!!binary |".toList ++ lines.flatMap (newLine indent ++ ·)

/-- The text of a value that is written within its line, if it is one. -/
def writeScalar? (isKey : Bool) (indent column : Nat) : Value → Option (List Char)
  | .null => some "null".toList
  | .flag b => some (flagText b)
  | .int i => some (Digits.ofInt i)
  | .float x => some (x.spell floatStyle)
  | .text s => some (writeText isKey indent column s.toList)
  | .date d => some d.text
  | .moment m => some (foldPlain (!isKey) indent false column m.text)
  | .bytes b => some (writeBytes indent b)
  | .list [] | .tuple [] => some ['[', ']']
  | .table [] => some ['\x7b', '\x7d']
  | _ => none

/-- The length up to which a text is written as a key on its line, with a tag of five
characters counted in. -/
def keyLength : Nat := 128

/-- Whether a key can stand in front of a colon on its line. -/
def isSimpleKey : Value → Bool
  | .text s => !s.isEmpty && !s.toList.any endsLine && s.length + 5 < keyLength
  | .int i => (Digits.ofInt i).length + 5 < keyLength
  | .bytes _ => false
  | .list items | .tuple items => items.isEmpty
  | .table entries => entries.isEmpty
  | _ => true

/-- The entries of a table in the order in which they are written. -/
def arrange (sorts : Bool) (entries : List (Value × Value)) : List (Value × Value) :=
  if sorts then
    match sortBy (·.1) entries with
    | .ok sorted => sorted
    | .error _ => entries
  else entries

/-- Joins lines that start at a column. -/
def atColumn (indent : Nat) (parts : List (List Char)) : List Char :=
  (newLine indent).intercalate parts

/-- Writes a value from a column of a line on. -/
def writeInline (block : Nat → Value → Except Fault (List Char)) (isKey : Bool) (column : Nat)
    (v : Value) : Except Fault (List Char) :=
  match writeScalar? isKey column column v with
  | some text => .ok text
  | none => block column v

/-- Writes what stands behind the colon of a key of some length. -/
def writeBehind (block : Nat → Value → Except Fault (List Char)) (indent keyLength : Nat)
    (v : Value) : Except Fault (List Char) :=
  match writeScalar? false (indent + 2) (indent + keyLength + 2) v with
  | some text => .ok (' ' :: text)
  | none =>
    let inner := match v with
      | .table _ => indent + 2
      | _ => indent
    do return newLine inner ++ (← block inner v)

def writeEntry (block : Nat → Value → Except Fault (List Char)) (indent : Nat)
    (key value : Value) : Except Fault (List Char) := do
  if isSimpleKey key then
    let key ← writeInline block true indent key
    return key ++ ':' :: (← writeBehind block indent key.length value)
  else
    let key ← writeInline block false (indent + 2) key
    let value ← writeInline block false (indent + 2) value
    return '?' :: ' ' :: key ++ newLine indent ++ ':' :: ' ' :: value

/-- Writes a collection whose first line starts at a column; lists and tables may nest so
deep. -/
def writeBlock (sorts : Bool) : Nat → (indent : Nat) → Value → Except Fault (List Char)
  | levels + 1, indent, .list items | levels + 1, indent, .tuple items => do
    let parts ← items.mapM fun v => do
      return '-' :: ' ' :: (← writeInline (writeBlock sorts levels) false (indent + 2) v)
    return atColumn indent parts
  | levels + 1, indent, .table entries => do
    let parts ← (arrange sorts entries).mapM fun (k, v) =>
      writeEntry (writeBlock sorts levels) indent k v
    return atColumn indent parts
  | _, _, v => .error (.unwritable v.kind)

/-- The text of a value as a whole. -/
def write (sorts : Bool) (v : Value) : Except Fault (List Char) := do
  return (← writeInline (writeBlock sorts v.depth) false 0 v) ++ ['\n']

end ModelData.Yaml
