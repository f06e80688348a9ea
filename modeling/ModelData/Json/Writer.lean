import ModelData.Json.Quoted
import ModelData.Value.Sort
import ModelData.Value.Depth

/-!
Values as JSON text on one line. The keys of a table are written in order and have to be
texts, numbers, truth values or null; a tuple is written like a list. Infinity and NaN have
names.
-/

namespace ModelData.Json

def floatStyle : Binary64.Style :=
  { Binary64.Style.source with infinity := "Infinity", nan := "NaN" }

def flagText (b : Bool) : List Char :=
  if b then "true".toList else "false".toList

/-- The text of a key, before it is quoted. -/
def keyText : Value → Except Misfit (List Char)
  | .text s => .ok s.toList
  | .int i => .ok (Digits.ofInt i)
  | .float x => .ok (x.spell floatStyle)
  | .flag b => .ok (flagText b)
  | .null => .ok "null".toList
  | v => .error (.keyOf v.kind)

/-- Writes a value in which lists and tables nest at most so deep. -/
def writeWithin : Nat → Value → Except Misfit (List Char)
  | _, .null => .ok "null".toList
  | _, .flag b => .ok (flagText b)
  | _, .int i => .ok (Digits.ofInt i)
  | _, .float x => .ok (x.spell floatStyle)
  | _, .text s => .ok (quote s.toList)
  | levels + 1, .list items | levels + 1, .tuple items => do
    let parts ← items.mapM (writeWithin levels)
    return '[' :: commas parts ++ [']']
  | levels + 1, .table entries => do
    let parts ← (← sortBy (·.1) entries).mapM fun (k, v) => do
      let key ← keyText k
      return quote key ++ ':' :: ' ' :: (← writeWithin levels v)
    return '\x7b' :: commas parts ++ ['\x7d']
  | _, v => .error (.notStored v.kind)

def write (v : Value) : Except Misfit (List Char) :=
  writeWithin v.depth v

end ModelData.Json
