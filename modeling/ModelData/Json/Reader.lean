import ModelData.Json.Quoted
import ModelData.Number.Literal
import ModelData.Value.Table

/-!
Reading JSON text. A number without point and exponent is an integer of any size, any other
is rounded to the nearest float. A key that occurs again keeps its first place and takes its
last value. NaN and the two infinities may be written by name. Blanks may stand around every
part; nothing else may follow the value.
-/

namespace ModelData.Json

def isBlank (c : Char) : Bool :=
  c = ' ' || c = '\t' || c = '\n' || c = '\r'

def skip (cs : List Char) : List Char :=
  cs.dropWhile isBlank

/-- The occurrence that every NaN in a text counts as. -/
def nanOccurrence : Nat := 0

/-- The whole part of a number: a zero, or digits that do not start with one. -/
def readWhole? : List Char → Option (List Char × List Char)
  | '0' :: rest => some (['0'], rest)
  | cs =>
    match cs.span Char.isDigit with
    | ([], _) => none
    | (digits, rest) => some (digits, rest)

/-- A point with digits behind it, if there is a point. -/
def readFraction? : List Char → Option (List Char × List Char)
  | '.' :: rest =>
    match rest.span Char.isDigit with
    | ([], _) => none
    | (digits, rest) => some ('.' :: digits, rest)
  | cs => some ([], cs)

def readSign : List Char → List Char × List Char
  | '-' :: rest => (['-'], rest)
  | '+' :: rest => (['+'], rest)
  | cs => ([], cs)

/-- An exponent, if there is one. -/
def readPower? : List Char → Option (List Char × List Char)
  | 'e' :: rest | 'E' :: rest =>
    let (sign, rest) := readSign rest
    match rest.span Char.isDigit with
    | ([], _) => none
    | (digits, rest) => some ('e' :: sign ++ digits, rest)
  | cs => some ([], cs)

def readNumber? (negative : Bool) (cs : List Char) : Option (Value × List Char) := do
  let (whole, rest) ← readWhole? cs
  let (fraction, rest) ← readFraction? rest
  let (power, rest) ← readPower? rest
  if fraction.isEmpty && power.isEmpty then
    let n : Int := Digits.toNat whole
    return (.int (if negative then -n else n), rest)
  else
    let d ← Binary64.readDecimal? (whole ++ fraction ++ power)
    return (.float (Binary64.ofDecimal negative d), rest)

/-- A value that is no text, list or table. -/
def readAtom? : List Char → Option (Value × List Char)
  | 'n' :: 'u' :: 'l' :: 'l' :: rest => some (.null, rest)
  | 't' :: 'r' :: 'u' :: 'e' :: rest => some (.flag true, rest)
  | 'f' :: 'a' :: 'l' :: 's' :: 'e' :: rest => some (.flag false, rest)
  | 'N' :: 'a' :: 'N' :: rest => some (.float (.nan nanOccurrence), rest)
  | 'I' :: 'n' :: 'f' :: 'i' :: 'n' :: 'i' :: 't' :: 'y' :: rest =>
    some (.float (.infinite false), rest)
  | '-' :: 'I' :: 'n' :: 'f' :: 'i' :: 'n' :: 'i' :: 't' :: 'y' :: rest =>
    some (.float (.infinite true), rest)
  | '-' :: rest => readNumber? true rest
  | cs => readNumber? false cs

mutual

/-- Reads a value that starts at once; the steps bound the characters that may be read. -/
def readValue : Nat → List Char → Option (Value × List Char)
  | 0, _ => none
  | steps + 1, '"' :: rest => do
    let (s, rest) ← readText (steps + 1) rest
    return (.text (String.ofList s), rest)
  | steps + 1, '[' :: rest =>
    match skip rest with
    | ']' :: rest => some (.list [], rest)
    | rest => do
      let (items, rest) ← readItems steps rest
      return (.list items, rest)
  | steps + 1, '\x7b' :: rest =>
    match skip rest with
    | '\x7d' :: rest => some (.table [], rest)
    | rest => do
      let (entries, rest) ← readEntries steps rest
      return (.table (Table.ofList entries), rest)
  | _ + 1, cs => readAtom? cs

/-- Reads items up to the closing bracket; there is at least one. -/
def readItems : Nat → List Char → Option (List Value × List Char)
  | 0, _ => none
  | steps + 1, cs => do
    let (v, rest) ← readValue steps cs
    match skip rest with
    | ']' :: rest => return ([v], rest)
    | ',' :: rest => do
      let (items, rest) ← readItems steps (skip rest)
      return (v :: items, rest)
    | _ => none

/-- Reads entries up to the closing brace; there is at least one. -/
def readEntries : Nat → List Char → Option (List (Value × Value) × List Char)
  | 0, _ => none
  | steps + 1, '"' :: cs => do
    let (key, rest) ← readText (steps + 1) cs
    match skip rest with
    | ':' :: rest => do
      let (v, rest) ← readValue steps (skip rest)
      let entry := (Value.text (String.ofList key), v)
      match skip rest with
      | '\x7d' :: rest => return ([entry], rest)
      | ',' :: rest => do
        let (entries, rest) ← readEntries steps (skip rest)
        return (entry :: entries, rest)
      | _ => none
    | _ => none
  | _ + 1, _ => none

end

/-- Reads a text that holds one value. Going into a list and to its item takes two steps, so
two steps for each character are enough. -/
def read? (text : List Char) : Option Value := do
  let (v, rest) ← readValue (2 * text.length + 2) (skip text)
  if (skip rest).isEmpty then return v else none

end ModelData.Json
