import ModelData.Value.Text

/-!
Literals of a data file. A text stands in double quotes, with a backslash in front of every
backslash and double quote and line breaks written as two characters, so the first double
quote without a backslash ends the literal. Floats are written without exponent and always
with a point; truth values are the integers zero and one.
-/

namespace ModelData.Dat

def escapeChar (c : Char) : List Char :=
  if c = '\\' ∨ c = '"' then ['\\', c]
  else if c = '\n' then ['\\', 'n']
  else [c]

def textLiteral (s : String) : List Char :=
  '"' :: s.toList.flatMap escapeChar ++ ['"']

def intLiteral (i : Int) : List Char :=
  Digits.ofInt i

def floatLiteral (x : Binary64.Finite) : List Char :=
  x.spell .fixed

/-- The integer that a truth value is written as. -/
def flagInt (b : Bool) : Int :=
  if b then 1 else 0

def scalarLiteral : Scalar → List Char
  | .text s => textLiteral s
  | .int i => intLiteral i
  | .flag b => intLiteral (flagInt b)

/-- In a set a text is written as it is, without quotes. -/
def memberLiteral : Scalar → List Char
  | .text s => s.toList
  | .int i => intLiteral i
  | .flag b => intLiteral (flagInt b)

/-- Reads a text literal from behind its opening quote; what follows the closing quote is
left over. A backslash takes the next character. -/
def scanText : List Char → Option (List Char × List Char)
  | '"' :: rest => some ([], rest)
  | '\\' :: 'n' :: rest => (scanText rest).map fun (s, left) => ('\n' :: s, left)
  | '\\' :: c :: rest => (scanText rest).map fun (s, left) => (c :: s, left)
  | c :: rest => (scanText rest).map fun (s, left) => (c :: s, left)
  | [] => none

theorem scanText_escape (s : List Char) (left : List Char) :
    scanText (s.flatMap escapeChar ++ '"' :: left) = some (s, left) := by
  induction s with
  | nil => simp [scanText]
  | cons c s ih =>
    by_cases hb : c = '\\'
    · subst hb
      simp [escapeChar, scanText, ih]
    by_cases hq : c = '"'
    · subst hq
      simp [escapeChar, scanText, ih]
    by_cases hn : c = '\n'
    · subst hn
      simp [escapeChar, scanText, ih]
    simp [escapeChar, scanText, hb, hq, hn, ih]

end ModelData.Dat
