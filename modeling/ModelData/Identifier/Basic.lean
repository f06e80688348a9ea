import ModelData.Value.Basic

/-!
Identifiers: names that may stand on the left of an assignment or before the value of an
array entry. A name starts with an ASCII letter or an underscore and goes on with letters,
digits and underscores; a single line break may follow it.
-/

namespace ModelData.Identifier

def isStart (c : Char) : Bool :=
  c.isAlpha || c = '_'

def isPart (c : Char) : Bool :=
  c.isAlphanum || c = '_'

/-- The grammar of names without anything behind them. -/
def isName : List Char → Bool
  | [] => false
  | c :: rest => isStart c && rest.all isPart

/-- The text without a line break at its end. -/
def withoutFinalBreak (text : List Char) : List Char :=
  if text.getLast? = some '\n' then text.dropLast else text

def accepts (text : String) : Bool :=
  isName (withoutFinalBreak text.toList)

/-- Only a text can be an identifier. -/
def isValid : Value → Bool
  | .text s => accepts s
  | _ => false

end ModelData.Identifier
