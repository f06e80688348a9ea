import ModelData.Yaml.Plain
import ModelData.Yaml.Fault
import ModelData.Yaml.Tag
import ModelData.Text.Base64
import ModelData.Text.DecimalDigit

/-!
What scalars stand for. Without a tag, the spelling of a plain scalar decides, and any other
is a text. With the tag of a known kind the text is read as one of that kind, by rules that
are wider than those for plain scalars: blanks around a number, digits of any script, and a
float without a point will do. A text that cannot be read so is a misfit.
-/

namespace ModelData.Yaml

/-- Blanks and line breaks of all sorts. -/
def isSpace (c : Char) : Bool :=
  let n := c.toNat
  (0x09 ≤ n && n ≤ 0x0d) || (0x1c ≤ n && n ≤ 0x20) || n = 0x85 || n = 0xa0 || n = 0x1680
    || (0x2000 ≤ n && n ≤ 0x200a) || n = 0x2028 || n = 0x2029 || n = 0x202f || n = 0x205f
    || n = 0x3000

def trimmed (cs : List Char) : List Char :=
  ((cs.dropWhile isSpace).reverse.dropWhile isSpace).reverse

/-- Digits of other scripts as those of ASCII. -/
def withAsciiDigits (cs : List Char) : List Char :=
  cs.map fun c => ((DecimalDigit.value? c).map Nat.digitChar).getD c

/-- What is left behind the letter that may announce a base. -/
def dropBaseMark (base : Nat) (cs : List Char) : List Char :=
  let letters := if base = 2 then ['b', 'B'] else if base = 8 then ['o', 'O'] else ['x', 'X']
  match cs with
  | '0' :: c :: rest => if base ≠ 10 && letters.contains c then rest else cs
  | cs => cs

/-- Reads an integer in a base, with blanks around it and a sign. -/
def readInteger (base : Nat) (cs : List Char) : Except Misfit Int :=
  let text := trimmed (withAsciiDigits cs)
  match Digits.read? base (dropBaseMark base (dropSign text)) with
  | some n => .ok (if isNegative text then -(n : Int) else n)
  | none => .error (.notInteger base (String.ofList cs))

/-- Numbers that count in sixties, from the last to the first. -/
def integerOfSixties (groups : List (List Char)) : Except Misfit Int := do
  let numbers ← groups.mapM (readInteger 10)
  return numbers.foldl (fun n group => n * 60 + group) 0

/-- Reads the integer of a scalar that is tagged as one. -/
def taggedInteger (text : List Char) : Except Misfit Int :=
  let cs := withoutMarks text
  if cs.isEmpty then .error .noFirstCharacter
  else do
    let size := dropSign cs
    let n ← match size with
      | [] => .error .noFirstCharacter
      | ['0'] => .ok 0
      | '0' :: 'b' :: rest => readInteger 2 rest
      | '0' :: 'x' :: rest => readInteger 16 rest
      | '0' :: rest => readInteger 8 ('0' :: rest)
      | size => if size.contains ':' then integerOfSixties (splitColons size) else readInteger 10 size
    return if isNegative cs then -n else n

/-- Reads a float, which may be a word, with blanks around it and a sign. -/
def readFloat (cs : List Char) : Except Misfit Binary64 :=
  let text := trimmed (withAsciiDigits cs)
  let size := dropSign text
  let magnitude? :=
    if isWord ["inf", "infinity"] size then some (.infinite false)
    else if isWord ["nan"] size then some (.nan nanOccurrence)
    else (Binary64.readDecimal? size).map (Binary64.ofDecimal false)
  match magnitude? with
  | some x => .ok (if isNegative text then x.negate else x)
  | none => .error (.notFloat (String.ofList cs))

/-- Reads the float of a scalar that is tagged as one. -/
def taggedFloat (text : List Char) : Except Misfit Binary64 :=
  let cs := (withoutMarks text).map Char.toLower
  if cs.isEmpty then .error .noFirstCharacter
  else do
    let size := dropSign cs
    let magnitude ←
      if isWord [".inf"] size then .ok (.infinite false)
      else if isWord [".nan"] size then .ok (.nan nanOccurrence)
      else if size.contains ':' then do addSixties (← (splitColons size).mapM readFloat)
      else readFloat size
    return if isNegative cs then magnitude.negate else magnitude

/-- Reads the truth value of a scalar that is tagged as one. -/
def taggedFlag (text : List Char) : Except Misfit Bool :=
  let word := text.map Char.toLower
  if isWord ["yes", "true", "on"] word then .ok true
  else if isWord ["no", "false", "off"] word then .ok false
  else .error (.notFlag (String.ofList word))

def taggedStamp (text : List Char) : Except Misfit Value :=
  match readStamp? text with
  | some stamp => stamp.value
  | none => .error (.noMethod .null "groupdict")

/-- What a plain scalar stands for. As a key the mark for a chief value is a text. -/
def spelledValue (isKey : Bool) (text : List Char) : Except Fault Value :=
  match plainKind text with
  | .null => .ok .null
  | .flag b => .ok (.flag b)
  | .int => ((intValue text).map Value.int).mapError .misfit
  | .float => ((floatValue text).map Value.float).mapError .misfit
  | .date | .moment => (taggedStamp text).mapError .misfit
  | .merge => .error .malformed
  | .chief => if isKey then .ok (.text (String.ofList text)) else .error .malformed
  | .text => .ok (.text (String.ofList text))

/-- What a scalar with the tag of a known kind stands for. -/
def taggedValue (isKey : Bool) (name : String) (text : List Char) : Except Fault Value :=
  match name with
  | "str" => .ok (.text (String.ofList text))
  | "null" => .ok .null
  | "bool" => ((taggedFlag text).map Value.flag).mapError .misfit
  | "int" => ((taggedInteger text).map Value.int).mapError .misfit
  | "float" => ((taggedFloat text).map Value.float).mapError .misfit
  | "timestamp" => (taggedStamp text).mapError .misfit
  | "binary" =>
    match Base64.decode? text with
    | some bytes => .ok (.bytes bytes)
    | none => .error .malformed
  | "value" => if isKey then .ok (.text (String.ofList text)) else .error .malformed
  | _ => .error .malformed

/-- What a scalar stands for. -/
def scalarValue (isKey : Bool) (tag : Option Tag) (isPlain : Bool) (text : List Char) :
    Except Fault Value :=
  match tag with
  | none => if isPlain then spelledValue isKey text else .ok (.text (String.ofList text))
  | some .bySpelling => spelledValue isKey text
  | some (.core name) => taggedValue isKey name text
  | some .foreign => .error .malformed

end ModelData.Yaml
