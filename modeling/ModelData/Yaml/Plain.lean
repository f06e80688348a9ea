import ModelData.Yaml.Stamp

/-!
What a plain scalar stands for. Its spelling alone decides: some words are null or truth
values, some spellings are integers in one of five notations, floats, days or moments, and
all others are texts. Underscores may stand among the digits, and groups of digits with
colons between them count in sixties.
-/

namespace ModelData.Yaml

inductive PlainKind where
  | null
  | flag (b : Bool)
  | int
  | float
  | date
  | moment
  /-- The mark for taking over the entries of another table. -/
  | merge
  /-- The mark for the chief value of a table. -/
  | chief
  | text
deriving DecidableEq

def isDigitMark (c : Char) : Bool :=
  c.isDigit || c = '_'

def dropSign : List Char → List Char
  | '-' :: rest | '+' :: rest => rest
  | cs => cs

def isNegative : List Char → Bool
  | '-' :: _ => true
  | _ => false

def withoutMarks (cs : List Char) : List Char :=
  cs.filter (· ≠ '_')

/-- The parts between colons. -/
def splitColons (cs : List Char) : List (List Char) :=
  cs.splitOn ':'

/-- A digit, or two of which the first is below six. -/
def isSixty : List Char → Bool
  | [d] => d.isDigit
  | [c, d] => '0' ≤ c && c ≤ '5' && d.isDigit
  | _ => false

/-- One group or more after the leading one. -/
def areSixties (groups : List (List Char)) : Bool :=
  !groups.isEmpty && groups.all isSixty

/-- Digits that start with one that is not zero. -/
def isLeadingGroup : List Char → Bool
  | [] => false
  | c :: rest => '1' ≤ c && c ≤ '9' && rest.all isDigitMark

/-- Digits that start with a digit. -/
def isDigitGroup : List Char → Bool
  | [] => false
  | c :: rest => c.isDigit && rest.all isDigitMark

def isUnsignedInt : List Char → Bool
  | '0' :: 'b' :: ds => !ds.isEmpty && ds.all fun c => c = '0' || c = '1' || c = '_'
  | '0' :: 'x' :: ds =>
    !ds.isEmpty && ds.all fun c => (Digits.digitValue? c).isSome || c = '_'
  | '0' :: ds => ds.all fun c => ('0' ≤ c && c ≤ '7') || c = '_'
  | cs =>
    match splitColons cs with
    | [leading] => isLeadingGroup leading
    | leading :: groups => isLeadingGroup leading && areSixties groups
    | [] => false

def isInt (cs : List Char) : Bool :=
  isUnsignedInt (dropSign cs)

/-- Nothing, or a signed exponent. -/
def isPower : List Char → Bool
  | [] => true
  | 'e' :: sign :: ds | 'E' :: sign :: ds =>
    (sign = '-' || sign = '+') && !ds.isEmpty && ds.all Char.isDigit
  | _ => false

/-- What follows the digits at the start. -/
def afterMarks (cs : List Char) : List Char :=
  cs.dropWhile isDigitMark

/-- Digits, a point, perhaps more digits and an exponent. -/
def isPointed (cs : List Char) : Bool :=
  match cs.span (· ≠ '.') with
  | (whole, '.' :: rest) => isDigitGroup whole && isPower (afterMarks rest)
  | _ => false

/-- A point with digits behind it and perhaps an exponent. -/
def isFraction : List Char → Bool
  | '.' :: c :: rest => c.isDigit && isPower (afterMarks rest)
  | _ => false

/-- Groups that count in sixties, of which the last has a point. -/
def isSixtyPointed (cs : List Char) : Bool :=
  match cs.span (· ≠ '.') with
  | (whole, '.' :: rest) =>
    match splitColons whole with
    | leading :: groups => isDigitGroup leading && areSixties groups && rest.all isDigitMark
    | [] => false
  | _ => false

def isInfinity (cs : List Char) : Bool :=
  [".inf", ".Inf", ".INF"].any fun word => dropSign cs = word.toList

def isNan (cs : List Char) : Bool :=
  [".nan", ".NaN", ".NAN"].any fun word => cs = word.toList

def isFloat (cs : List Char) : Bool :=
  isPointed (dropSign cs) || isFraction cs || isSixtyPointed (dropSign cs)
    || isInfinity cs || isNan cs

def nullWords : List String := ["", "~", "null", "Null", "NULL"]

def trueWords : List String :=
  ["yes", "Yes", "YES", "true", "True", "TRUE", "on", "On", "ON"]

def falseWords : List String :=
  ["no", "No", "NO", "false", "False", "FALSE", "off", "Off", "OFF"]

def isWord (words : List String) (cs : List Char) : Bool :=
  words.any fun word => cs = word.toList

def plainKind (cs : List Char) : PlainKind :=
  if isWord nullWords cs then .null
  else if isWord trueWords cs then .flag true
  else if isWord falseWords cs then .flag false
  else if isFloat cs then .float
  else if isInt cs then .int
  else if isDate cs then .date
  else if isMoment cs then .moment
  else if cs = ['<', '<'] then .merge
  else if cs = ['='] then .chief
  else .text

/-- Digits of groups that count in sixties, the leading one first. -/
def sixtiesValue (groups : List (List Char)) : Nat :=
  groups.foldl (fun n group => n * 60 + Digits.toNat group) 0

def unsignedIntValue : List Char → Except Misfit Nat
  | '0' :: 'b' :: ds => inBase 2 ds
  | '0' :: 'x' :: ds => inBase 16 ds
  | '0' :: ds => if ds.isEmpty then .ok 0 else inBase 8 ds
  | cs => .ok (sixtiesValue (splitColons cs))
where
  inBase (base : Nat) (ds : List Char) : Except Misfit Nat :=
    match Digits.read? base ds with
    | some n => .ok n
    | none => .error (.notInteger base "")

/-- The integer that a spelling of an integer stands for. In bases two and sixteen the
spelling may hold no digit at all, and then there is none. -/
def intValue (cs : List Char) : Except Misfit Int := do
  let cs := withoutMarks cs
  let n ← unsignedIntValue (dropSign cs)
  return if isNegative cs then -(n : Int) else n

def zero : Binary64 := .finite .zero

/-- The float that digits with or without a point spell. -/
def groupFloat (group : List Char) : Binary64 :=
  ((Binary64.readDecimal? group).map (Binary64.ofDecimal false)).getD zero

/-- The occurrence that every NaN in a text counts as. -/
def nanOccurrence : Nat := 1

/-- The numbers are added up from the last to the first, each with sixty times the weight of
the one after it, and every step is rounded. The weights have to round to finite floats. -/
def addSixties (numbers : List Binary64) : Except Misfit Binary64 := do
  let (total, _) ← numbers.reverse.foldlM (fun (total, weight) number =>
    let factor := Binary64.ofInt weight
    if factor.isFinite then
      let term := (number.product? factor).getD (.nan nanOccurrence)
      .ok ((Binary64.sum? total term).getD (.nan nanOccurrence), weight * 60)
    else .error Misfit.noFloat) (zero, (1 : Int))
  return total

/-- The float that a spelling of a float stands for. -/
def floatValue (cs : List Char) : Except Misfit Binary64 := do
  let cs := withoutMarks cs
  let size := dropSign cs
  if isNan cs then return .nan nanOccurrence
  else
    let magnitude ←
      if isInfinity cs then .ok (.infinite false)
      else if size.contains ':' then addSixties ((splitColons size).map groupFloat)
      else .ok (groupFloat size)
    return if isNegative cs then magnitude.negate else magnitude

end ModelData.Yaml
