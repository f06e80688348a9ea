import ModelData.Number.Shortest

/-!
Spellings of binary numbers. A style decides between positional and scientific notation and
how infinity and NaN are named; the digits are always those of the shortest decimal. The
reader takes a sign, digits with or without a point, and an exponent, and rounds correctly.
-/

namespace ModelData.Binary64

structure Style where
  /-- Whether a number with so many digits before its point is written positionally. -/
  positional : Int → Bool
  /-- Whether a lone digit in front of an exponent is followed by a point and a zero. -/
  loneFraction : Bool
  infinity : String
  nan : String

/-- Digits without any exponent, with at least one digit on either side of the point. -/
def Style.fixed : Style :=
  ⟨fun _ => true, false, "inf", "nan"⟩

/-- Positional from 0.0001 to below 10^16. -/
def Style.source : Style :=
  ⟨fun places => -4 < places && places ≤ 16, false, "inf", "nan"⟩

/-- The digits, and how many of them stand before the point; negative counts are zeros
after it. -/
def digitsOf (rank : Nat) : List Char × Int :=
  let d := shortest rank
  let digits := Digits.ofNat d.coefficient
  (digits, digits.length + d.exponent)

def positionalText (digits : List Char) (places : Int) : List Char :=
  if places ≤ 0 then '0' :: '.' :: (List.replicate (-places).toNat '0' ++ digits)
  else if digits.length ≤ places then
    digits ++ List.replicate (places.toNat - digits.length) '0' ++ ['.', '0']
  else digits.take places.toNat ++ '.' :: digits.drop places.toNat

def exponentText (e : Int) : List Char :=
  'e' :: (if e < 0 then '-' else '+') :: Digits.atLeastTwo e.natAbs

def scientificText (loneFraction : Bool) (digits : List Char) (places : Int) : List Char :=
  let fraction := digits.drop 1
  digits.take 1
    ++ (if fraction.isEmpty then (if loneFraction then ['.', '0'] else []) else '.' :: fraction)
    ++ exponentText (places - 1)

def magnitudeText (style : Style) (rank : Nat) : List Char :=
  let (digits, places) := digitsOf rank
  if style.positional places then positionalText digits places
  else scientificText style.loneFraction digits places

def signed (negative : Bool) (text : List Char) : List Char :=
  if negative then '-' :: text else text

def Finite.spell (style : Style) (x : Finite) : List Char :=
  signed x.negative (magnitudeText style x.rank)

def spell (style : Style) : Binary64 → List Char
  | .finite x => x.spell style
  | .infinite negative => signed negative style.infinity.toList
  | .nan _ => style.nan.toList

/-- The exponent after its letter. -/
def readExponent? : List Char → Option Int
  | '-' :: cs => (Digits.read? 10 cs).map fun n => -(n : Int)
  | '+' :: cs => (Digits.read? 10 cs).map fun n => (n : Int)
  | cs => (Digits.read? 10 cs).map fun n => (n : Int)

/-- Digits behind a point, if there is one, and what follows. -/
def takeFraction : List Char → List Char × List Char
  | '.' :: cs => cs.span Char.isDigit
  | cs => ([], cs)

/-- The exponent at the end, zero if there is none. -/
def readPower? : List Char → Option Int
  | [] => some 0
  | 'e' :: cs | 'E' :: cs => readExponent? cs
  | _ => none

/-- An unsigned decimal: digits, an optional point with more digits, an optional exponent. -/
def readDecimal? (cs : List Char) : Option Decimal :=
  let (whole, rest) := cs.span Char.isDigit
  let (fraction, rest) := takeFraction rest
  if (whole ++ fraction).isEmpty then none
  else
    (readPower? rest).map fun e => ⟨Digits.toNat (whole ++ fraction), e - fraction.length⟩

def read? : List Char → Option Binary64
  | '-' :: cs => (readDecimal? cs).map (ofDecimal true)
  | '+' :: cs => (readDecimal? cs).map (ofDecimal false)
  | cs => (readDecimal? cs).map (ofDecimal false)

end ModelData.Binary64
