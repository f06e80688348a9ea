import ModelData.Number.Digits
import ModelData.Number.Binary64

/-!
Decimals for binary numbers. Every real number strictly between two midpoints rounds to the
same rank, and the midpoints themselves belong to the even rank. The shortest decimal of a
rank is the one with the fewest digits among those that round to it, the nearest of these,
and of two equally near ones the even one. Should no spelling of at most seventeen digits
be found, the exact value is taken, so the decimal always rounds to its rank.
-/

namespace ModelData

/-- The number `coefficient` times ten to the power `exponent`. -/
structure Decimal where
  coefficient : Nat
  exponent : Int
deriving DecidableEq

namespace Decimal

def numerator (d : Decimal) : Nat :=
  d.coefficient * Nat.pow 10 d.exponent.toNat

def denominator (d : Decimal) : Nat :=
  Nat.pow 10 (-d.exponent).toNat

/-- Drops zeros at the end of a coefficient, at most `places` of them. -/
def dropZeros : Nat → Decimal → Decimal
  | 0, d => d
  | places + 1, d =>
    if d.coefficient % 10 = 0 then dropZeros places ⟨d.coefficient / 10, d.exponent + 1⟩ else d

/-- The same number with no zero at the end of its coefficient; zero has exponent zero. -/
def reduce (d : Decimal) : Decimal :=
  if d.coefficient = 0 then ⟨0, 0⟩ else dropZeros (Digits.ofNat d.coefficient).length d

end Decimal

namespace Binary64

/-- Whether a ratio rounds to a rank. -/
def roundsTo (rank num den : Nat) : Bool :=
  let low := (units (rank - 1) + units rank) * den
  let high := (units rank + units (rank + 1)) * den
  let twice := 2 * (num * one)
  if rank % 2 = 0 then low ≤ twice && twice ≤ high else low < twice && twice < high

/-- The exponent of ten of the leading digit of a positive ratio. -/
def leadingExponent (num den : Nat) : Int :=
  if den ≤ num then (Digits.ofNat (num / den)).length - 1
  else -(Digits.ofNat ((den - 1) / num)).length

/-- The decimal with a given exponent that is nearest to a rank, if any of them rounds to it. -/
def onGrid? (rank : Nat) (exponent : Int) : Option Decimal :=
  let num := units rank * Nat.pow 10 (-exponent).toNat
  let den := one * Nat.pow 10 exponent.toNat
  let below : Decimal := ⟨num / den, exponent⟩
  let above : Decimal := ⟨num / den + 1, exponent⟩
  let rest := num % den
  let nearer :=
    if 2 * rest < den ∨ (2 * rest = den ∧ below.coefficient % 2 = 0) then [below, above]
    else [above, below]
  nearer.find? fun d => roundsTo rank d.numerator d.denominator

/-- All digits of a magnitude. -/
def exact (rank : Nat) : Decimal :=
  ⟨units rank * Nat.pow 5 1074, -1074⟩

def shortest (rank : Nat) : Decimal :=
  let leading := leadingExponent (units rank) one
  let found := (List.range 17).findSome? fun (more : Nat) => onGrid? rank (leading - more)
  (found.getD (exact rank)).reduce

/-- The rank that a decimal rounds to, or a rank too large for any finite number. Outside
the range from 10^-400 to 10^400 the answer is known without division. -/
def ofDecimal (negative : Bool) (d : Decimal) : Binary64 :=
  let leading := d.exponent + (Digits.ofNat d.coefficient).length
  if d.coefficient = 0 ∨ leading < -400 then .finite { Finite.zero with negative }
  else if 400 < leading then .infinite negative
  else ofRatio negative d.numerator d.denominator

end Binary64

end ModelData
