/-!
Binary floating point numbers of 64 bits. The finite magnitudes, all of them multiples of
2^-1074, are counted in increasing order; a finite number is a sign and the rank of its
magnitude in that count. The next larger magnitude has the next rank, so rounding a ratio
is finding a rank, and the first rank that is too large stands for overflow.
-/

namespace ModelData

namespace Binary64

/-- How many ranks share a distance to the next magnitude. -/
def binade : Nat := Nat.pow 2 52

/-- How many finite magnitudes there are. -/
def rankCount : Nat := 2047 * binade

/-- The number one, counted in units of 2^-1074. -/
def one : Nat := Nat.pow 2 1074

/-- A magnitude counted in units of 2^-1074. -/
def units (rank : Nat) : Nat :=
  if rank < binade then rank
  else (binade + rank % binade) * Nat.pow 2 (rank / binade - 1)

/-- The rank nearest to a ratio of units; a half goes to the even rank. -/
def nearestUnits (num den : Nat) : Nat :=
  let scale := (num / den).log2 - 52
  let step := den * Nat.pow 2 scale
  let kept := num / step
  let rest := num % step
  let rank := kept + scale * binade
  if step < 2 * rest ∨ (step = 2 * rest ∧ kept % 2 = 1) then rank + 1 else rank

/-- The rank nearest to a ratio. -/
def nearest (num den : Nat) : Nat :=
  nearestUnits (num * one) den

structure Finite where
  negative : Bool
  rank : Nat
  rank_lt : rank < rankCount
deriving DecidableEq

end Binary64

/-- A NaN carries the occurrence it came from: it equals itself and no other NaN. -/
inductive Binary64 where
  | finite (x : Binary64.Finite)
  | infinite (negative : Bool)
  | nan (occurrence : Nat)
deriving DecidableEq

namespace Binary64

namespace Finite

def magnitude (x : Finite) : Nat :=
  units x.rank

/-- The value in units of 2^-1074. -/
def signedUnits (x : Finite) : Int :=
  if x.negative then -(x.magnitude : Int) else x.magnitude

/-- The integer that a whole number is, and none for a number with a fraction. -/
def toInt? (x : Finite) : Option Int :=
  if x.magnitude % one = 0 then
    let n : Int := (x.magnitude / one : Nat)
    some (if x.negative then -n else n)
  else none

def zero : Finite :=
  ⟨false, 0, by decide⟩

end Finite

/-- The number nearest to a signed ratio. -/
def ofRatio (negative : Bool) (num den : Nat) : Binary64 :=
  let rank := nearest num den
  if h : rank < rankCount then .finite ⟨negative, rank, h⟩ else .infinite negative

def ofInt (i : Int) : Binary64 :=
  ofRatio (i < 0) i.natAbs 1

def isFinite : Binary64 → Bool
  | .finite _ => true
  | _ => false

/-- The product, and none where it is no number. -/
def product? : Binary64 → Binary64 → Option Binary64
  | .finite x, .finite y =>
    some (ofRatio (x.negative != y.negative) (x.magnitude * y.magnitude) (one * one))
  | .infinite s, .infinite t => some (.infinite (s != t))
  | .infinite s, .finite x | .finite x, .infinite s =>
    if x.rank = 0 then none else some (.infinite (s != x.negative))
  | _, _ => none

/-- The sum, and none where it is no number; a sum of zeros is negative when both are. -/
def sum? : Binary64 → Binary64 → Option Binary64
  | .finite x, .finite y =>
    let total := x.signedUnits + y.signedUnits
    some (ofRatio (total < 0 || (x.negative && y.negative)) total.natAbs one)
  | .infinite s, .infinite t => if s = t then some (.infinite s) else none
  | .infinite s, .finite _ | .finite _, .infinite s => some (.infinite s)
  | _, _ => none

def negate : Binary64 → Binary64
  | .finite x => .finite { x with negative := !x.negative }
  | .infinite negative => .infinite (!negative)
  | .nan occurrence => .nan occurrence

end Binary64

end ModelData
