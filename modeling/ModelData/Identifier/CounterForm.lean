import ModelData.Misfit
import ModelData.Text.DecimalDigit

/-!
How a counter is written: the least width, where the zeros go that fill it up, what marks a
counter that is not negative, and a mark between groups of three digits. A form has a
spelling of its own: a sign for the side of the zeros, which may be left out with all that
belongs to it; a sign for counters that are not negative; the width; the mark between groups.
Two parts may be spelled that integers do not take: one that forbids negative zeros, and a
number of places behind a point.
-/

namespace ModelData.Identifier

/-- Where zeros fill up a counter. -/
inductive Filling where
  | left
  | right
  /-- On both sides, with the odd zero on the right. -/
  | around
  /-- Between the sign and the digits. -/
  | inside
deriving DecidableEq

structure CounterForm where
  filling : Filling := .inside
  /-- What stands before a counter that is not negative. -/
  plus : List Char := []
  width : Nat := 0
  /-- The mark between groups of three digits. -/
  mark : Option Char := none
  forbidsNegativeZero : Bool := false
  hasPlaces : Bool := false

namespace CounterForm

def fillingOf? : Char → Option Filling
  | '>' => some .left
  | '<' => some .right
  | '^' => some .around
  | '=' => some .inside
  | _ => none

/-- A sign, which shows on counters that are not negative unless it is a minus. -/
def readPlus : List Char → List Char × List Char
  | '+' :: rest => (['+'], rest)
  | ' ' :: rest => ([' '], rest)
  | '-' :: rest => ([], rest)
  | rest => ([], rest)

/-- Whether a character stands at the front, and what follows it. -/
def readFlag (c : Char) : List Char → Bool × List Char
  | d :: rest => if d = c then (true, rest) else (false, d :: rest)
  | [] => (false, [])

/-- The parts in front of the width. The last, which asks for a mark of the base, says nothing
in base ten. -/
def readFront : List Char → CounterForm × List Char
  | [] => ({}, [])
  | c :: rest =>
    match fillingOf? c with
    | none => ({}, c :: rest)
    | some filling =>
      let (plus, rest) := readPlus rest
      let (forbidsNegativeZero, rest) := readFlag 'z' rest
      let (_, rest) := readFlag '#' rest
      ({ filling, plus, forbidsNegativeZero }, rest)

/-- The counts above which no form is read. -/
def countLimit : Nat := Nat.pow 2 63

/-- A count, which has to be below the limit, and whether there is any. -/
def readCount (cs : List Char) : Except Misfit (Nat × Bool × List Char) :=
  let digits := cs.takeWhile DecimalDigit.isDecimal
  if countLimit ≤ DecimalDigit.number digits then .error .counterTooWide
  else .ok (DecimalDigit.number digits, !digits.isEmpty, cs.dropWhile DecimalDigit.isDecimal)

/-- The mark between groups; only one can be used. -/
def readMark : List Char → Except Misfit (Option Char × List Char)
  | ',' :: '_' :: _ | '_' :: ',' :: _ => .error .counterMarks
  | ',' :: rest => .ok (some ',', rest)
  | '_' :: rest => .ok (some '_', rest)
  | rest => .ok (none, rest)

/-- Whether a point follows, which needs a count behind it. -/
def readPlaces : List Char → Except Misfit (Bool × List Char)
  | '.' :: rest => do
    let (_, isCount, rest) ← readCount rest
    if isCount then return (true, rest) else .error .counterNoPlaces
  | rest => .ok (false, rest)

/-- The form with a spelling, for counters of some kind. -/
def read (k : Kind) (spelling : List Char) : Except Misfit CounterForm := do
  let (front, rest) := readFront spelling
  let (width, _, rest) ← readCount rest
  let (mark, rest) ← readMark rest
  let (hasPlaces, rest) ← readPlaces rest
  if rest.isEmpty then return { front with width, mark, hasPlaces }
  else .error (.counterSpec (String.ofList ('0' :: spelling ++ ['d'])) k)

theorem fillingOf?_of_isDigit {c : Char} (h : c.isDigit) : fillingOf? c = none := by
  unfold fillingOf?
  split <;> simp_all [Char.isDigit]

theorem readFront_ofNat (n : Nat) : readFront (Digits.ofNat n) = ({}, Digits.ofNat n) := by
  cases h : Digits.ofNat n with
  | nil => rfl
  | cons c cs =>
    have hc : c.isDigit := Digits.isDigit_of_mem_ofNat (show c ∈ Digits.ofNat n by simp [h])
    simp [readFront, fillingOf?_of_isDigit hc]

/-- The digits of a number alone ask for that width. -/
theorem read_ofNat (k : Kind) (n : Nat) :
    read k (Digits.ofNat n) =
      if countLimit ≤ n then .error .counterTooWide else .ok { width := n } := by
  simp only [read, readFront_ofNat, readCount, DecimalDigit.takeWhile_ofNat,
    DecimalDigit.dropWhile_ofNat, DecimalDigit.number_ofNat]
  split
  · rfl
  · simp [bind, Except.bind, readMark, readPlaces, pure, Except.pure]

/-- Marks groups of three in digits that start with the last. -/
def groupBack (mark : Char) : List Char → List Char
  | a :: b :: c :: d :: rest => a :: b :: c :: mark :: groupBack mark (d :: rest)
  | digits => digits

def group (f : CounterForm) (digits : List Char) : List Char :=
  match f.mark with
  | some mark => (groupBack mark digits.reverse).reverse
  | none => digits

/-- The least number of digits that take up some room with the marks between them. -/
def digitsFor (f : CounterForm) (room : Nat) : Nat :=
  if f.mark.isSome then room - (room - 1) / 4 else room

/-- An integer in a form. The sign counts towards the width. -/
def write (f : CounterForm) (i : Int) : List Char :=
  let sign := if i < 0 then ['-'] else f.plus
  let digits := Digits.ofNat i.natAbs
  let text := sign ++ f.group digits
  let missing := f.width - text.length
  let zeros (n : Nat) := List.replicate n '0'
  match f.filling with
  | .left => zeros missing ++ text
  | .right => text ++ zeros missing
  | .around => zeros (missing / 2) ++ text ++ zeros (missing - missing / 2)
  | .inside =>
    sign ++ f.group (List.leftpad (f.digitsFor (f.width - sign.length)) '0' digits)

/-- A form that has only a width writes what filling up with zeros writes. -/
theorem write_width (width : Nat) (i : Int) :
    write { width } i = Digits.padded width i := by
  cases i with
  | ofNat n =>
    have : ¬ ((n : Int) < 0) := by omega
    simp [write, group, digitsFor, Digits.padded, this]
  | negSucc n =>
    have : Int.negSucc n < 0 := Int.negSucc_lt_zero n
    simp [write, group, digitsFor, Digits.padded, this]

end CounterForm

end ModelData.Identifier
