/-!
Decimal spellings of whole numbers. A natural number is written without leading zeros, an
integer with a minus sign in front when it is negative, and a counter is filled with zeros
between its sign and its digits. Reading a spelling back gives the number again.
-/

namespace ModelData.Digits

def ofNat (n : Nat) : List Char :=
  Nat.toDigits 10 n

def ofInt : Int → List Char
  | .ofNat n => ofNat n
  | .negSucc n => '-' :: ofNat (n + 1)

/-- The sign counts towards the width. -/
def padded (width : Nat) : Int → List Char
  | .ofNat n => List.leftpad width '0' (ofNat n)
  | .negSucc n => '-' :: List.leftpad (width - 1) '0' (ofNat (n + 1))

/-- Two digits or more. -/
def atLeastTwo (n : Nat) : List Char :=
  padded 2 n

def toNat (cs : List Char) : Nat :=
  Nat.ofDigitChars 10 cs 0

theorem toNat_ofNat (n : Nat) : toNat (ofNat n) = n :=
  Nat.ofDigitChars_ten_toDigits

theorem ofNat_ne_nil (n : Nat) : ofNat n ≠ [] :=
  Nat.toDigits_ne_nil

theorem isDigit_of_mem_ofNat {n : Nat} {c : Char} (h : c ∈ ofNat n) : c.isDigit :=
  Nat.isDigit_of_mem_toDigits (by decide) (by decide) h

theorem ofNat_injective {m n : Nat} (h : ofNat m = ofNat n) : m = n := by
  rw [← toNat_ofNat m, h, toNat_ofNat]

/-- The value of a digit in bases up to sixteen. -/
def digitValue? (c : Char) : Option Nat :=
  if '0' ≤ c ∧ c ≤ '9' then some (c.toNat - '0'.toNat)
  else if 'a' ≤ c ∧ c ≤ 'f' then some (c.toNat - 'a'.toNat + 10)
  else if 'A' ≤ c ∧ c ≤ 'F' then some (c.toNat - 'A'.toNat + 10)
  else none

/-- Reads digits of one base; refuses an empty spelling and any other character. -/
def read? (base : Nat) : List Char → Option Nat
  | [] => none
  | c :: cs => (c :: cs).foldlM (fun n d =>
      match digitValue? d with
      | some v => if v < base then some (n * base + v) else none
      | none => none) 0

/-- The lower-case digit of a value below sixteen. -/
def hexDigit (n : Nat) : Char :=
  Nat.digitChar (n % 16)

/-- The last `places` hexadecimal digits of a number, most significant first. -/
def hex : Nat → Nat → List Char
  | 0, _ => []
  | places + 1, n => hex places (n / 16) ++ [hexDigit n]

end ModelData.Digits
