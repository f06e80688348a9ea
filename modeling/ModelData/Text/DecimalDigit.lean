import ModelData.Number.Digits

/-!
Decimal digits of all scripts. Every script that counts in tens has its ten digits in a row,
from zero up, so a digit is told by where its row starts.
-/

namespace ModelData.DecimalDigit

/-- Where the rows of digits beyond ASCII start. -/
def rows : List Nat :=
  [0x0660, 0x06f0, 0x07c0, 0x0966, 0x09e6, 0x0a66, 0x0ae6, 0x0b66, 0x0be6, 0x0c66, 0x0ce6,
    0x0d66, 0x0de6, 0x0e50, 0x0ed0, 0x0f20, 0x1040, 0x1090, 0x17e0, 0x1810, 0x1946, 0x19d0,
    0x1a80, 0x1a90, 0x1b50, 0x1bb0, 0x1c40, 0x1c50, 0xa620, 0xa8d0, 0xa900, 0xa9d0, 0xa9f0,
    0xaa50, 0xabf0, 0xff10, 0x104a0, 0x10d30, 0x11066, 0x110f0, 0x11136, 0x111d0, 0x112f0,
    0x11450, 0x114d0, 0x11650, 0x116c0, 0x11730, 0x118e0, 0x11950, 0x11c50, 0x11d50, 0x11da0,
    0x16a60, 0x16ac0, 0x16b50, 0x1d7ce, 0x1d7d8, 0x1d7e2, 0x1d7ec, 0x1d7f6, 0x1e140, 0x1e2f0,
    0x1e950, 0x1fbf0]

/-- The value of a digit. -/
def value? (c : Char) : Option Nat :=
  if c.isDigit then some (c.toNat - '0'.toNat)
  else (rows.find? fun row => row ≤ c.toNat && c.toNat < row + 10).map (c.toNat - ·)

def isDecimal (c : Char) : Bool :=
  (value? c).isSome

/-- The number that digits spell, of whatever scripts they are. -/
def number (digits : List Char) : Nat :=
  digits.foldl (fun n c => n * 10 + (value? c).getD 0) 0

theorem isDecimal_of_isDigit {c : Char} (h : c.isDigit) : isDecimal c := by
  simp [isDecimal, value?, h]

/-- Digits of ASCII spell the same number as ever. -/
theorem number_eq_toNat {digits : List Char} (h : ∀ c ∈ digits, c.isDigit) :
    number digits = Digits.toNat digits := by
  suffices ∀ n, digits.foldl (fun n c => n * 10 + (value? c).getD 0) n
      = Nat.ofDigitChars 10 digits n from this 0
  induction digits with
  | nil => intro n; simp
  | cons c digits ih =>
    intro n
    have hc := h c (by simp)
    rw [List.foldl_cons, ih (fun d hd => h d (by simp [hd])), Nat.ofDigitChars_cons]
    simp [value?, hc, Nat.mul_comm]

theorem number_ofNat (n : Nat) : number (Digits.ofNat n) = n := by
  rw [number_eq_toNat fun _ h => Digits.isDigit_of_mem_ofNat h, Digits.toNat_ofNat]

theorem takeWhile_ofNat (n : Nat) : (Digits.ofNat n).takeWhile isDecimal = Digits.ofNat n := by
  have h : ∀ c ∈ Digits.ofNat n, isDecimal c := fun c hc =>
    isDecimal_of_isDigit (Digits.isDigit_of_mem_ofNat hc)
  have all : (Digits.ofNat n ++ []).takeWhile isDecimal = Digits.ofNat n ++ [].takeWhile isDecimal :=
    List.takeWhile_append_of_pos h
  simpa using all

theorem dropWhile_ofNat (n : Nat) : (Digits.ofNat n).dropWhile isDecimal = [] := by
  have h := List.takeWhile_append_dropWhile (p := isDecimal) (l := Digits.ofNat n)
  rw [takeWhile_ofNat] at h
  simpa using h

end ModelData.DecimalDigit
