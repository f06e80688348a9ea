/-!
Text in bytes. A byte order mark of two bytes tells that the text is in units of two bytes and
in which order they stand; without it the text is in UTF-8. The mark stays part of the text.
-/

namespace ModelData.Encoding

/-- The units of two bytes, and none if a byte is left over. -/
def units? (littleFirst : Bool) : List UInt8 → Option (List Nat)
  | [] => some []
  | [_] => none
  | a :: b :: rest => do
    let more ← units? littleFirst rest
    return (if littleFirst then b.toNat * 256 + a.toNat else a.toNat * 256 + b.toNat) :: more

def isHighHalf (u : Nat) : Bool :=
  0xd800 ≤ u && u < 0xdc00

def isLowHalf (u : Nat) : Bool :=
  0xdc00 ≤ u && u < 0xe000

/-- The characters of units; halves have to come in pairs. -/
def chars? : List Nat → Option (List Char)
  | [] => some []
  | [u] => if isHighHalf u || isLowHalf u then none else some [Char.ofNat u]
  | u :: v :: rest =>
    if isHighHalf u then
      if isLowHalf v then
        (chars? rest).map (Char.ofNat (0x10000 + (u - 0xd800) * 0x400 + (v - 0xdc00)) :: ·)
      else none
    else if isLowHalf u then none
    else (chars? (v :: rest)).map (Char.ofNat u :: ·)

def decode? (bytes : List UInt8) : Option (List Char) :=
  match bytes.take 2 with
  | [a, b] =>
    if a = 0xff ∧ b = 0xfe then units? true bytes >>= chars?
    else if a = 0xfe ∧ b = 0xff then units? false bytes >>= chars?
    else utf8?
  | _ => utf8?
where
  utf8? : Option (List Char) :=
    (String.fromUTF8? (ByteArray.mk bytes.toArray)).map String.toList

end ModelData.Encoding
