/-!
Bytes written with sixty-four characters, six bits each. Three bytes take four characters;
what is missing at the end is filled up with equals signs. Long texts are cut into lines.
-/

namespace ModelData.Base64

def alphabet : List Char :=
  "ABCDEFGHIJKLMNOPQRSTUVWXYZabcdefghijklmnopqrstuvwxyz0123456789+/".toList

def digit (n : Nat) : Char :=
  alphabet.getD (n % 64) 'A'

def encodeLine : List UInt8 → List Char
  | a :: b :: c :: rest =>
    let n := a.toNat * 65536 + b.toNat * 256 + c.toNat
    digit (n / 262144) :: digit (n / 4096) :: digit (n / 64) :: digit n :: encodeLine rest
  | [a, b] =>
    let n := a.toNat * 1024 + b.toNat * 4
    [digit (n / 4096), digit (n / 64), digit n, '=']
  | [a] =>
    let n := a.toNat * 16
    [digit (n / 64), digit n, '=', '=']
  | [] => []

/-- The bytes of one line. -/
def lineBytes : Nat := 57

/-- Cuts into pieces of a line each, at most `count` of them. -/
def lines : Nat → List UInt8 → List (List Char)
  | 0, _ => []
  | _ + 1, [] => []
  | count + 1, bytes => encodeLine (bytes.take lineBytes) :: lines count (bytes.drop lineBytes)

def encodeLines (bytes : List UInt8) : List (List Char) :=
  lines bytes.length bytes

def value? (c : Char) : Option Nat :=
  alphabet.findIdx? (· = c)

/-- The bytes of a group that is filled up. -/
def shortGroup : List Nat → List UInt8
  | [a, b] => [((a * 64 + b) / 16).toUInt8]
  | [a, b, c] =>
    let n := (a * 64 + b) * 64 + c
    [(n / 1024).toUInt8, (n / 4).toUInt8]
  | _ => []

/-- Reads groups of four characters, up to one that is filled up. Of the group at hand the
values are known, and how many equals signs have followed the last of them; signs before
there are two values are passed over, and so are characters outside the alphabet. -/
def decodeGroups (group : List Nat) (signs : Nat) : List Char → Option (List UInt8)
  | [] => if group.isEmpty then some [] else none
  | c :: rest =>
    if c = '=' then
      if group.length < 2 then decodeGroups group signs rest
      else if 4 ≤ group.length + signs + 1 then some (shortGroup group)
      else decodeGroups group (signs + 1) rest
    else
      match value? c, group with
      | none, _ => decodeGroups group signs rest
      | some d, [x, y, z] => do
        let n := ((x * 64 + y) * 64 + z) * 64 + d
        return (n / 65536).toUInt8 :: (n / 256).toUInt8 :: n.toUInt8 :: (← decodeGroups [] 0 rest)
      | some d, group => decodeGroups (group ++ [d]) 0 rest

/-- Only ASCII can be read. -/
def decode? (text : List Char) : Option (List UInt8) :=
  if text.all fun c => c.toNat < 128 then decodeGroups [] 0 text else none

end ModelData.Base64
