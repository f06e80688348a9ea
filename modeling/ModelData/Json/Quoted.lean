import ModelData.Number.Digits

/-!
Quoted texts of JSON. Only printable ASCII characters are written as they are; any other is
escaped by its code, one beyond the first plane by a pair of codes. Reading undoes every
escape and takes any character that is no control character as it is.
-/

namespace ModelData.Json

def escapeUnit (code : Nat) : List Char :=
  '\\' :: 'u' :: Digits.hex 4 code

/-- The two halves for a code beyond the first plane. -/
def highHalf (code : Nat) : Nat := 0xd800 + (code - 0x10000) / 0x400

def lowHalf (code : Nat) : Nat := 0xdc00 + (code - 0x10000) % 0x400

def escapeChar (c : Char) : List Char :=
  if c = '"' ∨ c = '\\' then ['\\', c]
  else if c = '\n' then ['\\', 'n']
  else if c = '\r' then ['\\', 'r']
  else if c = '\t' then ['\\', 't']
  else if c = '\x0c' then ['\\', 'f']
  else if c = '\x08' then ['\\', 'b']
  else if 0x20 ≤ c.toNat ∧ c.toNat < 0x7f then [c]
  else if c.toNat < 0x10000 then escapeUnit c.toNat
  else escapeUnit (highHalf c.toNat) ++ escapeUnit (lowHalf c.toNat)

def quote (s : List Char) : List Char :=
  '"' :: s.flatMap escapeChar ++ ['"']

/-- The character of a short escape. -/
def shortEscape? : Char → Option Char
  | '"' => some '"'
  | '\\' => some '\\'
  | '/' => some '/'
  | 'n' => some '\n'
  | 'r' => some '\r'
  | 't' => some '\t'
  | 'f' => some '\x0c'
  | 'b' => some '\x08'
  | _ => none

def isHigh (code : Nat) : Bool := 0xd800 ≤ code && code < 0xdc00

def isLow (code : Nat) : Bool := 0xdc00 ≤ code && code < 0xe000

def joinHalves (high low : Nat) : Char :=
  Char.ofNat (0x10000 + (high - 0xd800) * 0x400 + (low - 0xdc00))

/-- The character of one code or of a pair, and what follows; a lone half has none. -/
def readUnit? : List Char → Option (Char × List Char)
  | a :: b :: c :: d :: rest =>
    match Digits.read? 16 [a, b, c, d] with
    | none => none
    | some code =>
      if isHigh code then
        match rest with
        | '\\' :: 'u' :: e :: f :: g :: h :: rest =>
          match Digits.read? 16 [e, f, g, h] with
          | some low => if isLow low then some (joinHalves code low, rest) else none
          | none => none
        | _ => none
      else if isLow code then none
      else some (Char.ofNat code, rest)
  | _ => none

/-- Reads a text from behind its opening quote, and gives what follows the closing one. -/
def readText : Nat → List Char → Option (List Char × List Char)
  | 0, _ => none
  | _ + 1, '"' :: rest => some ([], rest)
  | steps + 1, '\\' :: 'u' :: rest => do
    let (c, rest) ← readUnit? rest
    let (s, rest) ← readText steps rest
    return (c :: s, rest)
  | steps + 1, '\\' :: e :: rest => do
    let c ← shortEscape? e
    let (s, rest) ← readText steps rest
    return (c :: s, rest)
  | steps + 1, c :: rest =>
    if c.toNat < 0x20 then none
    else do
      let (s, rest) ← readText steps rest
      return (c :: s, rest)
  | _, [] => none

end ModelData.Json
