import ModelData.Text.Printable
import ModelData.Number.Digits

/-!
Texts quoted so that they can be told apart in a message. The quote is single unless the
text holds a single quote and no double one; backslashes, the quote in use, line breaks and
tabs are escaped, and so is every character that is not printed as it is.
-/

namespace ModelData.Source

/-- The quote that needs fewer escapes. -/
def quoteFor (text : List Char) : Char :=
  if text.contains '\'' && !text.contains '"' then '"' else '\''

def escapeCode (c : Char) : List Char :=
  if c.toNat < 0x100 then '\\' :: 'x' :: Digits.hex 2 c.toNat
  else if c.toNat < 0x10000 then '\\' :: 'u' :: Digits.hex 4 c.toNat
  else '\\' :: 'U' :: Digits.hex 8 c.toNat

def escape (quote c : Char) : List Char :=
  if c = quote ∨ c = '\\' then ['\\', c]
  else if c = '\n' then ['\\', 'n']
  else if c = '\r' then ['\\', 'r']
  else if c = '\t' then ['\\', 't']
  else if Printable.isPrintable c then [c]
  else escapeCode c

def quote (text : List Char) : List Char :=
  let q := quoteFor text
  q :: text.flatMap (escape q) ++ [q]

/-- Bytes are quoted as the characters of their codes; those beyond ASCII are escaped. -/
def quoteBytes (bytes : List UInt8) : List Char :=
  let text := bytes.map fun b => Char.ofNat b.toNat
  let q := quoteFor text
  'b' :: q :: text.flatMap (fun c => if c.toNat < 0x7f then escape q c else escapeCode c) ++ [q]

end ModelData.Source
