import ModelData.Yaml.Document
import ModelData.Yaml.Alias
import ModelData.Yaml.Plan

/-!
Reading YAML text. The tree of nodes in a text is freed of aliases and merges and turned into
a value. A text that has no tree, an unknown tag, and a key that is a collection are
malformed; spellings of numbers and days that stand for nothing are misfits.
-/

namespace ModelData.Yaml

/-- Characters that may occur in a text. -/
def isReadable (c : Char) : Bool :=
  let n := c.toNat
  n = 0x09 || n = 0x0a || n = 0x0d || (0x20 ≤ n && n ≤ 0x7e) || n = 0x85
    || (0xa0 ≤ n && n ≤ 0xfffd) || 0x10000 ≤ n

/-- Makes line breaks uniform: a return with or without a line feed behind it, and the next
line character, become line feeds. -/
def uniformBreaks : List Char → List Char
  | '\r' :: '\n' :: rest => '\n' :: uniformBreaks rest
  | '\r' :: rest => '\n' :: uniformBreaks rest
  | '\u0085' :: rest => '\n' :: uniformBreaks rest
  | c :: rest => c :: uniformBreaks rest
  | [] => []

/-- A byte order mark at the start does not belong to the text. -/
def withoutOrderMark : List Char → List Char
  | '\ufeff' :: rest => rest
  | cs => cs

def read (text : List Char) : Except Fault Value :=
  if text.all isReadable then do
    let node ← readDocument (uniformBreaks (withoutOrderMark text))
    let (node, _) ← node.resolve []
    (node.merged.plan false).carryOut
  else .error .malformed

end ModelData.Yaml
