import ModelData.Yaml.Node
import ModelData.Yaml.Scalar

/-!
Nodes within brackets. They are separated by commas, and line breaks and columns do not
matter, except that a key and its colon stand on one line unless a question mark is in front
of the key.
-/

namespace ModelData.Yaml

/-- The number of characters within which the colon of a key has to follow. -/
def keySpan : Nat := 1024

/-- Whether a colon at one place can belong to a key that started at another. -/
def onOneLine (first last : Cursor) : Bool :=
  first.line = last.line && last.column - first.column ≤ keySpan

/-- Whether a plain scalar can start here. -/
def startsPlain (inFlow : Bool) : List Char → Bool
  | [] => false
  | c :: rest =>
    !(endsWord [c] || "-?:,[]\x7b\x7d#&*!|>'\"%@`".toList.contains c)
      || (!endsWord rest && (c = '-' || (!inFlow && (c = '?' || c = ':'))))

/-- A scalar that is not a block of lines; the steps bound its characters. -/
def readScalar (steps : Nat) (inFlow : Bool) (least : Nat) (c : Cursor) :
    Except Fault (Node × Cursor) :=
  match c.rest with
  | '\'' :: _ => do
    let (text, after) ← readSingle steps (c.forward 1)
    return (.scalar {} false text, after)
  | '"' :: _ => do
    let (text, after) ← readDouble steps (c.forward 1)
    return (.scalar {} false text, after)
  | cs =>
    if startsPlain inFlow cs then
      let (text, after) := readPlain inFlow least steps c
      .ok (.scalar {} true text, after)
    else .error .malformed

/-- Reads an alias. -/
def readAlias (c : Cursor) : Except Fault (Node × Cursor) := do
  let (name, after) ← readAnchorName c
  return (.alias name, after)

/-- Goes on to the next mark within brackets; there has to be one. -/
def skipInFlow (c : Cursor) : Except Fault Cursor :=
  let after := c.skip
  if after.atStop then .error .malformed else .ok after

/-- Whether brackets are closed or an item ends here, so that nothing stands here. -/
def atFlowEnd (c : Cursor) : Bool :=
  match c.rest with
  | ',' :: _ | ']' :: _ | '\x7d' :: _ => true
  | _ => false

mutual

/-- Reads a node within brackets. -/
def readFlowNode : Nat → Cursor → Except Fault (Node × Cursor)
  | 0, _ => .error .malformed
  | steps + 1, c => do
    let (marks, c) ← readMarks c
    let c ← skipInFlow c
    if !marks.isEmpty && (atFlowEnd c || c.rest.head? = some ':') then
      return (.emptyBehind marks, c)
    else if !marks.isEmpty && c.atMarks then
      let (node, after) ← readFlowNode steps c
      return (← node.mark marks, after)
    else
      let (node, after) ← match c.rest with
        | '[' :: _ =>
          (readFlowItems steps (c.forward 1)).map fun (items, after) => (.list {} items, after)
        | '\x7b' :: _ =>
          (readFlowEntries steps (c.forward 1)).map fun (entries, after) =>
            (.table {} entries, after)
        | '*' :: _ => readAlias c
        | _ => readScalar steps true 0 c
      return (← node.mark marks, after)

/-- Reads what stands behind a colon, and goes on to the next mark. -/
def readFlowValue : Nat → Cursor → Except Fault (Node × Cursor)
  | 0, _ => .error .malformed
  | steps + 1, colon => do
    let next ← skipInFlow (colon.forward 1)
    if atFlowEnd next then return (.empty, next)
    else
      let (value, after) ← readFlowNode steps next
      return (value, ← skipInFlow after)

/-- Reads a key and, behind a colon on its line, what it stands for. A key behind a question
mark may be missing, and its colon may stand on another line. -/
def readFlowEntry : Nat → Cursor → Except Fault (Node × Option Node × Cursor)
  | 0, _ => .error .malformed
  | steps + 1, c => do
    if c.rest.head? = some '?' then
      let next ← skipInFlow (c.forward 1)
      let (key, after) ←
        if atFlowEnd next || next.rest.head? = some ':' then .ok (.empty, next)
        else readFlowNode steps next
      let colon ← skipInFlow after
      if colon.rest.head? = some ':' then
        let (value, last) ← readFlowValue steps colon
        return (key, some value, last)
      else return (key, some .empty, colon)
    else
      let (key, after) ← readFlowNode steps c
      let colon ← skipInFlow after
      if colon.rest.head? = some ':' then
        if onOneLine c colon then
          let (value, last) ← readFlowValue steps colon
          return (key, some value, last)
        else .error .malformed
      else return (key, none, colon)

/-- Reads the items of a list up to its bracket; an entry counts as a table of its own. -/
def readFlowItems : Nat → Cursor → Except Fault (List Node × Cursor)
  | 0, _ => .error .malformed
  | steps + 1, c => do
    let c ← skipInFlow c
    if c.rest.head? = some ']' then return ([], c.forward 1)
    else
      let (key, value, after) ← readFlowEntry steps c
      let item := match value with
        | some value => .table {} [(key, value)]
        | none => key
      match after.rest with
      | ',' :: _ => do
        let (items, last) ← readFlowItems steps (after.forward 1)
        return (item :: items, last)
      | ']' :: _ => return ([item], after.forward 1)
      | _ => .error .malformed

/-- Reads the entries of a table up to its brace. -/
def readFlowEntries : Nat → Cursor → Except Fault (List (Node × Node) × Cursor)
  | 0, _ => .error .malformed
  | steps + 1, c => do
    let c ← skipInFlow c
    if c.rest.head? = some '\x7d' then return ([], c.forward 1)
    else
      let (key, value, after) ← readFlowEntry steps c
      let entry := (key, value.getD .empty)
      match after.rest with
      | ',' :: _ => do
        let (entries, last) ← readFlowEntries steps (after.forward 1)
        return (entry :: entries, last)
      | '\x7d' :: _ => return ([entry], after.forward 1)
      | _ => .error .malformed

end

end ModelData.Yaml
