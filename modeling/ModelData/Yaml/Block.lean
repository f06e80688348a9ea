import ModelData.Yaml.Flow
import ModelData.Yaml.Lines

/-!
Nodes outside brackets, where columns decide: the entries of a table and the dashes of a list
stand in one column, and what belongs to an entry stands further in, except that the dashes
of a list may stand in the column of its key. A key and its colon stand on one line.
-/

namespace ModelData.Yaml

/-- Enough steps for brackets that start here: going into a list takes four. -/
def flowSteps (c : Cursor) : Nat :=
  5 * c.rest.length + 8

/-- The content of a block node that is neither a list nor a table by its dashes or keys. Behind
a tag or an anchor there may be none before a colon. -/
def readContent (steps : Nat) (marked : Bool) (least : Nat) (c : Cursor) :
    Except Fault (Node × Cursor) :=
  match c.rest with
  | '[' :: _ => do
    let (items, after) ← readFlowItems (flowSteps c) (c.forward 1)
    return (.list {} items, after)
  | '\x7b' :: _ => do
    let (entries, after) ← readFlowEntries (flowSteps c) (c.forward 1)
    return (.table {} entries, after)
  | '*' :: _ => readAlias c
  | '|' :: _ => readBlockScalar false least (c.forward 1)
  | '>' :: _ => readBlockScalar true least (c.forward 1)
  | _ => if marked && c.atColon then .ok (.empty, c) else readScalar steps false least c

/-- Whether a node can stand at a place: it stands at the least column or beyond, or one column
before that, where the mark of a block of lines may stand, and dashes if the list is allowed
to. -/
def canStart (least : Nat) (dashesBefore : Bool) (c : Cursor) : Bool :=
  let early := (dashesBefore && c.atDash) || c.rest.head?.any (fun d => d = '|' || d = '>')
  !c.atStop && (least ≤ c.column || (early && c.column + 1 = least))

mutual

/-- Reads a node that starts at a mark. A list or a table can start only behind blanks or
behind a dash or question mark. -/
def readNode : Nat → (least : Nat) → (dashesBefore : Bool) → Cursor →
    Except Fault (Node × Cursor)
  | 0, _, _, _ => .error .malformed
  | steps + 1, least, dashesBefore, c =>
    if c.atDash then
      if c.fresh then do
        let (items, after) ← readItems steps c.column (c.column < least) c
        return (.list {} items, after)
      else .error .malformed
    else if c.atQuestion then
      if c.fresh then do
        let (entries, after) ← readEntries steps c.column c
        return (.table {} entries, after)
      else .error .malformed
    else do
      let (marks, inner) ← readMarks c
      let next := inner.skip
      if !marks.isEmpty && next.line ≠ c.line then
        if canStart least dashesBefore next then
          let (node, after) ← readNode steps least dashesBefore next
          return (← node.mark marks, after)
        else return (.emptyBehind marks, next)
      else if !marks.isEmpty && next.atStop then return (.emptyBehind marks, next)
      else
        let (content, after) ← readContent steps (!marks.isEmpty) least inner
        let node ← content.mark marks
        let colon := after.skipSpaces
        if colon.atColon && onOneLine c colon then
          if c.fresh then
            let (value, last) ← readBehind steps c.column (colon.forward 1)
            let (entries, last) ← readMoreEntries steps c.column last
            return (.table {} ((node, value) :: entries), last)
          else .error .malformed
        else return (node, after)

/-- Reads what stands behind a colon of an entry in a column. -/
def readBehind : Nat → (column : Nat) → Cursor → Except Fault (Node × Cursor)
  | 0, _, _ => .error .malformed
  | steps + 1, column, c =>
    let next := c.skip
    if canStart (column + 1) true next then readNode steps (column + 1) true next
    else .ok (.empty, next)

/-- Reads the entries of a table, the next of which starts here. -/
def readEntries : Nat → (column : Nat) → Cursor → Except Fault (List (Node × Node) × Cursor)
  | 0, _, _ => .error .malformed
  | steps + 1, column, c => do
    let (key, value, after) ← readEntry steps column c
    let (entries, last) ← readMoreEntries steps column after
    return ((key, value) :: entries, last)

/-- Reads an entry: a key with its colon on one line, or a key behind a question mark with
its colon, if any, on a line of its own. -/
def readEntry : Nat → (column : Nat) → Cursor → Except Fault (Node × Node × Cursor)
  | 0, _, _ => .error .malformed
  | steps + 1, column, c =>
    if c.atQuestion then do
      let next := (c.pastMark 1).skip
      let (key, after) ←
        if canStart (column + 1) true next then readNode steps (column + 1) true next
        else .ok (.empty, next)
      let colon := after.skip
      if colon.fresh && colon.column = column && colon.atColon then
        let (value, last) ← readBehind steps column (colon.pastMark 1)
        return (key, value, last)
      else return (key, .empty, colon)
    else do
      let (marks, inner) ← readMarks c
      let (content, after) ← readContent steps (!marks.isEmpty) (column + 1) inner
      let colon := after.skipSpaces
      if colon.atColon && onOneLine c colon then
        let (value, last) ← readBehind steps column (colon.forward 1)
        return (← content.mark marks, value, last)
      else .error .malformed

/-- Reads further entries of a table, if the next line goes on with one. -/
def readMoreEntries : Nat → (column : Nat) → Cursor →
    Except Fault (List (Node × Node) × Cursor)
  | 0, _, _ => .error .malformed
  | steps + 1, column, c =>
    let next := c.skip
    if next.atStop then .ok ([], next)
    else if !next.fresh then .error .malformed
    else if next.column < column then .ok ([], next)
    else if column < next.column || next.atDash then .error .malformed
    else readEntries steps column next

/-- Reads the items of a list, the next of which starts here with its dash. Where the dashes
stand in the column of a key, another key ends the list. -/
def readItems : Nat → (column : Nat) → (underKey : Bool) → Cursor →
    Except Fault (List Node × Cursor)
  | 0, _, _, _ => .error .malformed
  | steps + 1, column, underKey, c => do
    let next := (c.pastMark 1).skip
    let (item, after) ←
      if canStart (column + 1) false next then readNode steps (column + 1) false next
      else .ok (.empty, next)
    let next := after.skip
    if next.atStop then return ([item], next)
    else if !next.fresh then .error .malformed
    else if next.column < column then return ([item], next)
    else if column < next.column then .error .malformed
    else if next.atDash then do
      let (items, last) ← readItems steps column underKey next
      return (item :: items, last)
    else if underKey then return ([item], next)
    else .error .malformed

end

end ModelData.Yaml
