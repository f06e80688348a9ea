import ModelData.Yaml.Block

/-!
The one document of a text. Directives may stand in front of it, each on a line of its own
behind a percent sign: at most one names the version, which has to start with one; others
name handles of tags, each at most once, or mean nothing. Behind directives the mark of a
document's start is needed. Marks of its end may follow it, and nothing else.
-/

namespace ModelData.Yaml

/-- What directives have told so far. -/
structure Directives where
  hasVersion : Bool := false
  handles : List (List Char) := []

/-- Whether the line goes on with nothing but blanks and a comment. -/
def endsLine? (cs : List Char) : Bool :=
  match cs.dropWhile (· = ' ') with
  | [] => true
  | c :: _ => c = '#' || isBreak c

/-- Digits with at least one digit, and what follows. -/
def takeDigits? (cs : List Char) : Option (Nat × List Char) :=
  let digits := cs.takeWhile Char.isDigit
  if digits.isEmpty then none else some (Digits.toNat digits, cs.drop digits.length)

/-- A version of two numbers, of which the first has to be one. -/
def isVersion (cs : List Char) : Bool :=
  match takeDigits? (cs.dropWhile (· = ' ')) with
  | some (1, '.' :: rest) =>
    match takeDigits? rest with
    | some (_, after) => endsTag after && endsLine? after
    | none => false
  | _ => false

/-- A handle: a mark, or a word between two marks. -/
def takeHandle? : List Char → Option (List Char × List Char)
  | '!' :: rest =>
    let word := rest.takeWhile isWordChar
    match rest.drop word.length with
    | '!' :: after => some ('!' :: word ++ ['!'], after)
    | after => if word.isEmpty then some (['!'], after) else none
  | _ => none

/-- A handle with the start of a tag behind it. -/
def handle? (cs : List Char) : Option (List Char) := do
  let (handle, rest) ← takeHandle? (cs.dropWhile (· = ' '))
  if rest.head? ≠ some ' ' then none
  else
    let rest := rest.dropWhile (· = ' ')
    let start := rest.takeWhile isTagChar
    let after := rest.drop start.length
    if start.isEmpty || !endsTag after || !endsLine? after then none else some handle

/-- Reads the rest of a directive's line. -/
def Directives.add (d : Directives) (line : List Char) : Except Fault Directives :=
  let name := line.takeWhile isWordChar
  let rest := line.drop name.length
  if name.isEmpty || !endsTag rest then .error .malformed
  else if name = "YAML".toList then
    if !d.hasVersion && isVersion rest then .ok { d with hasVersion := true }
    else .error .malformed
  else if name = "TAG".toList then
    match handle? rest with
    | some handle =>
      if d.handles.contains handle then .error .malformed
      else .ok { d with handles := handle :: d.handles }
    | none => .error .malformed
  else .ok d

/-- Reads directives up to the next thing in the text. -/
def readDirectives : Nat → Directives → Cursor → Except Fault (Bool × Cursor)
  | 0, _, c => .ok (false, c)
  | steps + 1, d, c =>
    match c.column, c.rest with
    | 0, '%' :: rest => do
      let line := rest.takeWhile fun b => !isBreak b
      let (_, last) ← readDirectives steps (← d.add line) (c.forward (line.length + 1)).skip
      return (true, last)
    | _, _ => .ok (false, c)

/-- Goes on over marks that end the document. -/
def skipEndMarks : Nat → Cursor → Cursor
  | 0, c => c
  | steps + 1, c =>
    let next := c.skip
    if next.column = 0 && next.hasMark Cursor.endMark then skipEndMarks steps (next.forward 3)
    else next

/-- Reads the one document of a text; an empty one holds an empty node. -/
def readDocument (text : List Char) : Except Fault Node := do
  let steps := 4 * text.length + 8
  let (directed, first) ← readDirectives text.length {} (Cursor.start text).skip
  if first.atEnd && !directed then return .empty
  else
    let marked := first.column = 0 && first.hasMark Cursor.startMark
    let place := if marked then (first.forward 3).skip else first
    let (node, after) ←
      if directed && !marked then .error .malformed
      else if marked && place.atStop then .ok (.empty, place)
      else if place.atStop then .error .malformed
      else readNode steps 0 false place
    if (skipEndMarks text.length after).atEnd then return node else .error .malformed

end ModelData.Yaml
