import ModelData.Yaml.Node

/-!
Blocks of lines. A mark with a header is followed by lines that stand further in than what is
around them. They are taken as they are, without their indentation, or line breaks between
them are folded into spaces; the header says what becomes of the breaks at the end.
-/

namespace ModelData.Yaml

/-- The header of a block of lines: whether lines are joined, how line breaks at its end are
kept, and its indentation if it is given. -/
structure BlockHeader where
  folds : Bool
  /-- All breaks at the end are kept, or none of them, or else one. -/
  keep : Option Bool
  indent : Option Nat

def readHeader? (folds : Bool) (cs : List Char) : Option BlockHeader :=
  let marks := cs.takeWhile (fun c => !endsWord [c])
  match marks with
  | [] => some ⟨folds, none, none⟩
  | [a] => (chomp? a).map (⟨folds, some ·, none⟩) <|> (width? a).map (⟨folds, none, some ·⟩)
  | [a, b] =>
    (do return ⟨folds, some (← chomp? a), some (← width? b)⟩)
      <|> (do return ⟨folds, some (← chomp? b), some (← width? a)⟩)
  | _ => none
where
  chomp? : Char → Option Bool
    | '+' => some true
    | '-' => some false
    | _ => none
  width? (c : Char) : Option Nat :=
    if '1' ≤ c && c ≤ '9' then some (c.toNat - '0'.toNat) else none

/-- The lines of a text with the breaks that end them; the last may have none. -/
def splitLines : List Char → List (List Char × Option Char)
  | [] => []
  | c :: rest =>
    if isBreak c then ([], some c) :: splitLines rest
    else match splitLines rest with
      | [] => [([c], none)]
      | (line, ending) :: lines => (c :: line, ending) :: lines

def leadingSpaces (line : List Char) : Nat :=
  (line.takeWhile (· = ' ')).length

/-- Whether a line of a block holds nothing but its indentation or less. -/
def isEmptyLine (indent : Nat) (line : List Char) : Bool :=
  line.length ≤ indent && line.all (· = ' ')

/-- Joins the lines of a block: `breaks` are those read since the last line with content, and
`loose` tells whether that line and the next may be folded into one. -/
def joinLines (header : BlockHeader) (indent : Nat) (ending : List Char) (loose : Bool)
    (breaks : List Char) : List (List Char × Option Char) → List Char
  | [] =>
    (if header.keep = some false then [] else ending)
      ++ (if header.keep = some true then breaks else [])
  | (line, br) :: rest =>
    if isEmptyLine indent line then
      joinLines header indent ending loose (breaks ++ br.toList) rest
    else
      let content := line.drop indent
      let tight := !(content.head?.any isGapChar)
      let joint :=
        if header.folds && ending = ['\n'] && loose && tight then
          (if breaks.isEmpty then [' '] else breaks)
        else ending ++ breaks
      joint ++ content ++ joinLines header indent br.toList tight [] rest
where
  isGapChar (c : Char) : Bool := c = ' ' || c = '\t'

/-- Reads a block of lines from behind its mark; its lines stand at the least column or
beyond, and it ends before the first line that does not. -/
def readBlockScalar (folds : Bool) (least : Nat) (c : Cursor) : Except Fault (Node × Cursor) :=
  let rest := c.rest
  let marks := rest.takeWhile (fun d => !endsWord [d])
  let tail := (rest.drop marks.length).dropWhile (· = ' ')
  let ignored := tail.takeWhile (fun d => !isBreak d)
  match readHeader? folds (rest.takeWhile (fun d => !isBreak d)) with
  | none => .error .malformed
  | some header =>
    if !ignored.isEmpty && ignored.head? ≠ some '#' then .error .malformed
    else
      let lines := splitLines ((tail.drop ignored.length).drop 1)
      let least := max least 1
      let blank := lines.takeWhile fun l => l.1.all (· = ' ')
      let indent := match header.indent with
        | some n => least + n - 1
        | none =>
          max least (max ((blank.map fun l => l.1.length).foldl max 0)
            (((lines.drop blank.length).head?.map fun l => leadingSpaces l.1).getD 0))
      let body := lines.takeWhile fun l =>
        isEmptyLine indent l.1 || indent ≤ leadingSpaces l.1
      let after := lines.drop body.length
      let left := after.flatMap fun l => l.1 ++ l.2.toList
      .ok (.scalar {} false (joinLines header indent [] false [] body),
        ⟨left, 0, c.line + body.length + 1, true⟩)

end ModelData.Yaml
