import ModelData.Yaml.Cursor
import ModelData.Yaml.Fault

/-!
Reading scalars. A plain scalar goes on over lines that are indented far enough, up to a
comment, a colon before a blank, or a bracket or comma within brackets. Quoted scalars go on
to their closing quote. In all of them a single line break reads as a space, and of several
breaks the first is dropped.
-/

namespace ModelData.Yaml

/-- What a gap over one or more line breaks reads as. -/
def joinBreaks : List Char → List Char
  | [] => []
  | first :: more =>
    if first ≠ '\n' then first :: more
    else if more.isEmpty then [' '] else more

/-- Line breaks with the blanks around them, from a line break on: the breaks, and what
follows the last blank. A document mark at the start of a line ends them. -/
def readBreaks (isSpace : Char → Bool) : List Char → (column line : Nat) →
    List Char × Cursor
  | [], column, line => ([], ⟨[], column, line, true⟩)
  | c :: rest, column, line =>
    let here : Cursor := ⟨c :: rest, column, line, true⟩
    if here.atDocumentMark then ([], here)
    else if isBreak c then
      let (more, after) := readBreaks isSpace rest 0 (line + 1)
      (c :: more, after)
    else if isSpace c then readBreaks isSpace rest (column + 1) line
    else ([], here)

/-- Whether a plain scalar ends before a character. -/
def endsPlain (inFlow : Bool) (c : Char) (rest : List Char) : Bool :=
  c = ' ' || c = '\t' || isBreak c
    || (c = ':' && (endsWord rest || (inFlow && rest.head?.any (",[]\x7b\x7d".toList.contains ·))))
    || (inFlow && ",?[]\x7b\x7d".toList.contains c)

/-- The characters up to the next blank or mark. -/
def takeWord (inFlow : Bool) : List Char → List Char
  | [] => []
  | c :: rest => if endsPlain inFlow c rest then [] else c :: takeWord inFlow rest

/-- The gap behind a word: what it reads as, and where it ends. -/
def takeGap (c : Cursor) : List Char × Cursor :=
  let after := c.skipSpaces
  match after.rest with
  | b :: _ =>
    if isBreak b then
      let (breaks, next) := readBreaks (· = ' ') after.rest after.column after.line
      (joinBreaks breaks, next)
    else (c.rest.takeWhile (· = ' '), after)
  | [] => (c.rest.takeWhile (· = ' '), after)

/-- Reads a plain scalar word by word; the words of later lines have to stand at the least
column or beyond, unless within brackets. -/
def readPlain (inFlow : Bool) (least : Nat) : Nat → Cursor → List Char × Cursor
  | 0, c => ([], c)
  | steps + 1, c =>
    if c.rest.head? = some '#' then ([], c)
    else
      let word := takeWord inFlow c.rest
      if word.isEmpty then ([], c)
      else
        let (joint, next) := takeGap (c.forward word.length)
        if joint.isEmpty || next.atDocumentMark || (!inFlow && next.column < least) then
          (word, next)
        else
          let (more, last) := readPlain inFlow least steps next
          (if more.isEmpty then word else word ++ joint ++ more, last)

/-- Blanks inside quotes that may hold line breaks: what they read as, and where they end. A
document mark inside quotes is refused. -/
def readQuotedGap (c : Cursor) : Except Fault (List Char × Cursor) :=
  let isSpace (d : Char) := d = ' ' || d = '\t'
  let blanks := c.rest.takeWhile isSpace
  let after := c.forward blanks.length
  match after.rest with
  | b :: _ =>
    if isBreak b then
      let (breaks, next) := readBreaks isSpace after.rest after.column after.line
      if next.atDocumentMark then .error .malformed
      else .ok (joinBreaks breaks, { next with fresh := false })
    else .ok (blanks, after)
  | [] => .error .malformed

def startsGap (c : Char) : Bool :=
  c = ' ' || c = '\t' || isBreak c

/-- Reads a single-quoted scalar from behind its opening quote. -/
def readSingle : Nat → Cursor → Except Fault (List Char × Cursor)
  | 0, _ => .error .malformed
  | steps + 1, c =>
    match c.rest with
    | [] => .error .malformed
    | '\'' :: '\'' :: _ => do
      let (more, last) ← readSingle steps (c.forward 2)
      return ('\'' :: more, last)
    | '\'' :: _ => .ok ([], c.forward 1)
    | d :: _ =>
      if startsGap d then do
        let (gap, next) ← readQuotedGap c
        let (more, last) ← readSingle steps next
        return (gap ++ more, last)
      else do
        let (more, last) ← readSingle steps (c.forward 1)
        return (d :: more, last)

/-- The character of an escape that is a single letter. -/
def letterValue? : Char → Option Char
  | '0' => some '\x00'
  | 'a' => some '\x07'
  | 'b' => some '\x08'
  | 't' | '\t' => some '\t'
  | 'n' => some '\n'
  | 'v' => some '\x0b'
  | 'f' => some '\x0c'
  | 'r' => some '\r'
  | 'e' => some '\x1b'
  | ' ' => some ' '
  | '"' => some '"'
  | '\\' => some '\\'
  | '/' => some '/'
  | 'N' => some '\u0085'
  | '_' => some '\u00a0'
  | 'L' => some '\u2028'
  | 'P' => some '\u2029'
  | _ => none

/-- How many digits follow the letter of a numeric escape. -/
def codeLength? : Char → Option Nat
  | 'x' => some 2
  | 'u' => some 4
  | 'U' => some 8
  | _ => none

/-- The character of a code written in some hexadecimal digits. Codes beyond the last character
are misfits, the larger ones of another sort. -/
def codeChar (places : Nat) (cs : List Char) : Except Fault Char :=
  let digits := cs.take places
  if digits.length < places then .error .malformed
  else
    match Digits.read? 16 digits with
    | none => .error .malformed
    | some code =>
      if code.isValidChar then .ok (Char.ofNat code)
      else if 0x80000000 ≤ code then .error (.misfit .codeTooLarge)
      else if 0x110000 ≤ code then .error (.misfit .noCharacter)
      else .error .malformed

/-- Reads a double-quoted scalar from behind its opening quote. -/
def readDouble : Nat → Cursor → Except Fault (List Char × Cursor)
  | 0, _ => .error .malformed
  | steps + 1, c =>
    match c.rest with
    | [] => .error .malformed
    | '"' :: _ => .ok ([], c.forward 1)
    | ['\\'] => .error .malformed
    | '\\' :: e :: rest =>
      match letterValue? e, codeLength? e with
      | some d, _ => do
        let (more, last) ← readDouble steps (c.forward 2)
        return (d :: more, last)
      | none, some places => do
        let d ← codeChar places rest
        let (more, last) ← readDouble steps (c.forward (places + 2))
        return (d :: more, last)
      | none, none =>
        if isBreak e then
          let (breaks, next) :=
            readBreaks (fun d => d = ' ' || d = '\t') (e :: rest) (c.column + 1) c.line
          if next.atDocumentMark then .error .malformed
          else do
            let (more, last) ← readDouble steps { next with fresh := false }
            return (breaks.drop 1 ++ more, last)
        else .error .malformed
    | d :: _ =>
      if startsGap d then do
        let (gap, next) ← readQuotedGap c
        let (more, last) ← readDouble steps next
        return (gap ++ more, last)
      else do
        let (more, last) ← readDouble steps (c.forward 1)
        return (d :: more, last)

end ModelData.Yaml
