/-!
Places in a text of lines. A cursor knows what is left of the text, the column and the line
it is at, and whether only blanks stand before it on its line. Line breaks have been made
uniform before; two rarer separators count as breaks as well and are kept.
-/

namespace ModelData.Yaml

structure Cursor where
  rest : List Char
  column : Nat
  line : Nat
  fresh : Bool
deriving DecidableEq

def isBreak (c : Char) : Bool :=
  c = '\n' || c = '\u2028' || c = '\u2029'

/-- Whether a text ends or goes on with a blank, a tab or a line break. -/
def endsWord : List Char → Bool
  | [] => true
  | c :: _ => c = ' ' || c = '\t' || isBreak c

namespace Cursor

def start (text : List Char) : Cursor :=
  ⟨text, 0, 0, true⟩

/-- Goes on by some characters of the line. -/
def forward (n : Nat) (c : Cursor) : Cursor :=
  ⟨c.rest.drop n, c.column + n, c.line, false⟩

/-- Goes on over a mark behind which a collection may start on the same line. -/
def pastMark (n : Nat) (c : Cursor) : Cursor :=
  { c.forward n with fresh := true }

def atEnd (c : Cursor) : Bool :=
  c.rest.isEmpty

/-- Goes on over blanks, comments and line breaks. -/
def skipFrom (inComment : Bool) : List Char → (column line : Nat) → (fresh : Bool) → Cursor
  | [], column, line, fresh => ⟨[], column, line, fresh⟩
  | c :: rest, column, line, fresh =>
    if isBreak c then skipFrom false rest 0 (line + 1) true
    else if inComment || c = '#' then skipFrom true rest (column + 1) line fresh
    else if c = ' ' then skipFrom false rest (column + 1) line fresh
    else ⟨c :: rest, column, line, fresh⟩

def skip (c : Cursor) : Cursor :=
  skipFrom false c.rest c.column c.line c.fresh

/-- Goes on over blanks of the line. -/
def skipSpaces (c : Cursor) : Cursor :=
  let n := (c.rest.takeWhile (· = ' ')).length
  ⟨c.rest.drop n, c.column + n, c.line, c.fresh⟩

/-- Whether a mark stands here with nothing but blanks right behind it. -/
def hasMark (mark : List Char) (c : Cursor) : Bool :=
  mark.isPrefixOf c.rest && endsWord (c.rest.drop mark.length)

def startMark : List Char := ['-', '-', '-']

def endMark : List Char := ['.', '.', '.']

/-- Whether a document starts or ends here. -/
def atDocumentMark (c : Cursor) : Bool :=
  c.column = 0 && (c.hasMark startMark || c.hasMark endMark)

def atDash (c : Cursor) : Bool :=
  c.hasMark ['-']

def atQuestion (c : Cursor) : Bool :=
  c.hasMark ['?']

def atColon (c : Cursor) : Bool :=
  c.hasMark [':']

/-- The end of the text or of the document. -/
def atStop (c : Cursor) : Bool :=
  c.atEnd || c.atDocumentMark

end Cursor

end ModelData.Yaml
