import ModelData.Yaml.Plain

/-!
How a text is written as a scalar. It is written plain where that reads back as the same
text; otherwise in single quotes, where only the quote is doubled; and in double quotes with
escapes when it holds characters beyond printable ASCII or a space next to a line break. A
line that has grown past eighty columns is folded at the next single space.
-/

namespace ModelData.Yaml

/-- The column after which a line is folded. -/
def lineWidth : Nat := 80

def spaces (n : Nat) : List Char :=
  List.replicate n ' '

def isOrdinary (c : Char) : Bool :=
  c = '\n' || (' ' ≤ c && c ≤ '~')

def isSpaceOrBreak (c : Char) : Bool :=
  c = ' ' || c = '\n'

def startsBlank : List Char → Bool
  | [] => true
  | c :: _ => isSpaceOrBreak c

/-- The characters that end a line. -/
def endsLine (c : Char) : Bool :=
  c = '\n' || c = '\u0085' || c = '\u2028' || c = '\u2029'

/-- Whether a space and a line break are neighbours, in either order. -/
def hasSpaceAtBreak : List Char → Bool
  | c :: d :: rest =>
    (c = ' ' && d = '\n') || (c = '\n' && d = ' ') || hasSpaceAtBreak (d :: rest)
  | _ => false

/-- Characters that no plain scalar starts with. -/
def indicators : List Char := "#,[]{}&*!|>'\"%@`".toList

/-- Marks inside a text that a reader would take for the end of a plain scalar. -/
def hasInnerMark : List Char → Bool
  | c :: d :: rest =>
    (c = ':' && isSpaceOrBreak d) || (isSpaceOrBreak c && d = '#') || hasInnerMark (d :: rest)
  | [c] => c = ':'
  | [] => false

def startsWithMark (cs : List Char) : Bool :=
  ['-', '-', '-'].isPrefixOf cs || ['.', '.', '.'].isPrefixOf cs ||
    match cs with
    | [] => false
    | c :: rest =>
      indicators.contains c || ((c = '?' || c = ':' || c = '-') && startsBlank rest)

def allowsPlain (cs : List Char) : Bool :=
  plainKind cs = .text && cs.all isOrdinary && !cs.contains '\n'
    && cs.head? ≠ some ' ' && cs.getLast? ≠ some ' '
    && !startsWithMark cs && !hasInnerMark cs

def allowsSingle (cs : List Char) : Bool :=
  cs.all isOrdinary && !hasSpaceAtBreak cs

inductive Style where
  | plain
  | single
  | double
deriving DecidableEq

/-- A key has to stay on its line, so one with a line break is written in double quotes. -/
def styleFor (isKey : Bool) (cs : List Char) : Style :=
  if allowsPlain cs then .plain
  else if allowsSingle cs && !(isKey && cs.contains '\n') then .single
  else .double

/-- Whether a text goes on with something other than a space. -/
def goesOn : List Char → Bool
  | [] => false
  | c :: _ => c ≠ ' '

/-- A line break and the indentation of the line it starts. -/
def newLine (indent : Nat) : List Char :=
  '\n' :: spaces indent

/-- Writes the rest of a plain scalar from a column on. -/
def foldPlain (folds : Bool) (indent : Nat) : (afterSpace : Bool) → (column : Nat) →
    List Char → List Char
  | _, _, [] => []
  | afterSpace, column, c :: rest =>
    if folds && c = ' ' && !afterSpace && lineWidth < column && goesOn rest then
      newLine indent ++ foldPlain folds indent false indent rest
    else c :: foldPlain folds indent (c = ' ') (column + 1) rest

/-- What stands before a place in a single-quoted scalar. -/
inductive Before where
  | start
  | space
  | lineBreak
  | other
deriving DecidableEq

/-- Writes the rest of a single-quoted scalar. A run of line breaks is written with one more,
and the line after it is indented. -/
def foldSingle (folds : Bool) (indent : Nat) : Before → (column : Nat) → List Char → List Char
  | _, _, [] => []
  | before, column, c :: rest =>
    if c = '\n' then
      (if before = .lineBreak then ['\n'] else ['\n', '\n'])
        ++ (if rest.head? = some '\n' then [] else spaces indent)
        ++ foldSingle folds indent .lineBreak indent rest
    else if c = '\'' then
      '\'' :: '\'' :: foldSingle folds indent .other (column + 2) rest
    else if c = ' ' then
      if folds && (before = .other || before = .lineBreak) && lineWidth < column && goesOn rest then
        newLine indent ++ foldSingle folds indent .other indent rest
      else c :: foldSingle folds indent .space (column + 1) rest
    else c :: foldSingle folds indent .other (column + 1) rest

/-- Escapes that are a single letter. -/
def letterEscapes : List (Char × Char) :=
  [('\x00', '0'), ('\x07', 'a'), ('\x08', 'b'), ('\t', 't'), ('\n', 'n'), ('\x0b', 'v'),
    ('\x0c', 'f'), ('\r', 'r'), ('\x1b', 'e'), ('"', '"'), ('\\', '\\'), ('\u0085', 'N'),
    ('\u00a0', '_'), ('\u2028', 'L'), ('\u2029', 'P')]

def upperHex (places n : Nat) : List Char :=
  (Digits.hex places n).map Char.toUpper

/-- The escape of a character in double quotes, if it is not written as it is. -/
def escape? (c : Char) : Option (List Char) :=
  match letterEscapes.lookup c with
  | some letter => some ['\\', letter]
  | none =>
    if ' ' ≤ c && c ≤ '~' then none
    else if c.toNat < 0x100 then some ('\\' :: 'x' :: upperHex 2 c.toNat)
    else if c.toNat < 0x10000 then some ('\\' :: 'u' :: upperHex 4 c.toNat)
    else some ('\\' :: 'U' :: upperHex 8 c.toNat)

/-- A line break inside double quotes, and a backslash where the next line starts with a
space; with it the column that is reached. -/
def doubleBreak (indent : Nat) (rest : List Char) : List Char × Nat :=
  if rest.head? = some ' ' then ('\\' :: newLine indent ++ ['\\'], indent + 1)
  else ('\\' :: newLine indent, indent)

/-- Writes the rest of a double-quoted scalar. It may be folded before a space, before the
character behind an escape, and after an escape; never at its first or last character. -/
def foldDouble (folds : Bool) (indent : Nat) : (first afterEscape : Bool) → (column : Nat) →
    List Char → List Char
  | _, _, _, [] => []
  | first, afterEscape, column, c :: rest =>
    let inner := folds && !first && !rest.isEmpty
    match escape? c with
    | some text =>
      let reached := column + text.length
      if inner && lineWidth + 1 < reached then
        let (lineBreak, reached) := doubleBreak indent rest
        text ++ lineBreak ++ foldDouble folds indent false true reached rest
      else text ++ foldDouble folds indent false true reached rest
    | none =>
      if inner && (c = ' ' || afterEscape) && lineWidth < column then
        let (lineBreak, reached) := doubleBreak indent (c :: rest)
        lineBreak ++ c :: foldDouble folds indent false false (reached + 1) rest
      else c :: foldDouble folds indent false false (column + 1) rest

/-- Writes a text; the column is the one where its first character or its quote goes. -/
def writeText (isKey : Bool) (indent column : Nat) (cs : List Char) : List Char :=
  match styleFor isKey cs with
  | .plain => foldPlain (!isKey) indent false column cs
  | .single => '\'' :: foldSingle (!isKey) indent .start (column + 1) cs ++ ['\'']
  | .double => '"' :: foldDouble (!isKey) indent true false (column + 1) cs ++ ['"']

end ModelData.Yaml
