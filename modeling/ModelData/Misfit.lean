import ModelData.Value.Text

/-!
Why a value does not fit where it was put: it is of the wrong kind, it is out of range, or it
lacks an operation. Each cause has one message.
-/

namespace ModelData

inductive Misfit where
  -- parts of elements
  | scalarOf (k : Kind)
  | floatOf (k : Kind)
  | floatOutOfRange (source : String)
  | floatNotFinite (source : String)
  | textAsItems (e : ElementKind)
  | memberOf (k : Kind)
  | memberNotFinite (source : String)
  | mixedMembers (names : List String)
  | tupleItemOf (k : Kind)
  | arrayItemOf (k : Kind)
  | nameFor (k : Kind)
  | entryOf (k : Kind)
  | unsupportedElement (k : Kind)
  -- operations on values
  | unhashable (k : Kind)
  | notIterable (k : Kind)
  | notContainer (k : Kind)
  | bytesContainer
  | noField (k : Kind)
  | fieldOfList (k : Kind)
  | noMethod (k : Kind) (method : String)
  | notCallable (k : Kind)
  | notWhole (k : Kind)
  | joinItem (index : Nat) (k : Kind)
  | notOrdered (smaller larger : Kind)
  | momentsApart
  | momentWithDate
  | repeatCount (k : Kind)
  | countTooLarge
  | textTooLong
  | bytesTooLong
  | noFloat
  | addedTo (k : Kind)
  | operands (symbol : String) (left right : Kind)
  | keyword (name : String)
  | keywordTwice (name : String)
  | keywordNotText
  | keywordsOf (k : Kind)
  -- counters
  | counterSpec (spec : String) (k : Kind)
  | counterTooWide
  | counterMarks
  | counterPlaces
  | counterNoPlaces
  | counterNegativeZero
  | counterCode (k : Kind)
  | counterOf (k : Kind)
  -- reading and writing text
  | notStored (k : Kind)
  | keyOf (k : Kind)
  | notInteger (base : Nat) (text : String)
  | notFloat (text : String)
  | notFlag (text : String)
  | noFirstCharacter
  | noCharacter
  | codeTooLarge
  | date (f : Date.Fault)
  | moment (f : Moment.Fault)
  | zeroInPath
  -- functions given by a caller
  | refused (text : String)
deriving DecidableEq

namespace Misfit

/-- How a value of some kinds is asked for a field by name, where that is refused. -/
def fieldMessage (k : Kind) : String :=
  match k with
  | .text => "string indices must be integers, not 'str'"
  | .bytes => "byte indices must be integers or slices, not str"
  | k => k.name ++ " indices must be integers or slices, not str"

/-- How an integer is refused as the end of a sequence. -/
def additionMessage (k : Kind) : String :=
  match k with
  | .bytes => "can't concat int to bytes"
  | k => "can only concatenate " ++ k.name ++ " (not \"int\") to " ++ k.name

def quotedText (text : String) : String :=
  String.ofList (Source.quote text.toList)

def message : Misfit → String
  | .scalarOf k => "ScalarConstant holds str or int, got " ++ k.name
  | .floatOf k => "FloatConstant holds a number, got " ++ k.name
  | .floatOutOfRange source => "FloatConstant out of range: " ++ source
  | .floatNotFinite source => "FloatConstant must be finite, got " ++ source
  | .textAsItems e => e.name ++ " items must be a collection, not a single string"
  | .memberOf k => "Unsupported set item type: " ++ k.name
  | .memberNotFinite source => "Set items must be finite, got " ++ source
  | .mixedMembers names => "Set mixes raw value kinds: " ++ ", ".intercalate names
  | .tupleItemOf k => "Tuple items must be Elements, got " ++ k.name
  | .arrayItemOf k => "IndexedArray items must be NamedElements, got " ++ k.name
  | .nameFor k => "NamedElement wraps an Element, got " ++ k.name
  | .entryOf k => "Expected NamedElement, got " ++ k.name
  | .unsupportedElement k => "Unsupported Element type: " ++ k.quoted
  | .unhashable k => "unhashable type: '" ++ k.operandName ++ "'"
  | .notIterable k => "'" ++ k.operandName ++ "' object is not iterable"
  | .notContainer k => "argument of type '" ++ k.operandName ++ "' is not iterable"
  | .bytesContainer => "a bytes-like object is required, not 'str'"
  | .noField k => "'" ++ k.operandName ++ "' object is not subscriptable"
  | .fieldOfList k => fieldMessage k
  | .noMethod k method => "'" ++ k.operandName ++ "' object has no attribute '" ++ method ++ "'"
  | .notCallable k => "'" ++ k.operandName ++ "' object is not callable"
  | .notWhole k => "'" ++ k.operandName ++ "' object cannot be interpreted as an integer"
  | .joinItem index k =>
    "sequence item " ++ toString index ++ ": expected str instance, " ++ k.operandName ++ " found"
  | .notOrdered smaller larger =>
    "'<' not supported between instances of '" ++ smaller.operandName ++ "' and '"
      ++ larger.operandName ++ "'"
  | .momentsApart => "can't compare offset-naive and offset-aware datetimes"
  | .momentWithDate => "can't compare datetime.datetime to datetime.date"
  | .repeatCount k => "can't multiply sequence by non-int of type '" ++ k.operandName ++ "'"
  | .countTooLarge => "cannot fit 'int' into an index-sized integer"
  | .textTooLong => "repeated string is too long"
  | .bytesTooLong => "repeated bytes are too long"
  | .noFloat => "int too large to convert to float"
  | .addedTo k => additionMessage k
  | .operands symbol left right =>
    "unsupported operand type(s) for " ++ symbol ++ ": '" ++ left.operandName ++ "' and '"
      ++ right.operandName ++ "'"
  | .keyword name => "FormatConfig.__init__() got an unexpected keyword argument '" ++ name ++ "'"
  | .keywordTwice name =>
    "FormatConfig.__init__() got multiple values for argument '" ++ name ++ "'"
  | .keywordNotText => "keywords must be strings"
  | .keywordsOf k =>
    "opldat.config.FormatConfig() argument after ** must be a mapping, not " ++ k.operandName
  | .counterSpec spec k =>
    "Invalid format specifier '" ++ spec ++ "' for object of type '" ++ k.name ++ "'"
  | .counterTooWide => "Too many decimal digits in format string"
  | .counterMarks => "Cannot specify both ',' and '_'."
  | .counterPlaces => "Precision not allowed in integer format specifier"
  | .counterNoPlaces => "Format specifier missing precision"
  | .counterNegativeZero =>
    "Negative zero coercion (z) not allowed in integer format specifier"
  | .counterCode k => "Unknown format code 'd' for object of type '" ++ k.name ++ "'"
  | .counterOf k => "unsupported format string passed to " ++ k.name ++ ".__format__"
  | .notStored k => "Object of type " ++ k.name ++ " is not JSON serializable"
  | .keyOf k => "keys must be str, int, float, bool or None, not " ++ k.operandName
  | .notInteger base text =>
    "invalid literal for int() with base " ++ toString base ++ ": "
      ++ String.ofList ((Source.quote text.toList).take 200)
  | .notFloat text => "could not convert string to float: " ++ quotedText text
  | .notFlag text => quotedText text
  | .noFirstCharacter => "string index out of range"
  | .noCharacter => "chr() arg not in range(0x110000)"
  | .codeTooLarge => "Python int too large to convert to C int"
  | .date f => f.message
  | .moment f => f.message
  | .zeroInPath => "embedded null byte"
  | .refused text => text

end Misfit

end ModelData
