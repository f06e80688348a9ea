import ModelData.Value.Kind
import ModelData.Text.Source
import ModelData.Number.Literal

/-!
Values as text. A text stands for itself; every other value is spelled by its source form,
in which texts are quoted and collections list their items in brackets.
-/

namespace ModelData

def commas (parts : List (List Char)) : List Char :=
  [',', ' '].intercalate parts

/-- Items in round brackets; a single item is followed by a comma. -/
def roundBrackets : List (List Char) → List Char
  | [part] => '(' :: part ++ [',', ')']
  | parts => '(' :: commas parts ++ [')']

def callText (name : String) (arguments : List (List Char)) : List Char :=
  name.toList ++ '(' :: commas arguments ++ [')']

def argumentText (name : String) (value : List Char) : List Char :=
  name.toList ++ '=' :: value

def flagText (b : Bool) : List Char :=
  if b then "True".toList else "False".toList

/-- Nothing but its kind is known of the value. -/
def bareText (kind : String) : List Char :=
  '<' :: kind.toList ++ " object>".toList

def Date.text (d : Date) : List Char :=
  List.leftpad 4 '0' (Digits.ofNat d.year) ++ '-' :: Digits.atLeastTwo d.month
    ++ '-' :: Digits.atLeastTwo d.day

/-- A moment with its parts in falling order, and its distance from universal time if known. -/
def Moment.text (m : Moment) : List Char :=
  m.date.text ++ ' ' :: Moment.two m.hour ++ ':' :: Moment.two m.minute
    ++ ':' :: Moment.two m.second
    ++ (if m.microsecond = 0 then [] else '.' :: Moment.filled 6 '0' m.microsecond)
    ++ m.offset.elim [] (Moment.offsetText [':'])

/-- A moment as a call with its parts, of which trailing zeros behind the minute are left out. -/
def Moment.source (m : Moment) : List Char :=
  let tail :=
    if m.microsecond ≠ 0 then [m.second, m.microsecond]
    else if m.second ≠ 0 then [m.second] else []
  let parts := [m.date.year, m.date.month, m.date.day, m.hour, m.minute] ++ tail
  let zone := m.offset.toList.map fun offset => argumentText "tzinfo" (zoneSource offset)
  callText "datetime.datetime" (parts.map Digits.ofNat ++ zone)
where
  zoneSource (offset : Int) : List Char :=
    if offset = 0 then "datetime.timezone.utc".toList
    else callText "datetime.timezone" [(Moment.spanText offset).toList]

def Scalar.source : Scalar → List Char
  | .text s => Source.quote s.toList
  | .int i => Digits.ofInt i
  | .flag b => flagText b

mutual

def Value.source : Value → List Char
  | .null => "None".toList
  | .flag b => flagText b
  | .int i => Digits.ofInt i
  | .float x => x.spell .source
  | .text s => Source.quote s.toList
  | .bytes b => Source.quoteBytes b
  | .date d => callText "datetime.date"
      [Digits.ofNat d.year, Digits.ofNat d.month, Digits.ofNat d.day]
  | .moment m => m.source
  | .list items => '[' :: commas (Value.sources items) ++ [']']
  | .tuple items => roundBrackets (Value.sources items)
  | .stream _ _ => bareText "list_iterator"
  | .table entries => '\x7b' :: commas (Value.entrySources entries) ++ ['\x7d']
  | .unknown kind _ => bareText kind
  | .element e => Element.source e
  | .named n => Binding.source n

def Value.sources : List Value → List (List Char)
  | [] => []
  | v :: rest => Value.source v :: Value.sources rest

def Value.entrySources : List (Value × Value) → List (List Char)
  | [] => []
  | (k, v) :: rest => (Value.source k ++ ':' :: ' ' :: Value.source v) :: Value.entrySources rest

def Element.source : Element → List Char
  | .scalar s => callText "ScalarConstant" [argumentText "value" s.source]
  | .float x => callText "FloatConstant" [argumentText "value" (x.spell .source)]
  | .set members =>
    callText "SetElement" [argumentText "items" (roundBrackets (Member.sources members))]
  | .tuple items =>
    callText "TupleElement" [argumentText "items" (roundBrackets (Element.sources items))]
  | .array entries =>
    callText "IndexedArray" [argumentText "items" (roundBrackets (Binding.sources entries))]
  | .custom kind _ => bareText kind

def Element.sources : List Element → List (List Char)
  | [] => []
  | e :: rest => Element.source e :: Element.sources rest

def Member.source : Member → List Char
  | .scalar s => s.source
  | .float x => x.spell .source
  | .element e => Element.source e

def Member.sources : List Member → List (List Char)
  | [] => []
  | m :: rest => Member.source m :: Member.sources rest

def Binding.source : Binding Value Element → List Char
  | ⟨name, element⟩ => callText "NamedElement"
      [argumentText "name" (Value.source name), argumentText "element" (Element.source element)]

def Binding.sources : List (Binding Value Element) → List (List Char)
  | [] => []
  | n :: rest => Binding.source n :: Binding.sources rest

end

/-- The text of a value where it is spliced into other text. -/
def Value.chars : Value → List Char
  | .text s => s.toList
  | .date d => d.text
  | .moment m => m.text
  | v => v.source

def Value.asText (v : Value) : String :=
  String.ofList v.chars

/-- The source form of a value as it is quoted in messages. -/
def Value.quoted (v : Value) : String :=
  String.ofList v.source

theorem Value.asText_text (s : String) : (Value.text s).asText = s := by
  simp [Value.asText, Value.chars]

end ModelData
