import ModelData.Misfit
import ModelData.Value.Table

/-!
Layout settings of a document. Three of them are numbers of spaces, levels and digits, four
are texts. The title stands in a comment, so it cannot hold the mark that ends one. A
table of settings may leave any of them out and may hold no other key.
-/

namespace ModelData

/-- Whether a text occurs within another. -/
def occursIn (part : List Char) : List Char → Bool
  | [] => part.isEmpty
  | c :: rest => part.isPrefixOf (c :: rest) || occursIn part rest

/-- The mark that ends a comment. -/
def commentEnd : List Char := ['*', '/']

def closesComment (text : String) : Bool :=
  occursIn commentEnd text.toList

structure Config where
  indentWidth : Nat := 4
  indentLevel : Nat := 1
  idPadding : Nat := 4
  bannerTitle : String := "Auto generated data file"
  timestampFormat : String := "%Y-%m-%d %H:%M:%S %Z"
  tempPrefix : String := "networkstructure-data-"
  tempSuffix : String := ".dat"
  title_open : closesComment bannerTitle = false := by decide
deriving DecidableEq

/-- The usual settings. -/
def Config.standard : Config := {}

inductive ConfigFault where
  | notTable (k : Kind)
  | unknownKeys (keys : List String)
  | notInteger (key source : String)
  | negative (key : String) (i : Int)
  | notText (key source : String)
  | titleCloses
  /-- The text of the settings could not be read. -/
  | unreadable
deriving DecidableEq

def ConfigFault.message : ConfigFault → String
  | .notTable k => "Expected a mapping, got " ++ k.name
  | .unknownKeys keys => "Unknown config keys: " ++ ", ".intercalate keys
  | .notInteger key source => key ++ " must be an integer, got " ++ source
  | .negative key i => key ++ " must not be negative, got " ++ String.ofList (Digits.ofInt i)
  | .notText key source => key ++ " must be a string, got " ++ source
  | .titleCloses => "banner_title must not contain '*/'"
  | .unreadable => "Invalid YAML config"

namespace Config

def keys : List String :=
  ["indent_width", "indent_level", "id_padding", "banner_title", "timestamp_format",
    "temp_prefix", "temp_suffix"]

def toEntries (c : Config) : List (Value × Value) :=
  [(.text "indent_width", .int c.indentWidth),
    (.text "indent_level", .int c.indentLevel),
    (.text "id_padding", .int c.idPadding),
    (.text "banner_title", .text c.bannerTitle),
    (.text "timestamp_format", .text c.timestampFormat),
    (.text "temp_prefix", .text c.tempPrefix),
    (.text "temp_suffix", .text c.tempSuffix)]

def toValue (c : Config) : Value :=
  .table c.toEntries

/-- A setting that counts something. -/
def count (entries : List (Value × Value)) (key : String) (default : Nat) :
    Except ConfigFault Nat :=
  match Table.field? key entries with
  | none => .ok default
  | some (.int i) => if i < 0 then .error (.negative key i) else .ok i.toNat
  | some v => .error (.notInteger key v.quoted)

/-- A setting that is a text. -/
def words (entries : List (Value × Value)) (key : String) (default : String) :
    Except ConfigFault String :=
  match Table.field? key entries with
  | none => .ok default
  | some (.text s) => .ok s
  | some v => .error (.notText key v.quoted)

/-- The settings in a table whose keys are known; numbers are looked at before texts. -/
def ofKnown (entries : List (Value × Value)) : Except ConfigFault Config := do
  let indentWidth ← count entries "indent_width" standard.indentWidth
  let indentLevel ← count entries "indent_level" standard.indentLevel
  let idPadding ← count entries "id_padding" standard.idPadding
  let bannerTitle ← words entries "banner_title" standard.bannerTitle
  let timestampFormat ← words entries "timestamp_format" standard.timestampFormat
  let tempPrefix ← words entries "temp_prefix" standard.tempPrefix
  let tempSuffix ← words entries "temp_suffix" standard.tempSuffix
  if h : closesComment bannerTitle = false then
    .ok { indentWidth, indentLevel, idPadding, bannerTitle, timestampFormat, tempPrefix,
          tempSuffix, title_open := h }
  else .error .titleCloses

def isKnown : Value → Bool
  | .text key => keys.contains key
  | _ => false

/-- The settings in a value; the null value stands for the usual ones. -/
def ofValue : Value → Except ConfigFault Config
  | .null => .ok .standard
  | .table entries =>
    let unknown := (entries.map (·.1)).filter fun key => !isKnown key
    if unknown.isEmpty then ofKnown entries
    else .error (.unknownKeys ((unknown.map Value.asText).mergeSort fun a b => a ≤ b))
  | v => .error (.notTable v.kind)

/-- Why a key names no setting; the settings themselves are named by a word that is taken. -/
def keywordFault (key : String) : Misfit :=
  if key = "self" then .keywordTwice key else .keyword key

/-- Why a table does not name settings: a key is no text, or else the first that is unknown. -/
def strangeKey? (entries : List (Value × Value)) : Option Misfit :=
  if entries.all fun e => e.1.kind = .text then
    (entries.find? fun e => !isKnown e.1).map fun e => keywordFault e.1.asText
  else some .keywordNotText

end Config

end ModelData
