import ModelData.Record
import ModelData.Json.Writer
import ModelData.Json.Reader
import ModelData.Yaml.Reader
import ModelData.Yaml.Writer
import ModelData.Text.Encoding

/-!
Documents and layout settings stored as text. Both formats write the record of a document
with its keys in order; settings are written in their own order. What is read back is the
document that was stored.
-/

namespace ModelData

def StoreFault.ofYaml : Yaml.Fault → StoreFault
  | .misfit m => .misfit m
  | _ => .yaml

namespace Document

def toJson (d : Document) : Except StoreFault String := do
  let record ← (Record.ofDocument d).mapError .record
  let text ← (Json.write record).mapError .misfit
  return String.ofList text

def ofJson (text : String) : Except StoreFault Document :=
  match Json.read? text.toList with
  | none => .error .json
  | some v => Record.toDocument v

def toYaml (d : Document) : Except StoreFault String := do
  let record ← (Record.ofDocument d).mapError .record
  let text ← (Yaml.write true record).mapError .ofYaml
  return String.ofList text

def ofYaml (text : String) : Except StoreFault Document := do
  Record.toDocument (← (Yaml.read text.toList).mapError .ofYaml)

end Document

namespace Config

def toYaml (c : Config) : Except StoreFault String := do
  let text ← (Yaml.write false c.toValue).mapError .ofYaml
  return String.ofList text

/-- Settings from text; one that cannot be read at all is a fault of the settings. -/
def ofYaml (text : String) : Except StoreFault Config :=
  match Yaml.read text.toList with
  | .ok v => (ofValue v).mapError .config
  | .error (.misfit m) => .error (.misfit m)
  | .error _ => .error (.config .unreadable)

/-- Settings from a value that holds text: a text itself, or its bytes. -/
def ofYamlValue : Value → Except StoreFault Config
  | .text s => ofYaml s
  | .bytes b =>
    match Encoding.decode? b with
    | some text => ofYaml (String.ofList text)
    | none => .error (.config .unreadable)
  | v => .error (.misfit (.noMethod v.kind "read"))

/-- Why the keys of an array name no settings: what they stand for cannot be asked for, unless
there are none. -/
def arrayFault? (entries : List Named) : Option Misfit :=
  match entries with
  | [] => none
  | n :: _ =>
    match n.name.unhashable? with
    | some k => some (.unhashable k)
    | none => some (.noField (.element .array))

/-- Settings given by name; a name that is none of theirs is refused first. -/
def ofNamed : Value → Except StoreFault Config
  | .table entries =>
    match strangeKey? entries with
    | some m => .error (.misfit m)
    | none => (ofKnown entries).mapError .config
  | .element (.array entries) =>
    match arrayFault? entries with
    | some m => .error (.misfit m)
    | none => .ok .standard
  | v => .error (.misfit (.keywordsOf v.kind))

end Config

end ModelData
