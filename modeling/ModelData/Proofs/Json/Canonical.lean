import ModelData.Storage
import ModelData.Proofs.Json.Values
import ModelData.Proofs.Record.Decoding
import ModelData.Proofs.Record.Settling

/-!
The canonical text of a document. A document that was read from text has a record of data, however
loosely the text was put, so it is written again. What is written is the record in order; it is
read as the document with its names, lines and flag in order, and that document is written in
the same way.
-/

namespace ModelData

namespace Json.Data

variable {v w : Value} {values : List Value} {entries : List (Value × Value)}

theorem isData (h : Data v) : v.IsData := by
  induction h with
  | null => exact .null
  | flag b => exact .flag b
  | int i => exact .int i
  | text s => exact .text s
  | finite | infinite | nan => exact .float _
  | list _ ih => exact .list ih
  | table worded _ ih =>
    refine .table (fun e he => ?_) ih
    obtain ⟨s, hs⟩ := worded.texts e he
    exact hs ▸ .text s

theorem field {name : String} (h : Data (.table entries))
    (hfield : Table.field? name entries = some v) : Data v := by
  cases h with
  | table _ inside =>
    obtain ⟨k, hmem⟩ := mem_of_field? hfield
    exact inside _ hmem

/-- The items of a text are texts, and so are those of a table, which are its keys. -/
theorem items (h : Data v) (hitems : v.items = .ok values) (hw : w ∈ values) : Data w := by
  cases h with
  | list inside =>
    cases hitems
    exact inside w hw
  | text s =>
    cases hitems
    obtain ⟨c, -, rfl⟩ := List.mem_map.1 hw
    exact .text _
  | table worded =>
    cases hitems
    obtain ⟨e, he, rfl⟩ := List.mem_map.1 hw
    obtain ⟨s, hs⟩ := worded.texts e he
    exact hs ▸ .text s
  | _ => cases hitems

theorem passed : Value.Passed Data :=
  ⟨isData, field, items⟩

theorem gathered : Value.Gathered Data :=
  ⟨.flag, .int, .finite, .text, .list, fun _ keyed => .table keyed.worded⟩

end Json.Data

namespace Document

open Json (Data)

variable {v : Value} {d : Document}

theorem carries_data (h : Data v) (hread : Record.toDocument v = .ok d) : d.Carries Data :=
  Record.carries_of_toDocument Data.passed .null (.flag true) (.list (by simp)) h hread

theorem data_record (h : d.Carries Data) : Data d.record :=
  gathered_record Data.gathered h.names
    (fun n hn => (h.built n hn).known.and (h.keys n hn)) h.lines h.pretty

theorem toJson_eq_print (h : d.Carries Data) :
    d.toJson = .ok (String.ofList (Json.print d.record.settled)) := by
  have hrecord := ofDocument_known fun n hn => (h.built n hn).known
  have hwrite : Json.write d.record = .ok (Json.print d.record.settled) :=
    Json.writeWithin_eq (data_record h) (Nat.le_refl _)
  simp only [toJson, hrecord, hwrite, Except.mapError, ok_bind]
  rfl

theorem settled_record_of_data (h : d.Carries Data) :
    d.settled.record.settled = d.record.settled :=
  settled_record (fun n hn => (h.names n hn).settled_settled)
    (fun n hn => (h.keys n hn).mono fun _ hkeys name hname => (hkeys name hname).settled_settled)
    (fun line hline => (h.lines line hline).settled_settled) h.pretty.settled_settled

end Document

/-- Settings and flag are missing, one key is unknown and another stands there twice, the line is no
list, a name is a table out of order, a float is put as an integer, and a member of the set is put
twice. -/
def loose : String :=
  "\x7b\"x\":0,\"prefix_text\":\"ok\",\"elements\":[" ++
    "\x7b\"name\":\x7b\"b\":1,\"a\":NaN,\"b\":null\x7d," ++
      "\"element\":\x7b\"type\":\"float\",\"value\":3\x7d\x7d," ++
    "\x7b\"element\":\x7b\"type\":\"set\",\"items\":[2,1,2]\x7d,\"name\":-0.0\x7d]\x7d"

end ModelData
