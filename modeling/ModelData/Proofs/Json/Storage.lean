import ModelData.Storage
import ModelData.Proofs.Json.Values
import ModelData.Proofs.Record.Texts

/-!
Documents stored as JSON. A document of sound elements, with texts for names and for the lines
of its header, is stored and comes back as it was: truth values, integers and floats of either
sign keep apart, and no member of a set is lost.
-/

namespace ModelData

theorem mild_same : Mild Json.same :=
  ⟨fun _ _ _ => rfl, fun _ _ _ => rfl⟩

theorem toJson_eq {d : Document} (h : d.Sound) :
    ∃ text, d.toJson = .ok text ∧
      Json.read? text.toList = some (d.record.reread Json.same true 0) := by
  obtain ⟨text, htext, hreads⟩ :=
    Json.exists_write (Document.storable_record h) (Nat.le_refl d.record.depth)
  refine ⟨String.ofList text, ?_, ?_⟩
  · simp only [Document.toJson, Document.ofDocument_eq h, Except.mapError, ok_bind, Json.write,
      htext]
    rfl
  · rw [String.toList_ofList]
    exact Json.read?_of_reads (hreads 0)

theorem ofJson_toJson {d : Document} (h : d.Sound) :
    ∃ text, d.toJson = .ok text ∧ Document.ofJson text = .ok d := by
  obtain ⟨text, htext, hread⟩ := toJson_eq h
  have hsame : d.reread Json.same = d := (Document.reread_eq_self_iff h).2 fun _ _ => rfl
  refine ⟨text, htext, ?_⟩
  rw [Document.ofJson, hread]
  exact (Document.toDocument_reread mild_same h).trans (congrArg Except.ok hsame)

/-- A negative zero beside a truth value and a text with a line break, and a set with an integer
beside an element of the same value. -/
def sensor : Document where
  elements := [⟨.text "sensor", .array [⟨.text "é", .tuple
      [.float ⟨true, 0, Binary64.rankCount_pos⟩, .scalar (.flag true), .scalar (.text "a\nb")]⟩]⟩,
    ⟨.text "marks", .set [.scalar (.int 1), .element (.scalar (.int 1))]⟩]
  headerLines := [.text "checked"]
  pretty := .flag false

theorem ofJson_toJson_sensor :
    sensor.Sound ∧ ∃ text, sensor.toJson = .ok text ∧ Document.ofJson text = .ok sensor := by
  have hitems : ∀ e ∈ [Element.float ⟨true, 0, Binary64.rankCount_pos⟩, .scalar (.flag true),
      .scalar (.text "a\nb")], e.Everywhere Sound := by
    simp only [List.forall_mem_cons]
    exact ⟨sound_float _, sound_scalar _, sound_scalar _, by simp⟩
  have hmarks : (Element.set [.scalar (.int 1), .element (.scalar (.int 1))]).Everywhere Sound := by
    refine @sound_set [.int 1, .element (.scalar (.int 1))] _ rfl fun e he => ?_
    obtain rfl : e = .scalar (.int 1) := by simpa using he
    exact sound_scalar _
  have hsound : sensor.Sound := by
    refine ⟨?_, ?_, ?_, ⟨false, rfl⟩⟩
    · simp only [sensor, List.forall_mem_cons]
      refine ⟨sound_array ?_ ?_, hmarks, by simp⟩
      · simp
      · simpa using sound_tuple hitems
    · simp [sensor]
    · simp [sensor]
  exact ⟨hsound, ofJson_toJson hsound⟩

end ModelData
