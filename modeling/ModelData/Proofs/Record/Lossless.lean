import ModelData.Proofs.Number.Rounding
import ModelData.Proofs.Record.Rearranging

/-!
Elements and documents as they are built come back from their records. A record that is read
goes through all builders again, so what has to be shown is that they take what they made: the
members of a set are of one sort, can be looked up, and none of them equals an earlier one.
The names in an array, and the lines and the flag of a document, may be any values; where the
tables among these come back rearranged, so do the elements and the document.
-/

namespace ModelData

/-- What the builders make of parts that they made. Only for a set does it matter what the
parts are. -/
inductive Built : Element → Prop where
  | scalar (s : Scalar) : Built (.scalar s)
  | float (x : Binary64.Finite) : Built (.float x)
  | set {items : Value} {members : List Member}
      (made : Element.makeSet items = .ok (.set members))
      (inside : ∀ e, Member.element e ∈ members → Built e) : Built (.set members)
  | tuple {items : List Element} (inside : ∀ e ∈ items, Built e) : Built (.tuple items)
  | array {entries : List Named} (inside : ∀ n ∈ entries, Built n.element) :
      Built (.array entries)

theorem Built.known {e : Element} (h : Built e) : e.Everywhere (·.isForeign = false) := by
  induction h with
  | scalar | float => exact .leaf rfl rfl
  | set _ _ ih =>
    refine .intro rfl fun d hd => ?_
    obtain ⟨m, hm, hd⟩ := List.mem_filterMap.1 hd
    cases m with
    | scalar | float => simp [Member.element?] at hd
    | element e =>
      obtain rfl : e = d := by simpa [Member.element?] using hd
      exact ih e hm
  | tuple _ ih => exact .intro rfl ih
  | array _ ih =>
    refine .intro rfl fun d hd => ?_
    obtain ⟨n, hn, rfl⟩ := List.mem_map.1 hd
    exact ih n hn

section Reading

variable {f : Value → Value} {levels : Nat}

theorem exists_levels {entries : List (Value × Value)}
    (h : (Value.table entries).depth ≤ levels) : ∃ n, levels = n + 1 :=
  Nat.exists_eq_add_one.2 (Nat.lt_of_lt_of_le (Nat.succ_pos _) h)

/-- The record of an element that was built is read as the element, with the names in it rearranged
if the record is. -/
theorem readElement_rearranged (hf : Value.Rearranges f) {e : Element} (h : Built e)
    (hlevels : (f e.record).depth ≤ levels) :
    Record.readElement levels (f e.record) = .ok (e.rearranged f) := by
  induction h generalizing levels with
  | scalar s =>
    obtain ⟨entries, htable, htype, hvalue⟩ :=
      hf.typed "scalar" (show "type" ≠ "value" by decide) s.toValue
    rw [hf.scalar] at hvalue
    rw [Element.record, htable] at hlevels ⊢
    obtain ⟨levels, rfl⟩ := exists_levels hlevels
    exact readElement_scalar htype hvalue
  | float x =>
    obtain ⟨entries, htable, htype, hvalue⟩ :=
      hf.typed "float" (show "type" ≠ "value" by decide) (.float (.finite x))
    rw [hf.hashable rfl] at hvalue
    rw [Element.record, htable] at hlevels ⊢
    obtain ⟨levels, rfl⟩ := exists_levels hlevels
    exact readElement_float htype hvalue
  | @set _ members made inside ih =>
    obtain ⟨entries, htable, htype, hitems⟩ := hf.items "set" (Member.records members)
    rw [Element.record, htable] at hlevels ⊢
    obtain ⟨levels, rfl⟩ := exists_levels hlevels
    obtain ⟨hcompatible, hdistinct⟩ := compatible_of_makeSet made
    have hread : ((Member.records members).map f).mapM
        (Record.memberWith (Record.readElement levels)) = .ok (members.map Member.toValue) := by
      rw [Member.records_eq_map, List.map_map, List.mapM_map]
      refine mapM_eq_map fun m hm => hf.memberWith fun e he => ?_
      subst he
      refine ⟨(inside e hm).known.here, ?_⟩
      refine (ih e hm ?_).trans
        (congrArg _ (Element.rearranged_of_hashable hf (hcompatible.hashable _ hm)))
      refine depth_of_items hitems (List.mem_map_of_mem ?_) hlevels
      exact record_mem_records (Element.mem_children_of_member hm)
    have hset := readElement_members htype hitems hread hcompatible
    rwa [hdistinct] at hset
  | @tuple items _ ih =>
    obtain ⟨entries, htable, htype, hitems⟩ := hf.items "tuple" (Element.records items)
    rw [Element.record, htable] at hlevels ⊢
    obtain ⟨levels, rfl⟩ := exists_levels hlevels
    rw [Element.rearranged, Element.allRearranged_eq_map]
    refine readElement_items htype hitems ?_
    rw [Element.records_eq_map, List.map_map, List.mapM_map]
    refine mapM_eq_map fun e he => ih e he ?_
    exact depth_of_items hitems (List.mem_map_of_mem (record_mem_items he)) hlevels
  | @array named _ ih =>
    obtain ⟨entries, htable, htype, hitems⟩ := hf.items "array" (Binding.records named)
    rw [Element.record, htable] at hlevels ⊢
    obtain ⟨levels, rfl⟩ := exists_levels hlevels
    rw [Element.rearranged, Binding.allRearranged_eq_map]
    refine readElement_entries htype hitems ?_
    rw [Binding.records_eq_map, List.map_map, List.mapM_map]
    refine mapM_eq_map fun n hn => ?_
    have hdepth := depth_of_items hitems (List.mem_map_of_mem (record_mem_entries hn)) hlevels
    have helement := ih n hn (Nat.le_trans (Nat.le_of_lt (hf.depth_named n)) hdepth)
    rw [Function.comp_apply, Function.comp_apply, hf.namedWith helement]
    rfl

theorem toElement_record {e : Element} (h : Built e) : Record.toElement e.record = .ok e :=
  (readElement_rearranged rearranges_id h (Nat.le_succ _)).trans (congrArg _ e.rearranged_id)

end Reading

namespace Document

variable {f : Value → Value} {d : Document}

theorem config_rearranged (hf : Value.Rearranges f) (c : Config) :
    Config.ofValue (f c.toValue) = .ok c := by
  obtain ⟨entries, htable, hperm⟩ := hf.table c.toEntries
  have hsame : c.toEntries.map (fun e => (e.1, f e.2)) = c.toEntries := by
    refine map_eq_self_iff.2 fun e he => ?_
    simp only [Config.toEntries, List.mem_cons, List.not_mem_nil, or_false] at he
    rcases he with rfl | rfl | rfl | rfl | rfl | rfl | rfl <;> rw [hf.hashable rfl]
  rw [hsame] at hperm
  rw [Config.toValue, htable]
  exact ofValue_perm c hperm

/-- The record of a document is read as the document, rearranged if the record is. -/
theorem toDocument_rearranged (hf : Value.Rearranges f)
    (h : ∀ n ∈ d.elements, Built n.element) :
    Record.toDocument (f d.record) = .ok (d.rearranged f) := by
  obtain ⟨entries, htable, hfields⟩ :=
    hf.fields (keyed_record (.list (Binding.records d.elements)) (.list d.headerLines) d.pretty
      d.config.toValue).worded
  have hnamed : ((Binding.records d.elements).map f).mapM Record.toNamed =
      .ok (d.elements.map (Binding.rearranged f)) := by
    rw [Binding.records_eq_map, List.map_map, List.mapM_map]
    exact mapM_eq_map fun n hn =>
      hf.namedWith (readElement_rearranged hf (h n hn) (Nat.le_succ _))
  have helements := hfields "elements"
  have hlines := hfields "prefix_text"
  have hflag := hfields "pretty_printing"
  have hsettings := hfields "config"
  simp only [Table.field?, Table.get?, Table.form_text_inj, String.reduceEq, if_true, if_false,
    Option.map_some, hf.list] at helements hlines hflag hsettings
  rw [record, htable]
  exact toDocument_table helements hlines hflag hsettings hnamed (config_rearranged hf d.config)

theorem toDocument_record (h : ∀ n ∈ d.elements, Built n.element) :
    Record.toDocument d.record = .ok d :=
  (toDocument_rearranged rearranges_id h).trans (congrArg _ d.rearranged_id)

end Document

/-- Whatever was built has a record and comes back from it as it was, and so does a document of
such elements, whatever its names, its lines and its flag are. -/
theorem records_lossless :
    (∀ e, Built e → ∃ v, Record.ofElement e = .ok v ∧ Record.toElement v = .ok e) ∧
      ∀ d : Document, (∀ n ∈ d.elements, Built n.element) →
        ∃ v, Record.ofDocument d = .ok v ∧ Record.toDocument v = .ok d := by
  constructor
  · intro e h
    exact ⟨e.record, ofElement_eq h.known, toElement_record h⟩
  · intro d h
    exact ⟨d.record, Document.ofDocument_known fun n hn => (h n hn).known,
      Document.toDocument_record h⟩

/-- A set made from equal items, under a key and a name that are no texts. -/
def oddment : Document where
  elements := [⟨.null, .array [⟨.list [.int 1],
    .set [.scalar (.flag true), .element (.float ⟨true, 0, Binary64.rankCount_pos⟩)]⟩]⟩]
  headerLines := [.int 3]
  pretty := .text "no"

theorem records_lossless_oddment :
    (∀ n ∈ oddment.elements, Built n.element) ∧
      (∃ e v, Built e ∧ Record.ofElement e = .ok v ∧ Record.toElement v = .ok e) ∧
        ∃ v, Record.ofDocument oddment = .ok v ∧ Record.toDocument v = .ok oddment := by
  have hset : Built (.set [.scalar (.flag true),
      .element (.float ⟨true, 0, Binary64.rankCount_pos⟩)]) := by
    refine @Built.set (.tuple [.flag true, .int 1,
      .element (.float ⟨true, 0, Binary64.rankCount_pos⟩)]) _ rfl ?_
    intro e he
    obtain rfl : e = .float ⟨true, 0, Binary64.rankCount_pos⟩ := by simpa using he
    exact .float _
  have hbuilt : ∀ n ∈ oddment.elements, Built n.element := by
    intro n hn
    obtain rfl := List.mem_singleton.1 hn
    refine .array fun m hm => ?_
    obtain rfl := List.mem_singleton.1 hm
    exact hset
  obtain ⟨helements, hdocuments⟩ := records_lossless
  obtain ⟨v, hrecord, hread⟩ := helements _ hset
  exact ⟨hbuilt, ⟨_, v, hset, hrecord, hread⟩, hdocuments oddment hbuilt⟩

end ModelData
