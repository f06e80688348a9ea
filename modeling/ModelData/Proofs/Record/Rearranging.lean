import ModelData.Proofs.Record.Documents

/-!
Records that come back rearranged. Tables may come back with their entries in another order, which
makes no difference to what is looked up in them. Only the names in a document, its lines and its
flag can be tables, so nothing else in the document changes; and none of the members of a set holds
a table, since it could not be looked up.
-/

namespace ModelData

/-- A way to put the entries of tables in another order, throughout a value. -/
structure Value.Rearranges (f : Value → Value) : Prop where
  hashable {v : Value} (h : v.unhashable? = none) : f v = v
  list (items : List Value) : f (.list items) = .list (items.map f)
  table (entries : List (Value × Value)) :
    ∃ entries', f (.table entries) = .table entries' ∧
      entries'.Perm (entries.map fun e => (e.1, f e.2))

theorem rearranges_id : Value.Rearranges id :=
  ⟨fun _ => rfl, by simp, fun entries => ⟨entries, rfl, by simp⟩⟩

section Elements

variable (f : Value → Value)

mutual

/-- The element with the tables among its names rearranged. -/
def Element.rearranged : Element → Element
  | .tuple items => .tuple (Element.allRearranged items)
  | .array entries => .array (Binding.allRearranged entries)
  | e => e

def Element.allRearranged : List Element → List Element
  | [] => []
  | e :: rest => Element.rearranged e :: Element.allRearranged rest

def Binding.rearranged : Binding Value Element → Binding Value Element
  | ⟨name, element⟩ => ⟨f name, Element.rearranged element⟩

def Binding.allRearranged : List (Binding Value Element) → List (Binding Value Element)
  | [] => []
  | n :: rest => Binding.rearranged n :: Binding.allRearranged rest

end

theorem Element.allRearranged_eq_map (items : List Element) :
    Element.allRearranged f items = items.map (Element.rearranged f) := by
  induction items with
  | nil => rfl
  | cons e rest ih => rw [Element.allRearranged, ih, List.map_cons]

theorem Binding.allRearranged_eq_map (entries : List Named) :
    Binding.allRearranged f entries = entries.map (Binding.rearranged f) := by
  induction entries with
  | nil => rfl
  | cons n rest ih => rw [Binding.allRearranged, ih, List.map_cons]

theorem Binding.rearranged_eq (n : Named) :
    Binding.rearranged f n = ⟨f n.name, n.element.rearranged f⟩ := by
  obtain ⟨name, e⟩ := n
  rw [Binding.rearranged]

variable {f}

/-- An element stays as it is when all names in it do. -/
theorem Element.rearranged_eq_self {e : Element}
    (h : e.Everywhere fun d => ∀ name ∈ d.keys, f name = name) : e.rearranged f = e := by
  induction h with
  | @intro e here _ ih =>
    cases e with
    | tuple items =>
      rw [Element.rearranged, Element.allRearranged_eq_map]
      exact congrArg _ (map_eq_self_iff.2 ih)
    | array entries =>
      rw [Element.rearranged, Binding.allRearranged_eq_map]
      refine congrArg _ (map_eq_self_iff.2 fun n hn => ?_)
      rw [Binding.rearranged_eq, here n.name (List.mem_map_of_mem hn),
        ih n.element (Element.mem_children_of_entry hn)]
    | _ => rfl

theorem Element.rearranged_id (e : Element) : e.rearranged id = e :=
  Element.rearranged_eq_self (Element.everywhere_of_forall (fun _ _ _ => rfl) e)

/-- What can be a member of a set has no names that could be rearranged. -/
theorem Element.rearranged_of_hashable (hf : Value.Rearranges f) {e : Element}
    (h : e.unhashable? = none) : e.rearranged f = e :=
  Element.rearranged_eq_self ((e.hashable_names h).mono fun _ hnames name hname =>
    hf.hashable (hnames name hname))

end Elements

def Document.rearranged (f : Value → Value) (d : Document) : Document :=
  { d with
    elements := d.elements.map (Binding.rearranged f)
    headerLines := d.headerLines.map f
    pretty := f d.pretty }

theorem Document.rearranged_id (d : Document) : d.rearranged id = d := by
  have helements : d.elements.map (Binding.rearranged id) = d.elements :=
    map_eq_self_iff.2 fun n _ => by rw [Binding.rearranged_eq, n.element.rearranged_id, id]
  rw [rearranged, helements, List.map_id]
  rfl

section Reading

variable {f : Value → Value} {a b : String}

theorem worded_pair (hne : a ≠ b) (v w : Value) : Worded [(.text a, v), (.text b, w)] :=
  ⟨by simp, by simpa using hne⟩

namespace Value.Rearranges

/-- What is found in a table is found in it afterwards, rearranged. -/
theorem fields (hf : Rearranges f) {entries : List (Value × Value)} (h : Worded entries) :
    ∃ entries', f (.table entries) = .table entries' ∧
      ∀ name, Table.field? name entries' = (Table.field? name entries).map f := by
  obtain ⟨entries', htable, hperm⟩ := hf.table entries
  refine ⟨entries', htable, fun name => ?_⟩
  rw [Table.field?_perm (Table.worded_map h f) hperm, Table.field?_map]

/-- Both fields of a record are found in it afterwards. -/
theorem pair (hf : Rearranges f) (hne : a ≠ b) (v w : Value) :
    ∃ entries, f (.table [(.text a, v), (.text b, w)]) = .table entries ∧
      Table.field? a entries = some (f v) ∧ Table.field? b entries = some (f w) := by
  obtain ⟨entries, htable, hfields⟩ := hf.fields (worded_pair hne v w)
  refine ⟨entries, htable, (hfields a).trans ?_, (hfields b).trans ?_⟩
  · simp [Table.field?, Table.get?]
  · simp [Table.field?, Table.get?, Table.form_text_inj, hne]

theorem typed (hf : Rearranges f) (type : String) {key : String} (hne : "type" ≠ key)
    (content : Value) :
    ∃ entries, f (Record.typed type key content) = .table entries ∧
      Table.field? "type" entries = some (.text type) ∧
      Table.field? key entries = some (f content) := by
  obtain ⟨entries, htable, htype, hcontent⟩ := hf.pair hne (.text type) content
  exact ⟨entries, htable, htype.trans (congrArg some (hf.hashable rfl)), hcontent⟩

theorem items (hf : Rearranges f) (type : String) (items : List Value) :
    ∃ entries, f (Record.typed type "items" (.list items)) = .table entries ∧
      Table.field? "type" entries = some (.text type) ∧
      Table.field? "items" entries = some (.list (items.map f)) := by
  obtain ⟨entries, htable, htype, hitems⟩ := hf.typed type (show "type" ≠ "items" by decide)
    (.list items)
  exact ⟨entries, htable, htype, hitems.trans (congrArg some (hf.list items))⟩

theorem scalar (hf : Rearranges f) (s : Scalar) : f s.toValue = s.toValue := by
  cases s <;> exact hf.hashable rfl

/-- A literal in a set is no table, so it is never taken for the record of an element. -/
theorem memberWith (hf : Rearranges f) {read : Value → Except RecordFault Element} {m : Member}
    (h : ∀ e, m = .element e → e.isForeign = false ∧ read (f e.record) = .ok e) :
    Record.memberWith read (f m.record) = .ok m.toValue := by
  cases m with
  | scalar s =>
    rw [Member.record, hf.scalar]
    cases s <;> rfl
  | float x =>
    rw [Member.record, hf.hashable rfl]
    rfl
  | element e =>
    obtain ⟨hknown, hread⟩ := h e rfl
    obtain ⟨type, key, content, hrecord⟩ := record_table hknown
    obtain ⟨entries, htable, -⟩ := hf.table [(.text "type", .text type), (.text key, content)]
    rw [hrecord, Record.typed, htable] at hread
    rw [Member.record, hrecord, Record.typed, htable, Record.memberWith, hread]
    rfl

theorem named (hf : Rearranges f) (n : Named) :
    ∃ entries, f n.record = .table entries ∧
      Table.field? "name" entries = some (f n.name) ∧
      Table.field? "element" entries = some (f n.element.record) := by
  obtain ⟨name, e⟩ := n
  exact hf.pair (by decide) name e.record

theorem namedWith (hf : Rearranges f) {read : Value → Except RecordFault Element} {n : Named}
    (h : read (f n.element.record) = .ok (n.element.rearranged f)) :
    Record.namedWith read (f n.record) = .ok (n.rearranged f) := by
  obtain ⟨entries, htable, hname, helement⟩ := hf.named n
  rw [htable, Binding.rearranged_eq]
  exact namedWith_table hname helement h

theorem depth_named (hf : Rearranges f) (n : Named) :
    (f n.element.record).depth < (f n.record).depth := by
  obtain ⟨entries, htable, -, helement⟩ := hf.named n
  obtain ⟨k, hmem⟩ := mem_of_field? helement
  rw [htable]
  exact depth_of_mem_table hmem

end Value.Rearranges

end Reading

end ModelData
