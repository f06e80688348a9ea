import ModelData.Proofs.Element.Sets
import ModelData.Proofs.Record.Elements

/-!
Reading the records of elements. Whatever a format makes of the texts in a record, as long as
it keeps the words that serve as keys and types, the record is read as the element with its
texts changed. Sets are built anew, so what their changed members have in common is dropped.
-/

namespace ModelData

section Changes

variable (change : Nat → List Char → List Char)

def Scalar.reread (indent : Nat) : Scalar → Scalar
  | .text s => .text (String.ofList (change indent s.toList))
  | s => s

mutual

/-- The element that is read for one whose record starts at an indentation. -/
def Element.reread (indent : Nat) : Element → Element
  | .scalar s => .scalar (s.reread change (indent + 2))
  | .float x => .float x
  | .set members => .set (distinct Member.form (Member.rereads (indent + 2) members))
  | .tuple items => .tuple (Element.rereads (indent + 2) items)
  | .array entries => .array (Binding.rereads (indent + 2) entries)
  | .custom kind label => .custom kind label

def Element.rereads (indent : Nat) : List Element → List Element
  | [] => []
  | e :: rest => Element.reread indent e :: Element.rereads indent rest

def Member.reread (indent : Nat) : Member → Member
  | .scalar s => .scalar (s.reread change indent)
  | .float x => .float x
  | .element e => .element (Element.reread indent e)

def Member.rereads (indent : Nat) : List Member → List Member
  | [] => []
  | m :: rest => Member.reread indent m :: Member.rereads indent rest

def Binding.reread (indent : Nat) : Binding Value Element → Binding Value Element
  | ⟨.text s, element⟩ =>
    ⟨.text (String.ofList (change (indent + 2) s.toList)), Element.reread (indent + 2) element⟩
  | ⟨name, element⟩ => ⟨name, Element.reread (indent + 2) element⟩

def Binding.rereads (indent : Nat) :
    List (Binding Value Element) → List (Binding Value Element)
  | [] => []
  | n :: rest => Binding.reread indent n :: Binding.rereads indent rest

end

theorem Element.rereads_eq_map (indent : Nat) (items : List Element) :
    Element.rereads change indent items = items.map (Element.reread change indent) := by
  induction items with
  | nil => rfl
  | cons e rest ih => rw [Element.rereads, ih, List.map_cons]

theorem Member.rereads_eq_map (indent : Nat) (members : List Member) :
    Member.rereads change indent members = members.map (Member.reread change indent) := by
  induction members with
  | nil => rfl
  | cons m rest ih => rw [Member.rereads, ih, List.map_cons]

theorem Binding.rereads_eq_map (indent : Nat) (entries : List Named) :
    Binding.rereads change indent entries = entries.map (Binding.reread change indent) := by
  induction entries with
  | nil => rfl
  | cons n rest ih => rw [Binding.rereads, ih, List.map_cons]

/-- A change that leaves the words alone that serve as keys and types. -/
def KeepsKeys : Prop :=
  ∀ indent s, isKey s = true → change indent s.toList = s.toList

end Changes

section Reading

variable {change : Nat → List Char → List Char} {sorts : Bool}

theorem reread_text (hchange : KeepsKeys change) {s : String} (hs : isKey s = true)
    (indent : Nat) : (Value.text s).reread change sorts indent = .text s := by
  rw [Value.reread, hchange indent s hs, String.ofList_toList]

/-- A record of two fields is read as a table with both of them. -/
theorem reread_pair {a b : String} (ha : isKey a = true) (hb : isKey b = true) (hne : a ≠ b)
    (v w : Value) (indent : Nat) :
    ∃ entries, (Value.table [(.text a, v), (.text b, w)]).reread change sorts indent =
        .table entries ∧
      Table.field? a entries = some (v.rereadBehind change sorts indent) ∧
      Table.field? b entries = some (w.rereadBehind change sorts indent) := by
  have hkeyed := keyed_pair ha hb hne v w
  have hfirst : Table.field? a [(.text a, v), (.text b, w)] = some v :=
    (Table.field?_eq_some_iff hkeyed.worded).2 (by simp)
  have hsecond : Table.field? b [(.text a, v), (.text b, w)] = some w :=
    (Table.field?_eq_some_iff hkeyed.worded).2 (by simp)
  refine ⟨_, rfl, ?_, ?_⟩
  · rw [field?_reread hkeyed.worded, hfirst, Option.map_some]
  · rw [field?_reread hkeyed.worded, hsecond, Option.map_some]

theorem reread_typed (hchange : KeepsKeys change) {type key : String} (htype : isKey type = true)
    (hkey : isKey key = true) (hne : "type" ≠ key) (content : Value) (indent : Nat) :
    ∃ entries, (Record.typed type key content).reread change sorts indent = .table entries ∧
      Table.field? "type" entries = some (.text type) ∧
      Table.field? key entries = some (content.rereadBehind change sorts indent) := by
  obtain ⟨entries, hentries, htypeField, hcontent⟩ :=
    @reread_pair change sorts "type" key (by decide) hkey hne (.text type) content indent
  rw [Value.rereadBehind, reread_text hchange htype] at htypeField
  exact ⟨entries, hentries, htypeField, hcontent⟩

theorem rereadBehind_list (items : List Value) (indent : Nat) :
    (Value.list items).rereadBehind change sorts indent =
      .list (items.map (Value.reread change sorts (indent + 2))) := by
  rw [Value.rereadBehind, innerIndent, Value.reread, Value.rereads_eq_map]

theorem reread_items (hchange : KeepsKeys change) {type : String} (htype : isKey type = true)
    (items : List Value) (indent : Nat) :
    ∃ entries, (Record.typed type "items" (.list items)).reread change sorts indent =
        .table entries ∧
      Table.field? "type" entries = some (.text type) ∧
      Table.field? "items" entries =
        some (.list (items.map (Value.reread change sorts (indent + 2)))) := by
  obtain ⟨entries, hentries, htypeField, hitems⟩ :=
    @reread_typed change sorts hchange type "items" htype (by decide) (by decide) (.list items)
      indent
  rw [rereadBehind_list] at hitems
  exact ⟨entries, hentries, htypeField, hitems⟩

/-- Items that stand in a table are less deep than the table by two. -/
theorem depth_of_items {entries : List (Value × Value)} {items : List Value} {v : Value}
    {levels : Nat} {name : String} (hfield : Table.field? name entries = some (.list items))
    (hv : v ∈ items) (hlevels : (Value.table entries).depth ≤ levels + 1) :
    v.depth ≤ levels := by
  obtain ⟨k, hmem⟩ := mem_of_field? hfield
  have htable := depth_of_mem_table hmem
  have hlist := depth_of_mem_list hv
  dsimp only at htable
  omega

theorem Scalar.toValue_reread (s : Scalar) (indent : Nat) :
    s.toValue.reread change sorts indent = (s.reread change indent).toValue := by
  cases s <;> rfl

theorem makeScalar_toValue (s : Scalar) : Element.makeScalar s.toValue = .ok (.scalar s) := by
  cases s <;> rfl

theorem literalNames_reread (members : List Member) (indent : Nat) :
    Member.literalNames (members.map (Member.reread change indent)) =
      Member.literalNames members := by
  have hliteral (m : Member) : (m.reread change indent).literalName? = m.literalName? := by
    cases m with
    | scalar s => cases s <;> rfl
    | float | element => rfl
  simp only [Member.literalNames, List.any_map, Function.comp_def, hliteral]

/-- What is read for a sound element may be a member of a set. -/
theorem unhashable?_reread {e : Element} (h : e.Everywhere Sound) (indent : Nat) :
    (e.reread change indent).unhashable? = none := by
  induction h generalizing indent with
  | @intro e here _ ih =>
    cases e with
    | scalar | float | custom => rfl
    | set members =>
      refine anyUnhashable?_eq_none_iff.2 fun m hm => ?_
      have hm := mem_of_mem_distinct hm
      rw [Member.rereads_eq_map] at hm
      obtain ⟨m, hmem, rfl⟩ := List.mem_map.1 hm
      cases m with
      | scalar | float => rfl
      | element d => exact ih d (Element.mem_children_of_member hmem) _
    | tuple items =>
      refine anyUnhashable?_items_iff.2 fun d hd => ?_
      rw [Element.rereads_eq_map] at hd
      obtain ⟨d, hmem, rfl⟩ := List.mem_map.1 hd
      exact ih d hmem _
    | array entries =>
      refine anyUnhashable?_entries_iff.2 fun n hn => ?_
      rw [Binding.rereads_eq_map] at hn
      obtain ⟨n, hmem, rfl⟩ := List.mem_map.1 hn
      obtain ⟨s, hs⟩ := here.names n.name (List.mem_map_of_mem hmem)
      have helement := ih n.element (Element.mem_children_of_entry hmem) (indent + 2 + 2)
      obtain ⟨name, d⟩ := n
      obtain rfl : name = .text s := hs
      exact helement

theorem compatible_reread {members : List Member} (h : (Element.set members).Everywhere Sound)
    (indent : Nat) : Compatible (members.map (Member.reread change indent)) := by
  obtain ⟨items, hbuilt⟩ := h.here.built members rfl
  obtain ⟨hcompatible, -⟩ := compatible_of_makeSet hbuilt
  refine ⟨by rw [literalNames_reread]; exact hcompatible.sorts, fun m hm => ?_⟩
  obtain ⟨m, hmem, rfl⟩ := List.mem_map.1 hm
  cases m with
  | scalar | float => rfl
  | element d => exact unhashable?_reread (h.inside (Element.mem_children_of_member hmem)) _

theorem itemsOf_eq {type : String} {entries : List (Value × Value)} {items : List Value}
    (h : Table.field? "items" entries = some (.list items)) :
    Record.itemsOf type entries = .ok items := by
  rw [Record.itemsOf, h]
  rfl

variable {levels indent : Nat} {entries : List (Value × Value)}

theorem readElement_scalar {s : Scalar}
    (htype : Table.field? "type" entries = some (.text "scalar"))
    (hvalue : Table.field? "value" entries = some s.toValue) :
    Record.readElement (levels + 1) (.table entries) = .ok (.scalar s) := by
  simp only [Record.readElement, htype, Record.valueOf, hvalue, ok_bind, makeScalar_toValue]
  rfl

theorem readElement_float {x : Binary64.Finite}
    (htype : Table.field? "type" entries = some (.text "float"))
    (hvalue : Table.field? "value" entries = some (.float (.finite x))) :
    Record.readElement (levels + 1) (.table entries) = .ok (.float x) := by
  simp only [Record.readElement, htype, Record.valueOf, hvalue, ok_bind]
  rfl

theorem record_table {e : Element} (h : e.isForeign = false) :
    ∃ type key content, e.record = Record.typed type key content := by
  cases e with
  | scalar | float | set | tuple | array => exact ⟨_, _, _, rfl⟩
  | custom => simp [Element.isForeign] at h

theorem memberWith_reread {m : Member} {read : Value → Except RecordFault Element}
    (hread : ∀ d, m = .element d → d.isForeign = false ∧
      read (d.record.reread change sorts indent) = .ok (d.reread change indent)) :
    Record.memberWith read (m.record.reread change sorts indent) =
      .ok (m.reread change indent).toValue := by
  cases m with
  | scalar s =>
    rw [Member.record, Scalar.toValue_reread]
    cases s <;> rfl
  | float x => rfl
  | element d =>
    obtain ⟨hknown, helement⟩ := hread d rfl
    obtain ⟨type, key, content, hrecord⟩ := record_table hknown
    have htable : Record.memberWith read (d.record.reread change sorts indent) =
        (do return Value.element (← read (d.record.reread change sorts indent))) := by
      rw [hrecord]
      rfl
    rw [Member.record, htable, helement]
    rfl

theorem readElement_members {values : List Value} {members : List Member}
    (htype : Table.field? "type" entries = some (.text "set"))
    (hitems : Table.field? "items" entries = some (.list values))
    (hread : values.mapM (Record.memberWith (Record.readElement levels)) =
      .ok (members.map Member.toValue)) (h : Compatible members) :
    Record.readElement (levels + 1) (.table entries) =
      .ok (.set (distinct Member.form members)) := by
  simp only [Record.readElement, htype, itemsOf_eq hitems, ok_bind, hread, makeSet_toValue h]
  rfl

theorem readElement_items {values : List Value} {items : List Element}
    (htype : Table.field? "type" entries = some (.text "tuple"))
    (hitems : Table.field? "items" entries = some (.list values))
    (hread : values.mapM (Record.readElement levels) = .ok items) :
    Record.readElement (levels + 1) (.table entries) = .ok (.tuple items) := by
  simp only [Record.readElement, htype, itemsOf_eq hitems, ok_bind, hread]
  rfl

theorem readElement_entries {values : List Value} {named : List Named}
    (htype : Table.field? "type" entries = some (.text "array"))
    (hitems : Table.field? "items" entries = some (.list values))
    (hread : values.mapM (fun v => (Record.namedWith (Record.readElement levels) v).mapError
      (StoreFault.within "array")) = .ok named) :
    Record.readElement (levels + 1) (.table entries) = .ok (.array named) := by
  simp only [Record.readElement, htype, itemsOf_eq hitems, ok_bind, hread]
  rfl

theorem readElement_set {members : List Member}
    (htype : Table.field? "type" entries = some (.text "set"))
    (hitems : Table.field? "items" entries =
      some (.list ((Member.records members).map (Value.reread change sorts indent))))
    (hsound : (Element.set members).Everywhere Sound)
    (hread : ∀ d ∈ (Element.set members).children,
      Record.readElement levels (d.record.reread change sorts indent) =
        .ok (d.reread change indent)) :
    Record.readElement (levels + 1) (.table entries) =
      .ok (.set (distinct Member.form (Member.rereads change indent members))) := by
  rw [Member.rereads_eq_map]
  refine readElement_members htype hitems ?_ (compatible_reread hsound indent)
  rw [Member.records_eq_map, List.map_map, List.mapM_map, List.map_map]
  refine mapM_eq_map fun m hm => memberWith_reread fun d hd => ?_
  obtain rfl := hd
  have hchild := Element.mem_children_of_member hm
  exact ⟨(hsound.inside hchild).here.known, hread d hchild⟩

theorem readElement_tuple {items : List Element}
    (htype : Table.field? "type" entries = some (.text "tuple"))
    (hitems : Table.field? "items" entries =
      some (.list ((Element.records items).map (Value.reread change sorts indent))))
    (hread : ∀ d ∈ items, Record.readElement levels (d.record.reread change sorts indent) =
      .ok (d.reread change indent)) :
    Record.readElement (levels + 1) (.table entries) =
      .ok (.tuple (Element.rereads change indent items)) := by
  refine readElement_items htype hitems ?_
  rw [Element.records_eq_map, List.map_map, List.mapM_map, Element.rereads_eq_map]
  exact mapM_eq_map hread

/-- A record of a name and an element is read as the two together. -/
theorem namedWith_table {read : Value → Except RecordFault Element} {name element : Value}
    {e : Element} (hname : Table.field? "name" entries = some name)
    (helement : Table.field? "element" entries = some element) (hread : read element = .ok e) :
    Record.namedWith read (.table entries) = .ok ⟨name, e⟩ := by
  simp only [Record.namedWith, Record.field?, Except.mapError, hname, helement, ok_bind, hread]
  rfl

theorem namedWith_reread {read : Value → Except RecordFault Element} {s : String}
    {e : Element}
    (hread : read (e.record.rereadBehind change sorts indent) =
      .ok (e.reread change (indent + 2))) :
    Record.namedWith read ((Binding.record ⟨.text s, e⟩).reread change sorts indent) =
      .ok ((Binding.mk (.text s) e).reread change indent) := by
  obtain ⟨entries, hentries, hname, helement⟩ :=
    @reread_pair change sorts "name" "element" (by decide) (by decide) (by decide)
      (.text s) e.record indent
  rw [Binding.record, hentries]
  exact namedWith_table hname helement hread

theorem readElement_array {named : List Named}
    (htype : Table.field? "type" entries = some (.text "array"))
    (hitems : Table.field? "items" entries =
      some (.list ((Binding.records named).map (Value.reread change sorts indent))))
    (hnames : ∀ n ∈ named, ∃ s, n.name = .text s)
    (hread : ∀ n ∈ named,
      Record.readElement levels (n.element.record.rereadBehind change sorts indent) =
        .ok (n.element.reread change (indent + 2))) :
    Record.readElement (levels + 1) (.table entries) =
      .ok (.array (Binding.rereads change indent named)) := by
  refine readElement_entries htype hitems ?_
  rw [Binding.records_eq_map, List.map_map, List.mapM_map, Binding.rereads_eq_map]
  refine mapM_eq_map fun n hn => ?_
  obtain ⟨s, hs⟩ := hnames n hn
  have helement := hread n hn
  obtain ⟨name, e⟩ := n
  obtain rfl : name = .text s := hs
  dsimp only at helement
  have hentry := @namedWith_reread change sorts indent _ s e helement
  simp only [Function.comp_apply, hentry]
  rfl

theorem record_mem_records {members : List Member} {d : Element}
    (h : d ∈ (Element.set members).children) : d.record ∈ Member.records members := by
  obtain ⟨m, hm, hd⟩ := List.mem_filterMap.1 h
  rw [Member.records_eq_map]
  cases m with
  | scalar | float => simp [Member.element?] at hd
  | element e =>
    obtain rfl : e = d := by simpa [Member.element?] using hd
    exact List.mem_map.2 ⟨_, hm, rfl⟩

theorem rereadBehind_record (e : Element) (indent : Nat) :
    e.record.rereadBehind change sorts indent = e.record.reread change sorts (indent + 2) := by
  cases e <;> rfl

/-- The record of an element is less deep than the record that holds it with its name. -/
theorem depth_of_named {n : Named}
    (h : (n.record.reread change sorts indent).depth ≤ levels) :
    (n.element.record.reread change sorts (indent + 2)).depth ≤ levels := by
  obtain ⟨name, e⟩ := n
  obtain ⟨table, htable, -, helement⟩ :=
    @reread_pair change sorts "name" "element" (by decide) (by decide) (by decide) name e.record
      indent
  rw [Binding.record, htable] at h
  rw [rereadBehind_record] at helement
  obtain ⟨k, hmem⟩ := mem_of_field? helement
  have hless := depth_of_mem_table hmem
  dsimp only at hless ⊢
  omega

/-- The record of a sound element, read with as many levels as it has, is the element with its
texts changed. -/
theorem readElement_reread (hchange : KeepsKeys change) {e : Element} (h : e.Everywhere Sound)
    {levels indent : Nat} (hlevels : (e.record.reread change sorts indent).depth ≤ levels) :
    Record.readElement levels (e.record.reread change sorts indent) =
      .ok (e.reread change indent) := by
  induction h generalizing levels indent with
  | @intro e here inside ih =>
    have hpositive : 0 < (e.record.reread change sorts indent).depth := by
      obtain ⟨type, key, content, hrecord⟩ := record_table here.known
      rw [hrecord]
      exact Nat.succ_pos _
    obtain ⟨levels, rfl⟩ : ∃ n, levels = n + 1 := Nat.exists_eq_add_one_of_ne_zero (by omega)
    cases e with
    | scalar s =>
      obtain ⟨entries, hentries, htype, hvalue⟩ :=
        @reread_typed change sorts hchange "scalar" "value" (by decide) (by decide) (by decide)
          s.toValue indent
      have hbehind : s.toValue.rereadBehind change sorts indent =
          (s.reread change (indent + 2)).toValue := by
        rw [← Scalar.toValue_reread]
        cases s <;> rfl
      rw [Element.record, hentries]
      exact readElement_scalar htype (hbehind ▸ hvalue)
    | float x =>
      obtain ⟨entries, hentries, htype, hvalue⟩ :=
        @reread_typed change sorts hchange "float" "value" (by decide) (by decide) (by decide)
          (.float (.finite x)) indent
      rw [Element.record, hentries]
      exact readElement_float htype hvalue
    | set members =>
      obtain ⟨entries, hentries, htype, hitems⟩ :=
        @reread_items change sorts hchange "set" (by decide) (Member.records members) indent
      rw [Element.record, hentries] at hlevels ⊢
      refine readElement_set htype hitems (.intro here inside) fun d hd => ih d hd ?_
      exact depth_of_items hitems (List.mem_map_of_mem (record_mem_records hd)) hlevels
    | tuple items =>
      obtain ⟨entries, hentries, htype, hitems⟩ :=
        @reread_items change sorts hchange "tuple" (by decide) (Element.records items) indent
      rw [Element.record, hentries] at hlevels ⊢
      refine readElement_tuple htype hitems fun d hd => ih d hd ?_
      exact depth_of_items hitems (List.mem_map_of_mem (record_mem_items hd)) hlevels
    | array named =>
      obtain ⟨entries, hentries, htype, hitems⟩ :=
        @reread_items change sorts hchange "array" (by decide) (Binding.records named) indent
      rw [Element.record, hentries] at hlevels ⊢
      have hnames : ∀ n ∈ named, ∃ s, n.name = .text s := fun n hn =>
        here.names n.name (List.mem_map_of_mem hn)
      refine readElement_array htype hitems hnames fun n hn => ?_
      have hdepth := depth_of_items hitems (List.mem_map_of_mem (record_mem_entries hn)) hlevels
      rw [rereadBehind_record]
      exact ih n.element (Element.mem_children_of_entry hn) (depth_of_named hdepth)
    | custom => exact absurd here.known (by simp [Element.isForeign])

end Reading

end ModelData
