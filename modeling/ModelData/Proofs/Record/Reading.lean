import Mathlib.Logic.Relation
import ModelData.Proofs.Dat.Spacing
import ModelData.Proofs.Element.Sets
import ModelData.Proofs.Record.Elements
import ModelData.Proofs.Record.Faults

/-!
What reading a record comes to. Either the first fault is reported, and that of a record inside is
reported as it is; or there is an element, and from plain data every part of it was read from a
record further inside. So only known kinds occur in it, and it is no deeper than the data.
-/

namespace ModelData

/-- Data in which nothing is an element yet. -/
inductive Value.IsData : Value → Prop where
  | null : IsData .null
  | flag (b : Bool) : IsData (.flag b)
  | int (i : Int) : IsData (.int i)
  | float (x : Binary64) : IsData (.float x)
  | text (s : String) : IsData (.text s)
  | bytes (b : List UInt8) : IsData (.bytes b)
  | date (d : Date) : IsData (.date d)
  | moment (m : Moment) : IsData (.moment m)
  | unknown (kind : String) (label : Nat) : IsData (.unknown kind label)
  | list {items : List Value} (inside : ∀ v ∈ items, IsData v) : IsData (.list items)
  | tuple {items : List Value} (inside : ∀ v ∈ items, IsData v) : IsData (.tuple items)
  | stream {label : Nat} {items : List Value} (inside : ∀ v ∈ items, IsData v) :
      IsData (.stream label items)
  | table {entries : List (Value × Value)} (keys : ∀ e ∈ entries, IsData e.1)
      (inside : ∀ e ∈ entries, IsData e.2) : IsData (.table entries)

/-- The element in what a child of a record comes to. -/
def Value.held? : Value → Option Element
  | .element e => some e
  | .named n => some n.element
  | _ => none

namespace Value.IsData

variable {v w : Value} {values : List Value} {entries : List (Value × Value)}

theorem held? (h : v.IsData) : v.held? = none := by
  cases h <;> rfl

theorem field {name : String} (h : (Value.table entries).IsData)
    (hfield : Table.field? name entries = some v) : v.IsData := by
  cases h with
  | table _ inside =>
    obtain ⟨k, hmem⟩ := mem_of_field? hfield
    exact inside _ hmem

theorem items (h : v.IsData) (hitems : v.items = .ok values) (hw : w ∈ values) : w.IsData := by
  cases h with
  | list inside | tuple inside | stream inside =>
    cases hitems
    exact inside w hw
  | text s =>
    cases hitems
    obtain ⟨c, -, rfl⟩ := List.mem_map.1 hw
    exact .text _
  | bytes b =>
    cases hitems
    obtain ⟨x, -, rfl⟩ := List.mem_map.1 hw
    exact .int _
  | table keys =>
    cases hitems
    obtain ⟨e, he, rfl⟩ := List.mem_map.1 hw
    exact keys e he
  | _ => cases hitems

end Value.IsData

/-- A property of data that passes on to all that is looked up in it. -/
structure Value.Passed (p : Value → Prop) : Prop where
  isData {v : Value} (h : p v) : v.IsData
  field {entries : List (Value × Value)} {name : String} {v : Value} (h : p (.table entries))
    (hfield : Table.field? name entries = some v) : p v
  items {v w : Value} {values : List Value} (h : p v) (hitems : v.items = .ok values)
    (hw : w ∈ values) : p w

namespace Value.Passed

variable {p : Value → Prop} {v w : Value} {values : List Value} {entries : List (Value × Value)}

theorem itemsOf {type : String} (hp : Passed p) (h : p (.table entries))
    (hitems : Record.itemsOf type entries = .ok values) (hw : w ∈ values) : p w := by
  obtain ⟨items, hfield, hvalues⟩ := Record.exists_field_items hitems hw
  exact hp.items (hp.field h hfield) hvalues hw

theorem holds {g : Record.Collection} (hp : Passed p) (h : p v) (holds : g.Holds v w) : p w := by
  cases holds with
  | set | tuple => exact h
  | array _ helement => exact hp.field h helement

end Value.Passed

theorem Value.IsData.passed : Value.Passed Value.IsData :=
  ⟨id, .field, .items⟩

namespace Record

section Parts

variable {v w child y : Value} {children : List Value} {e d : Element} {g : Collection}
  {l : Literal}

/-- A named element was read from a table with a name and the record of an element. -/
theorem exists_entry {read : Value → Except RecordFault Element} {n : Named}
    (h : namedWith read v = .ok n) :
    ∃ entries w, v = .table entries ∧ Table.field? "name" entries = some n.name ∧
      Table.field? "element" entries = some w ∧ read w = .ok n.element := by
  rcases noEntry_or_entry v with ⟨s, hnone⟩ | ⟨entries, name, w, rfl, hname, helement⟩
  · rw [namedWith_noEntry hnone] at h
    cases h
  · rw [namedWith_entry hname helement] at h
    obtain ⟨e, he, h⟩ := bind_eq_ok h
    cases h
    exact ⟨entries, w, rfl, hname, helement, mapError_eq_ok_iff.1 he⟩

/-- The element in what a child comes to was read from the record that the child holds. -/
theorem exists_holds (hdata : child.IsData) (h : g.childWith toElement child = .ok y)
    (hd : y.held? = some d) : ∃ w, g.Holds child w ∧ toElement w = .ok d := by
  cases g with
  | set =>
    cases child with
    | table entries =>
      obtain ⟨e, he, hy⟩ := bind_eq_ok h
      cases hy
      cases hd
      exact ⟨_, .set entries, he⟩
    | _ =>
      cases h
      rw [hdata.held?] at hd
      cases hd
  | tuple =>
    obtain ⟨e, he, rfl⟩ := map_eq_ok_iff.1 h
    cases hd
    exact ⟨child, .tuple child, he⟩
  | array =>
    obtain ⟨n, hn, rfl⟩ := map_eq_ok_iff.1 h
    obtain ⟨entries, w, rfl, hname, helement, hread⟩ := exists_entry (mapError_eq_ok_iff.1 hn)
    cases hd
    exact ⟨w, .array hname helement, hread⟩

theorem exists_ofNearest {source : String} {x : Binary64}
    (h : Element.ofNearest source x = .ok e) : ∃ y, e = .float y := by
  cases x <;> cases h
  exact ⟨_, rfl⟩

theorem literal_of_make (h : l.make v = .ok e) : e.isForeign = false ∧ e.children = [] := by
  cases l with
  | scalar => cases v <;> cases h <;> exact ⟨rfl, rfl⟩
  | float =>
    cases v with
    | float x =>
      cases x <;> cases h
      exact ⟨rfl, rfl⟩
    | int i =>
      rw [Literal.make, Element.makeFloat] at h
      obtain ⟨x, rfl⟩ := exists_ofNearest h
      exact ⟨rfl, rfl⟩
    | _ => cases h

/-- What is made of children is of a known kind, and its parts are the elements in the
children. -/
theorem parts_of_make (h : g.make children = .ok e) :
    e.isForeign = false ∧ ∀ d ∈ e.children, ∃ y ∈ children, y.held? = some d := by
  cases g with
  | set =>
    obtain ⟨kept, rfl⟩ := exists_set h
    obtain ⟨made, rfl, -, rfl⟩ := exists_members rfl h
    refine ⟨rfl, fun d hd => ?_⟩
    obtain ⟨m, hm, hd⟩ := List.mem_filterMap.1 hd
    refine ⟨m.toValue, List.mem_map_of_mem (mem_of_mem_distinct hm), ?_⟩
    cases m <;> cases hd
    rfl
  | tuple =>
    obtain ⟨parts, rfl, rfl⟩ := Element.exists_parts rfl h
    exact ⟨rfl, fun d hd => ⟨_, List.mem_map_of_mem hd, rfl⟩⟩
  | array =>
    obtain ⟨entries, rfl, rfl⟩ := Element.exists_entries rfl h
    refine ⟨rfl, fun d hd => ?_⟩
    obtain ⟨n, hn, rfl⟩ := List.mem_map.1 hd
    exact ⟨_, List.mem_map_of_mem hn, rfl⟩

/-- What is read from data is of a known kind, and each part of it is read from a record further
inside. -/
theorem parts_of_toElement {p : Value → Prop} (hp : Value.Passed p) (hv : p v)
    (h : toElement v = .ok e) :
    e.isForeign = false ∧
      ∀ d ∈ e.children, ∃ w, p w ∧ w.depth < v.depth ∧ toElement w = .ok d := by
  cases shape v with
  | other hkind =>
    rw [toElement, readElement_other hkind] at h
    cases h
  | untyped htype =>
    rw [toElement, readElement_untyped htype] at h
    cases h
  | literal l htype =>
    rw [toElement, readElement_literal htype] at h
    obtain ⟨value, -, h⟩ := bind_eq_ok h
    obtain ⟨hknown, hnone⟩ := literal_of_make (mapError_eq_ok_iff.1 h)
    exact ⟨hknown, by simp [hnone]⟩
  | collection g htype =>
    rw [toElement_collection htype] at h
    obtain ⟨values, hitems, h⟩ := bind_eq_ok h
    obtain ⟨children, hread, h⟩ := bind_eq_ok h
    obtain ⟨hknown, hparts⟩ := parts_of_make (mapError_eq_ok_iff.1 h)
    refine ⟨hknown, fun d hd => ?_⟩
    obtain ⟨y, hy, hheld⟩ := hparts d hd
    obtain ⟨child, hchild, hy⟩ := exists_of_mapM hread hy
    have hpart := hp.itemsOf hv hitems hchild
    obtain ⟨w, holds, hw⟩ := exists_holds (hp.isData hpart) hy hheld
    exact ⟨w, hp.holds hpart holds,
      Nat.lt_of_le_of_lt holds.depth_le (depth_of_mem_itemsOf hitems hchild), hw⟩

theorem known_of_toElement (hdata : v.IsData) (h : toElement v = .ok e) :
    e.Everywhere (·.isForeign = false) := by
  induction hdepth : v.depth using Nat.strongRecOn generalizing v e with | _ depth ih
  obtain ⟨hknown, hparts⟩ := parts_of_toElement Value.IsData.passed hdata h
  refine .intro hknown fun d hd => ?_
  obtain ⟨w, hw, hless, hread⟩ := hparts d hd
  exact ih w.depth (hdepth ▸ hless) hw hread rfl

theorem depth_pos_of_toElement (h : toElement v = .ok e) : 0 < v.depth := by
  cases shape v with
  | other hkind =>
    rw [toElement, readElement_other hkind] at h
    cases h
  | untyped | literal | collection => exact Nat.succ_pos _

/-- What lies some levels inside an element was read that many levels inside the data. -/
theorem depth_of_atDepth {k : Nat} (hdata : v.IsData) (h : toElement v = .ok e)
    (hdeep : Element.AtDepth k d e) : k < v.depth := by
  induction hdeep generalizing v with
  | here => exact depth_pos_of_toElement h
  | inside hchild _ ih =>
    obtain ⟨w, hw, hless, hread⟩ := (parts_of_toElement Value.IsData.passed hdata h).2 _ hchild
    have hdeeper := ih hw hread
    omega

end Parts

section Writing

variable {v : Value} {e : Element} {width level : Int}

theorem exists_pretty_iff (h : e.Everywhere (·.isForeign = false)) :
    (∃ text, Dat.rendered true width level e = .ok text) ↔ Dat.Fits width level e := by
  rw [Dat.rendered_pretty, Dat.render, ← (Dat.obstacle?_pretty width level h).1]
  cases Dat.obstacle? (.pretty width level) e <;> simp

/-- Counts of spaces that are in range for the depth of the data are in range for what is read. -/
theorem fits_of_depth (hdata : v.IsData) (h : toElement v = .ok e) (hwidth : 0 ≤ width)
    (hlevel : 0 ≤ level) (hcount : width * (level + v.depth) < 2 ^ 63) :
    Dat.Fits width level e := by
  intro k d hdeep _
  have hdepth := depth_of_atDepth hdata h hdeep
  have hinner : width * (level + k + 1) ≤ width * (level + v.depth) :=
    mul_le_mul_of_nonneg_left (by omega) hwidth
  have houter : width * (level + k) ≤ width * (level + k + 1) :=
    mul_le_mul_of_nonneg_left (by omega) hwidth
  have hnonneg : 0 ≤ width * (level + k) := mul_nonneg hwidth (by omega)
  have hlimit : Dat.countLimit = 2 ^ 63 := rfl
  constructor <;> rw [Dat.isCount, Bool.and_eq_true, decide_eq_true_eq, decide_eq_true_eq, hlimit]
    <;> omega

end Writing

/-- Reading fails as the first fault of a record and in no other way, and a fault of a record
inside, reached when all before it is read, is the fault of the whole. What is read from data is of
known kinds throughout, has a record, and can be written on one line, and over lines wherever its
counts of spaces are in range. -/
theorem element_or_first_fault :
    (∀ v f, toElement v = .error f ↔ FirstFault v f) ∧
    (∀ v w f, Relation.ReflTransGen ReadUpTo v w → toElement w = .error f →
      toElement v = .error f) ∧
    ∀ v e, v.IsData → toElement v = .ok e →
      e.Everywhere (·.isForeign = false) ∧ (∃ r, ofElement e = .ok r) ∧
      (∀ width level, ∃ text, Dat.rendered false width level e = .ok text) ∧
      (∀ width level, (∃ text, Dat.rendered true width level e = .ok text) ↔
        Dat.Fits width level e) ∧
      ∀ width level : Int, 0 ≤ width → 0 ≤ level → width * (level + v.depth) < 2 ^ 63 →
        ∃ text, Dat.rendered true width level e = .ok text := by
  refine ⟨fun v f => toElement_eq_error_iff, fun v w f hchain hw => ?_, fun v e hdata h => ?_⟩
  · induction hchain using Relation.ReflTransGen.head_induction_on with
    | refl => exact hw
    | head upTo _ ih => exact upTo.error ih
  · have hknown := known_of_toElement hdata h
    refine ⟨hknown, ⟨_, ofElement_eq hknown⟩,
      fun width level => ⟨_, Dat.rendered_compact width level hknown⟩,
      fun width level => exists_pretty_iff hknown, fun width level hwidth hlevel hcount => ?_⟩
    exact (exists_pretty_iff hknown).2 (fits_of_depth hdata h hwidth hlevel hcount)

/-- A record of a scalar that lacks its value. -/
def hollow : Value :=
  .table [(.text "type", .text "scalar")]

/-- An array with a set as its only child. -/
def arrayOf (members : Value) : Value :=
  typed "array" "items" (.list
    [.table [(.text "name", .text "a"), (.text "element", typed "set" "items" members)]])

/-- The set in the array is read up to the third of its items. -/
theorem readUpTo_hollow :
    Relation.ReflTransGen ReadUpTo (arrayOf (.tuple [.int 1, hollow, .null])) hollow := by
  have hset : ReadUpTo (typed "set" "items" (.tuple [.int 1, hollow, .null])) hollow :=
    .intro (g := .set) ⟨rfl, [.int 1], [.null], rfl, by simp [Collection.childWith, memberWith]⟩
      (.set _)
  have harray : ReadUpTo (arrayOf (.tuple [.int 1, hollow, .null]))
      (typed "set" "items" (.tuple [.int 1, hollow, .null])) :=
    .intro (g := .array) ⟨rfl, [], [], rfl, by simp⟩
      (@Collection.Holds.array _ (.text "a") _ rfl rfl)
  exact .head harray (.single hset)

theorem isData_pair {a b : String} {v w : Value} (hv : v.IsData) (hw : w.IsData) :
    (Value.table [(.text a, v), (.text b, w)]).IsData := by
  refine .table ?_ ?_
  · simp only [List.forall_mem_cons]
    exact ⟨.text a, .text b, by simp⟩
  · simp only [List.forall_mem_cons]
    exact ⟨hv, hw, by simp⟩

theorem isData_arrayOf {members : Value} (h : members.IsData) : (arrayOf members).IsData := by
  refine isData_pair (.text _) (.list ?_)
  simp only [List.forall_mem_singleton]
  exact isData_pair (.text _) (isData_pair (.text _) h)

theorem element_or_first_fault_hollow :
    Relation.ReflTransGen ReadUpTo (arrayOf (.tuple [.int 1, hollow, .null])) hollow ∧
      toElement hollow = .error (.missingKey "value" "scalar") ∧
      toElement (arrayOf (.tuple [.int 1, hollow, .null])) =
        .error (.missingKey "value" "scalar") ∧
      (arrayOf (.list [.int 1])).IsData ∧
      ∃ e text, toElement (arrayOf (.list [.int 1])) = .ok e ∧
        Dat.rendered true 4 0 e = .ok text := by
  obtain ⟨-, hinside, hread⟩ := element_or_first_fault
  have hmissing : toElement hollow = .error (.missingKey "value" "scalar") := rfl
  have hdata : (arrayOf (.list [.int 1])).IsData :=
    isData_arrayOf (.list (by simpa using .int 1))
  have helement : toElement (arrayOf (.list [.int 1])) =
      .ok (.array [⟨.text "a", .set [.scalar (.int 1)]⟩]) := rfl
  obtain ⟨-, -, -, -, hpretty⟩ := hread _ _ hdata helement
  obtain ⟨text, htext⟩ := hpretty 4 0 (by decide) (by decide) (by decide)
  exact ⟨readUpTo_hollow, hmissing, hinside _ _ _ readUpTo_hollow hmissing, hdata, _, text,
    helement, htext⟩

end Record

end ModelData
