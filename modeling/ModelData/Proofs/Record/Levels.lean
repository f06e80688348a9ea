import ModelData.Proofs.Element.Building
import ModelData.Proofs.Value.Stored
import ModelData.Record

/-!
Records within records. A record holds a value or children, and it is read by reading the records
in its children and making the element of what they come to. How many levels are allowed makes no
difference as long as they are enough, so the records inside are read as they would be alone.
-/

namespace ModelData

section Depths

variable {v w : Value} {values : List Value}

theorem depth_key_le_entryDepths {e : Value × Value} {entries : List (Value × Value)}
    (h : e ∈ entries) : e.1.depth ≤ Value.entryDepths entries := by
  induction entries with
  | nil => simp at h
  | cons d rest ih =>
    obtain ⟨k, v⟩ := d
    rw [Value.entryDepths]
    rcases List.mem_cons.1 h with rfl | h
    · dsimp only
      omega
    · have hle := ih h
      omega

/-- What a value yields is no deeper than the value. -/
theorem depth_of_mem_items (hitems : v.items = .ok values) (hw : w ∈ values) :
    w.depth ≤ v.depth := by
  cases v with
  | list items | tuple items | stream label items =>
    cases hitems
    exact Nat.le_succ_of_le (depth_le_depths hw)
  | text s =>
    cases hitems
    obtain ⟨c, -, rfl⟩ := List.mem_map.1 hw
    exact Nat.zero_le _
  | bytes b =>
    cases hitems
    obtain ⟨x, -, rfl⟩ := List.mem_map.1 hw
    exact Nat.zero_le _
  | table entries =>
    cases hitems
    obtain ⟨e, he, rfl⟩ := List.mem_map.1 hw
    exact Nat.le_succ_of_le (depth_key_le_entryDepths he)
  | _ => cases hitems

theorem Value.exists_table (h : v.kind = .table) : ∃ entries, v = .table entries := by
  cases v with
  | table entries => exact ⟨entries, rfl⟩
  | _ => simp [Value.kind] at h

end Depths

namespace Record

/-- The records that hold a value. -/
inductive Literal where
  | scalar
  | float

/-- The records that hold children. -/
inductive Collection where
  | set
  | tuple
  | array

namespace Literal

def type : Literal → String
  | .scalar => "scalar"
  | .float => "float"

def make : Literal → Value → Except Misfit Element
  | .scalar => Element.makeScalar
  | .float => Element.makeFloat

end Literal

namespace Collection

def type : Collection → String
  | .set => "set"
  | .tuple => "tuple"
  | .array => "array"

/-- What a child comes to, with a reader for the records in it. -/
def childWith (read : Value → Except RecordFault Element) :
    Collection → Value → Except RecordFault Value
  | .set, v => memberWith read v
  | .tuple, v => (read v).map .element
  | .array, v => ((namedWith read v).mapError (StoreFault.within "array")).map .named

def make : Collection → List Value → Except Misfit Element
  | .set, children => Element.makeSet (.list children)
  | .tuple, children => Element.makeTuple (.list children)
  | .array, children => Element.makeArray (.list children)

end Collection

/-- The types that a record can have. -/
def types : List String :=
  ["scalar", "float", "set", "tuple", "array"]

/-- What a value is as a record. -/
inductive Shape : Value → Prop where
  | other {v : Value} (h : v.kind ≠ .table) : Shape v
  | untyped {entries : List (Value × Value)}
      (h : ∀ type ∈ types, Table.field? "type" entries ≠ some (.text type)) :
      Shape (.table entries)
  | literal {entries : List (Value × Value)} (l : Literal)
      (h : Table.field? "type" entries = some (.text l.type)) : Shape (.table entries)
  | collection {entries : List (Value × Value)} (g : Collection)
      (h : Table.field? "type" entries = some (.text g.type)) : Shape (.table entries)

theorem shape (v : Value) : Shape v := by
  cases v with
  | table entries =>
    by_cases h : ∀ type ∈ types, Table.field? "type" entries ≠ some (.text type)
    · exact .untyped h
    · push Not at h
      obtain ⟨type, hmem, htype⟩ := h
      simp only [types, List.mem_cons, List.not_mem_nil, or_false] at hmem
      rcases hmem with rfl | rfl | rfl | rfl | rfl
      · exact .literal .scalar htype
      · exact .literal .float htype
      · exact .collection .set htype
      · exact .collection .tuple htype
      · exact .collection .array htype
  | _ => exact .other (by simp [Value.kind])

section Reading

variable {read read' : Value → Except RecordFault Element} {v : Value}
  {entries : List (Value × Value)} {levels : Nat}

theorem readElement_other (h : v.kind ≠ .table) :
    readElement levels v = .error (.notRecord v.kind) := by
  cases v with
  | table entries => exact absurd rfl h
  | _ => cases levels <;> rfl

theorem readElement_untyped
    (h : ∀ type ∈ types, Table.field? "type" entries ≠ some (.text type)) :
    readElement (levels + 1) (.table entries) =
      .error (.unsupportedType ((Table.field? "type" entries).getD .null).asText) := by
  simp only [types, List.forall_mem_cons] at h
  obtain ⟨hscalar, hfloat, hset, htuple, harray, -⟩ := h
  rw [readElement.eq_def]
  dsimp only
  split
  · next heq => exact absurd heq hscalar
  · next heq => exact absurd heq hfloat
  · next heq => exact absurd heq hset
  · next heq => exact absurd heq htuple
  · next heq => exact absurd heq harray
  · rfl

theorem readElement_literal {l : Literal}
    (htype : Table.field? "type" entries = some (.text l.type)) :
    readElement (levels + 1) (.table entries) =
      (valueOf l.type entries >>= fun v => (l.make v).mapError (.invalid l.type)) := by
  cases l <;> simp only [Literal.type] at htype <;> simp only [readElement, htype] <;> rfl

theorem mapM_childWith_tuple (values : List Value) :
    values.mapM (Collection.tuple.childWith read) = (values.mapM read).map (List.map .element) :=
  mapM_map_result values

theorem mapM_childWith_array (values : List Value) :
    values.mapM (Collection.array.childWith read) =
      (values.mapM fun v => (namedWith read v).mapError (StoreFault.within "array")).map
        (List.map .named) :=
  mapM_map_result values

theorem make_tuple (parts : List Element) :
    Collection.tuple.make (parts.map .element) = .ok (.tuple parts) :=
  Element.makeTuple_of_elements rfl

theorem make_array (entries : List Named) :
    Collection.array.make (entries.map .named) = .ok (.array entries) :=
  Element.makeArray_of_entries rfl

theorem readElement_collection {g : Collection}
    (htype : Table.field? "type" entries = some (.text g.type)) :
    readElement (levels + 1) (.table entries) = (do
      let children ← (← itemsOf g.type entries).mapM (g.childWith (readElement levels))
      (g.make children).mapError (.invalid g.type)) := by
  cases g with
  | set =>
    simp only [Collection.type] at htype
    simp only [readElement, htype]
    rfl
  | tuple =>
    simp only [Collection.type] at htype
    simp only [readElement, htype, Collection.type, mapM_childWith_tuple]
    refine congrArg _ (funext fun values => ?_)
    cases values.mapM (readElement levels) with
    | error f => rfl
    | ok parts => simp only [Except.map, ok_bind, make_tuple]; rfl
  | array =>
    simp only [Collection.type] at htype
    simp only [readElement, htype, Collection.type, mapM_childWith_array]
    refine congrArg _ (funext fun values => ?_)
    cases values.mapM fun v =>
        (namedWith (readElement levels) v).mapError (StoreFault.within "array") with
    | error f => rfl
    | ok named => simp only [Except.map, ok_bind, make_array]; rfl

/-- Items of a record stand under its key, since without the key there are none. -/
theorem exists_field_items {type : String} {values : List Value} {w : Value}
    (h : itemsOf type entries = .ok values) (hw : w ∈ values) :
    ∃ items, Table.field? "items" entries = some items ∧ items.items = .ok values := by
  rw [itemsOf, mapError_eq_ok_iff] at h
  cases hfield : Table.field? "items" entries with
  | none =>
    rw [hfield] at h
    cases h
    simp at hw
  | some items =>
    rw [hfield] at h
    exact ⟨items, rfl, h⟩

theorem depth_of_mem_itemsOf {type : String} {values : List Value} {w : Value}
    (h : itemsOf type entries = .ok values) (hw : w ∈ values) :
    w.depth < (Value.table entries).depth := by
  obtain ⟨items, hfield, hitems⟩ := exists_field_items h hw
  obtain ⟨k, hmem⟩ := mem_of_field? hfield
  exact Nat.lt_of_le_of_lt (depth_of_mem_items hitems hw) (depth_of_mem_table hmem)

theorem namedWith_congr (h : ∀ w, w.depth ≤ v.depth → read w = read' w) :
    namedWith read v = namedWith read' v := by
  cases v with
  | table entries =>
    simp only [namedWith, field?, Except.mapError, ok_bind]
    cases Table.field? "name" entries with
    | none => rfl
    | some name =>
      cases helement : Table.field? "element" entries with
      | none => rfl
      | some element =>
        obtain ⟨k, hmem⟩ := mem_of_field? helement
        simp only [h element (Nat.le_of_lt (depth_of_mem_table hmem))]
  | _ => rfl

/-- A child is read only through the records in it. -/
theorem childWith_congr (g : Collection) (h : ∀ w, w.depth ≤ v.depth → read w = read' w) :
    g.childWith read v = g.childWith read' v := by
  cases g with
  | set =>
    cases v with
    | table entries => simp only [Collection.childWith, memberWith, h _ (Nat.le_refl _)]
    | _ => rfl
  | tuple => rw [Collection.childWith, Collection.childWith, h v (Nat.le_refl _)]
  | array => rw [Collection.childWith, Collection.childWith, namedWith_congr h]

/-- Any number of levels that is enough will do. -/
theorem readElement_stable {levels' : Nat} (h : v.depth < levels) (h' : v.depth < levels') :
    readElement levels v = readElement levels' v := by
  induction levels generalizing v levels' with
  | zero => omega
  | succ levels ih =>
    obtain ⟨levels', rfl⟩ := Nat.exists_eq_succ_of_ne_zero (Nat.ne_zero_of_lt h')
    cases shape v with
    | other hkind => rw [readElement_other hkind, readElement_other hkind]
    | untyped htype => rw [readElement_untyped htype, readElement_untyped htype]
    | literal l htype => rw [readElement_literal htype, readElement_literal htype]
    | @collection entries g htype =>
      rw [readElement_collection htype, readElement_collection htype]
      cases hitems : itemsOf g.type entries with
      | error f => rfl
      | ok values =>
        rw [ok_bind, ok_bind, mapM_congr fun c hc => childWith_congr g fun w hw => ?_]
        have hless := depth_of_mem_itemsOf hitems hc
        exact ih (by omega) (by omega)

/-- The children of a record are read as they would be alone. -/
theorem toElement_collection {g : Collection}
    (htype : Table.field? "type" entries = some (.text g.type)) :
    toElement (.table entries) = (do
      let children ← (← itemsOf g.type entries).mapM (g.childWith toElement)
      (g.make children).mapError (.invalid g.type)) := by
  rw [toElement, readElement_collection htype]
  cases hitems : itemsOf g.type entries with
  | error f => rfl
  | ok values =>
    rw [ok_bind, ok_bind, mapM_congr fun c hc => childWith_congr g fun w hw => ?_]
    have hless := depth_of_mem_itemsOf hitems hc
    exact readElement_stable (by omega) (Nat.lt_succ_self _)

end Reading

end Record

end ModelData
