import ModelData.Proofs.Record.Levels

/-!
Which fault is reported for a record. It is the first one in reading order: what a record is comes
before its children, the children come one after another, and what is made of them comes last. A
fault within a child that holds a record is the fault of that record, at any depth.
-/

namespace ModelData.Record

/-- The record that a child holds. -/
inductive Collection.Holds : Collection → Value → Value → Prop where
  | set (entries : List (Value × Value)) : Holds .set (.table entries) (.table entries)
  | tuple (v : Value) : Holds .tuple v v
  | array {entries : List (Value × Value)} {name v : Value}
      (hname : Table.field? "name" entries = some name)
      (helement : Table.field? "element" entries = some v) : Holds .array (.table entries) v

/-- What keeps a value from being a named element before its record is read. -/
inductive NoEntry : Value → StoreFault → Prop where
  | other {v : Value} {m : Misfit} (h : field? v "name" = .error m) : NoEntry v (.misfit m)
  | nameless {entries : List (Value × Value)} (h : Table.field? "name" entries = none) :
      NoEntry (.table entries) (.record (.missingNamedKey "name"))
  | bare {entries : List (Value × Value)} {name : Value}
      (hname : Table.field? "name" entries = some name)
      (h : Table.field? "element" entries = none) :
      NoEntry (.table entries) (.record (.missingNamedKey "element"))

/-- A child of a record, with all children before it read. -/
structure Reached (g : Collection) (entries : List (Value × Value)) (child : Value) : Prop where
  type : Table.field? "type" entries = some (.text g.type)
  items : ∃ before after, itemsOf g.type entries = .ok (before ++ child :: after) ∧
    ∀ c ∈ before, ∃ y, g.childWith toElement c = .ok y

/-- A record is read up to a record that one of its children holds. -/
inductive ReadUpTo : Value → Value → Prop where
  | intro {g : Collection} {entries : List (Value × Value)} {child w : Value}
      (reached : Reached g entries child) (holds : g.Holds child w) :
      ReadUpTo (.table entries) w

/-- The first fault of a record. -/
inductive FirstFault : Value → RecordFault → Prop where
  | other {v : Value} (h : v.kind ≠ .table) : FirstFault v (.notRecord v.kind)
  | untyped {entries : List (Value × Value)}
      (h : ∀ type ∈ types, Table.field? "type" entries ≠ some (.text type)) :
      FirstFault (.table entries)
        (.unsupportedType ((Table.field? "type" entries).getD .null).asText)
  | missing {entries : List (Value × Value)} {l : Literal}
      (type : Table.field? "type" entries = some (.text l.type))
      (h : Table.field? "value" entries = none) :
      FirstFault (.table entries) (.missingKey "value" l.type)
  | literal {entries : List (Value × Value)} {l : Literal} {v : Value} {m : Misfit}
      (type : Table.field? "type" entries = some (.text l.type))
      (value : Table.field? "value" entries = some v) (h : l.make v = .error m) :
      FirstFault (.table entries) (.invalid l.type m)
  | items {entries : List (Value × Value)} {g : Collection} {v : Value} {m : Misfit}
      (type : Table.field? "type" entries = some (.text g.type))
      (value : Table.field? "items" entries = some v) (h : v.items = .error m) :
      FirstFault (.table entries) (.invalid g.type m)
  | entry {entries : List (Value × Value)} {child : Value} {s : StoreFault}
      (reached : Reached .array entries child) (h : NoEntry child s) :
      FirstFault (.table entries) (s.within "array")
  | record {v w : Value} {f : RecordFault} (upTo : ReadUpTo v w) (h : FirstFault w f) :
      FirstFault v f
  /-- All children of a set are read, but they do not go together. -/
  | members {entries : List (Value × Value)} {values children : List Value} {m : Misfit}
      (type : Table.field? "type" entries = some (.text "set"))
      (items : itemsOf "set" entries = .ok values)
      (read : values.mapM (memberWith toElement) = .ok children)
      (h : Element.makeSet (.list children) = .error m) :
      FirstFault (.table entries) (.invalid "set" m)

section Children

variable {read : Value → Except RecordFault Element} {g : Collection} {child w : Value}
  {entries : List (Value × Value)} {f : RecordFault}

theorem Collection.Holds.depth_le (h : g.Holds child w) : w.depth ≤ child.depth := by
  cases h with
  | set | tuple => exact Nat.le_refl _
  | array _ helement =>
    obtain ⟨k, hmem⟩ := mem_of_field? helement
    exact Nat.le_of_lt (depth_of_mem_table hmem)

theorem ReadUpTo.depth_lt {v : Value} (h : ReadUpTo v w) : w.depth < v.depth := by
  obtain ⟨reached, holds⟩ := h
  obtain ⟨before, after, hitems, -⟩ := reached.items
  have hchild := depth_of_mem_itemsOf hitems (List.mem_append_right before List.mem_cons_self)
  exact Nat.lt_of_le_of_lt holds.depth_le hchild

theorem namedWith_noEntry {s : StoreFault} (h : NoEntry child s) :
    namedWith read child = .error s := by
  cases h with
  | other h =>
    rw [namedWith, h]
    rfl
  | nameless h => simp only [namedWith, field?, Except.mapError, ok_bind, h]
  | bare hname h => simp only [namedWith, field?, Except.mapError, ok_bind, hname, h]

theorem namedWith_entry {name : Value} (hname : Table.field? "name" entries = some name)
    (helement : Table.field? "element" entries = some w) :
    namedWith read (.table entries) = ((read w).mapError .record >>= fun e => .ok ⟨name, e⟩) := by
  simp only [namedWith, field?, Except.mapError, ok_bind, hname, helement]
  rfl

theorem noEntry_or_entry (v : Value) : (∃ s, NoEntry v s) ∨ ∃ entries name w,
    v = .table entries ∧ Table.field? "name" entries = some name ∧
      Table.field? "element" entries = some w := by
  cases v with
  | table entries =>
    cases hname : Table.field? "name" entries with
    | none => exact .inl ⟨_, .nameless hname⟩
    | some name =>
      cases helement : Table.field? "element" entries with
      | none => exact .inl ⟨_, .bare hname helement⟩
      | some w => exact .inr ⟨entries, name, w, rfl, hname, helement⟩
  | _ => exact .inl ⟨_, .other rfl⟩

/-- A value is no named element, or the record in it cannot be read. -/
theorem namedWith_eq_error_iff {s : StoreFault} :
    namedWith read child = .error s ↔ NoEntry child s ∨
      ∃ w f, Collection.array.Holds child w ∧ read w = .error f ∧ s = .record f := by
  constructor
  · intro h
    rcases noEntry_or_entry child with ⟨s', hnone⟩ | ⟨entries, name, w, rfl, hname, helement⟩
    · rw [namedWith_noEntry hnone] at h
      cases h
      exact .inl hnone
    · rw [namedWith_entry hname helement, bind_eq_error_iff, mapError_eq_error_iff] at h
      rcases h with ⟨f, hread, rfl⟩ | ⟨_, _, hok⟩
      · exact .inr ⟨w, f, .array hname helement, hread, rfl⟩
      · cases hok
  · rintro (h | ⟨w, f, holds, hread, rfl⟩)
    · exact namedWith_noEntry h
    · cases holds with
      | array hname helement =>
        rw [namedWith_entry hname helement, hread]
        rfl

/-- A child that cannot be read holds a record that cannot, or is no named element where there
should be one. -/
theorem childWith_eq_error_iff : g.childWith read child = .error f ↔
    (g = .array ∧ ∃ s, NoEntry child s ∧ s.within "array" = f) ∨
      ∃ w, g.Holds child w ∧ read w = .error f := by
  cases g with
  | set =>
    constructor
    · intro h
      cases child with
      | table entries =>
        rcases bind_eq_error_iff.1 h with h | ⟨_, _, hok⟩
        · exact .inr ⟨_, .set entries, h⟩
        · cases hok
      | _ => cases h
    · rintro (⟨hset, -⟩ | ⟨w, holds, hread⟩)
      · cases hset
      · cases holds with
        | set entries => exact bind_eq_error_iff.2 (.inl hread)
  | tuple =>
    rw [Collection.childWith, map_eq_error_iff]
    constructor
    · exact fun h => .inr ⟨child, .tuple child, h⟩
    · rintro (⟨htuple, -⟩ | ⟨w, holds, hread⟩)
      · cases htuple
      · cases holds
        exact hread
  | array =>
    rw [Collection.childWith, map_eq_error_iff, mapError_eq_error_iff]
    constructor
    · rintro ⟨s, hs, rfl⟩
      rcases namedWith_eq_error_iff.1 hs with hnone | ⟨w, f, holds, hread, rfl⟩
      · exact .inl ⟨rfl, s, hnone, rfl⟩
      · exact .inr ⟨w, holds, hread⟩
    · rintro (⟨-, s, hnone, rfl⟩ | ⟨w, holds, hread⟩)
      · exact ⟨s, namedWith_noEntry hnone, rfl⟩
      · exact ⟨.record f, namedWith_eq_error_iff.2 (.inr ⟨w, f, holds, hread, rfl⟩), rfl⟩

end Children

section Faults

variable {v w : Value} {f : RecordFault} {g : Collection} {entries : List (Value × Value)}

/-- A record with children fails at what is to be gone through, at a child, or when all children
are read. -/
theorem collection_eq_error_iff (htype : Table.field? "type" entries = some (.text g.type)) :
    toElement (.table entries) = .error f ↔ itemsOf g.type entries = .error f ∨
      (∃ child, Reached g entries child ∧ g.childWith toElement child = .error f) ∨
      ∃ values children m, itemsOf g.type entries = .ok values ∧
        values.mapM (g.childWith toElement) = .ok children ∧ g.make children = .error m ∧
        f = .invalid g.type m := by
  rw [toElement_collection htype, bind_eq_error_iff]
  refine or_congr_right ⟨?_, ?_⟩
  · rintro ⟨values, hitems, hvalues⟩
    rcases bind_eq_error_iff.1 hvalues with hread | ⟨children, hread, hmake⟩
    · obtain ⟨before, child, after, rfl, hbefore, hchild⟩ := mapM_eq_error_iff.1 hread
      exact .inl ⟨child, ⟨htype, before, after, hitems, hbefore⟩, hchild⟩
    · obtain ⟨m, hm, rfl⟩ := mapError_eq_error_iff.1 hmake
      exact .inr ⟨values, children, m, hitems, hread, hm, rfl⟩
  · rintro (⟨child, ⟨-, before, after, hitems, hbefore⟩, hchild⟩ |
      ⟨values, children, m, hitems, hread, hm, rfl⟩)
    · exact ⟨_, hitems, bind_eq_error_iff.2 (.inl
        (mapM_eq_error_iff.2 ⟨before, child, after, rfl, hbefore, hchild⟩))⟩
    · exact ⟨values, hitems, bind_eq_error_iff.2 (.inr
        ⟨children, hread, mapError_eq_error_iff.2 ⟨m, hm, rfl⟩⟩)⟩

/-- What is wrong with a record that is read up to a record inside is what is wrong with that
one. -/
theorem ReadUpTo.error (h : ReadUpTo v w) (hw : toElement w = .error f) :
    toElement v = .error f := by
  obtain ⟨reached, holds⟩ := h
  rw [collection_eq_error_iff reached.type]
  exact .inr (.inl ⟨_, reached, childWith_eq_error_iff.2 (.inr ⟨w, holds, hw⟩)⟩)

theorem FirstFault.error (h : FirstFault v f) : toElement v = .error f := by
  induction h with
  | other h => rw [toElement, readElement_other h]
  | untyped h => rw [toElement, readElement_untyped h]
  | missing type h =>
    rw [toElement, readElement_literal type, valueOf, h]
    rfl
  | literal type value h =>
    rw [toElement, readElement_literal type, valueOf, value, ok_bind, h]
    rfl
  | items type value h =>
    rw [collection_eq_error_iff type, itemsOf, value, Option.getD_some, h]
    exact .inl rfl
  | entry reached h =>
    rw [collection_eq_error_iff reached.type]
    exact .inr (.inl ⟨_, reached, childWith_eq_error_iff.2 (.inl ⟨rfl, _, h, rfl⟩)⟩)
  | record upTo _ ih => exact upTo.error ih
  | members type items read h =>
    rw [collection_eq_error_iff (g := .set) type]
    exact .inr (.inr ⟨_, _, _, items, read, h, rfl⟩)

/-- Tuples and arrays are always made of children that were read. -/
theorem set_of_make_error {values children : List Value} {m : Misfit}
    (hread : values.mapM (g.childWith toElement) = .ok children)
    (h : g.make children = .error m) : g = .set := by
  cases g with
  | set => rfl
  | tuple =>
    rw [mapM_childWith_tuple] at hread
    obtain ⟨parts, -, rfl⟩ := map_eq_ok_iff.1 hread
    cases (make_tuple parts).symm.trans h
  | array =>
    rw [mapM_childWith_array] at hread
    obtain ⟨entries, -, rfl⟩ := map_eq_ok_iff.1 hread
    cases (make_array entries).symm.trans h

theorem firstFault_of_error (h : toElement v = .error f) : FirstFault v f := by
  induction hdepth : v.depth using Nat.strongRecOn generalizing v f with | _ depth ih
  cases shape v with
  | other hkind =>
    rw [toElement, readElement_other hkind] at h
    cases h
    exact .other hkind
  | untyped htype =>
    rw [toElement, readElement_untyped htype] at h
    cases h
    exact .untyped htype
  | @literal entries l htype =>
    rw [toElement, readElement_literal htype, valueOf] at h
    cases hvalue : Table.field? "value" entries with
    | none =>
      rw [hvalue] at h
      cases h
      exact .missing htype hvalue
    | some v =>
      rw [hvalue, ok_bind] at h
      obtain ⟨m, hm, rfl⟩ := mapError_eq_error_iff.1 h
      exact .literal htype hvalue hm
  | @collection entries g htype =>
    rcases (collection_eq_error_iff htype).1 h with
      hitems | ⟨child, reached, hchild⟩ | ⟨values, children, m, hitems, hread, hmake, rfl⟩
    · obtain ⟨m, hm, rfl⟩ := mapError_eq_error_iff.1 hitems
      cases hvalue : Table.field? "items" entries with
      | none => rw [hvalue] at hm; cases hm
      | some v =>
        rw [hvalue] at hm
        exact .items htype hvalue hm
    · rcases childWith_eq_error_iff.1 hchild with ⟨rfl, s, hnone, rfl⟩ | ⟨w, holds, hw⟩
      · exact .entry reached hnone
      · have upTo : ReadUpTo (.table entries) w := ⟨reached, holds⟩
        exact .record upTo (ih w.depth (hdepth ▸ upTo.depth_lt) hw rfl)
    · obtain rfl := set_of_make_error hread hmake
      exact .members htype hitems hread hmake

theorem toElement_eq_error_iff : toElement v = .error f ↔ FirstFault v f :=
  ⟨firstFault_of_error, FirstFault.error⟩

end Faults

end ModelData.Record
