import ModelData.Proofs.Record.Faults

/-!
What loading a stored document comes to. The settings and the records of elements report faults of
their own. Nothing guards the places where a document is asked for its parts, its lines and its
elements are gone through, and a named element is asked for its name: a misfit there is reported
bare, while a named element of an array that is no table is reported as a fault of the array.
-/

namespace ModelData.Record

/-- A part of a stored document. -/
def part (name : String) (default : Value) (entries : List (Value × Value)) : Value :=
  (Table.field? name entries).getD default

/-- The settings and the lines of a stored document can be read. -/
structure Opened (entries : List (Value × Value)) : Prop where
  config : ∃ c, Config.ofValue (part "config" .null entries) = .ok c
  lines : ∃ lines, Document.linesOf (part "prefix_text" .null entries) = .ok lines

/-- A named element of a stored document, with all that comes before it read. -/
structure Listed (entries : List (Value × Value)) (child : Value) : Prop where
  opened : Opened entries
  items : ∃ before after,
    (part "elements" (.list []) entries).items = .ok (before ++ child :: after) ∧
      ∀ c ∈ before, ∃ n, toNamed c = .ok n

/-- A misfit in one of the places that nothing guards. -/
inductive Unguarded : Value → Misfit → Prop where
  | document {v : Value} (h : v.kind ≠ .table) : Unguarded v (.noMethod v.kind "get")
  | lines {entries : List (Value × Value)} {c : Config} {m : Misfit}
      (config : Config.ofValue (part "config" .null entries) = .ok c)
      (h : Document.linesOf (part "prefix_text" .null entries) = .error m) :
      Unguarded (.table entries) m
  | elements {entries : List (Value × Value)} {m : Misfit} (opened : Opened entries)
      (h : (part "elements" (.list []) entries).items = .error m) :
      Unguarded (.table entries) m
  | named {entries : List (Value × Value)} {child : Value} {m : Misfit}
      (listed : Listed entries child) (h : field? child "name" = .error m) :
      Unguarded (.table entries) m

/-- The first fault of a stored document. -/
inductive DocumentFault : Value → StoreFault → Prop where
  | unguarded {v : Value} {m : Misfit} (h : Unguarded v m) : DocumentFault v (.misfit m)
  | config {entries : List (Value × Value)} {f : ConfigFault}
      (h : Config.ofValue (part "config" .null entries) = .error f) :
      DocumentFault (.table entries) (.config f)
  | record {entries : List (Value × Value)} {child : Value} {f : RecordFault}
      (listed : Listed entries child) (h : toNamed child = .error (.record f)) :
      DocumentFault (.table entries) (.record f)

section Documents

variable {v child : Value} {entries : List (Value × Value)} {s : StoreFault} {m : Misfit}

/-- What is no table is reported as it is when it is asked for a name. -/
theorem misfit_of_toNamed_error (h : toNamed child = .error s) (hkind : child.kind ≠ .table) :
    ∃ m, field? child "name" = .error m ∧ s = .misfit m := by
  rcases namedWith_eq_error_iff.1 h with hnone | ⟨w, f, holds, -, -⟩
  · cases hnone with
    | other hfield => exact ⟨_, hfield, rfl⟩
    | nameless | bare => exact absurd rfl hkind
  · cases holds
    exact absurd rfl hkind

/-- A table that is no named element is reported as a faulty record. -/
theorem record_of_toNamed_error (h : toNamed (.table entries) = .error s) :
    ∃ f, s = .record f := by
  rcases namedWith_eq_error_iff.1 h with hnone | ⟨w, f, -, -, rfl⟩
  · cases hnone with
    | other hfield => cases hfield
    | nameless | bare => exact ⟨_, rfl⟩
  · exact ⟨f, rfl⟩

/-- The fault of the first named element that cannot be read is that of the document. -/
theorem Listed.documentFault (listed : Listed entries child) (h : toNamed child = .error s) :
    DocumentFault (.table entries) s := by
  by_cases hkind : child.kind = .table
  · obtain ⟨entries', rfl⟩ := Value.exists_table hkind
    obtain ⟨f, rfl⟩ := record_of_toNamed_error h
    exact .record listed h
  · obtain ⟨m, hfield, rfl⟩ := misfit_of_toNamed_error h hkind
    exact .unguarded (.named listed hfield)

theorem documentFault_of_error (h : toDocument v = .error s) : DocumentFault v s := by
  cases v with
  | table entries =>
    rcases bind_eq_error_iff.1 h with hconfig | ⟨c, hc, h⟩
    · obtain ⟨f, hf, rfl⟩ := mapError_eq_error_iff.1 hconfig
      exact .config hf
    rw [mapError_eq_ok_iff] at hc
    rcases bind_eq_error_iff.1 h with hlines | ⟨lines, hl, h⟩
    · obtain ⟨m, hm, rfl⟩ := mapError_eq_error_iff.1 hlines
      exact .unguarded (.lines hc hm)
    rw [mapError_eq_ok_iff] at hl
    have opened : Opened entries := ⟨⟨c, hc⟩, lines, hl⟩
    rcases bind_eq_error_iff.1 h with hitems | ⟨items, hi, h⟩
    · obtain ⟨m, hm, rfl⟩ := mapError_eq_error_iff.1 hitems
      exact .unguarded (.elements opened hm)
    rw [mapError_eq_ok_iff] at hi
    rcases bind_eq_error_iff.1 h with hread | ⟨_, _, hok⟩
    · obtain ⟨before, child, after, rfl, hbefore, hchild⟩ := mapM_eq_error_iff.1 hread
      have listed : Listed entries child := ⟨opened, before, after, hi, hbefore⟩
      exact listed.documentFault hchild
    · cases hok
  | _ =>
    cases h
    exact .unguarded (.document (by simp [Value.kind]))

/-- What is left to do for a stored document once its settings and lines are read. -/
theorem toDocument_opened (opened : Opened entries) : ∃ c lines,
    toDocument (.table entries) = (do
      let items ← (part "elements" (.list []) entries).items.mapError .misfit
      let elements ← items.mapM toNamed
      return ⟨elements, lines, part "pretty_printing" (.flag true) entries, c⟩) := by
  obtain ⟨⟨c, hc⟩, lines, hl⟩ := opened
  rw [part] at hc hl
  refine ⟨c, lines, ?_⟩
  simp only [toDocument, hc, hl, Except.mapError, ok_bind]
  rfl

theorem Listed.error (listed : Listed entries child) (h : toNamed child = .error s) :
    toDocument (.table entries) = .error s := by
  obtain ⟨before, after, hitems, hbefore⟩ := listed.items
  obtain ⟨c, lines, hrest⟩ := toDocument_opened listed.opened
  have hread := mapM_eq_error_iff.2 ⟨before, _, after, rfl, hbefore, h⟩
  rw [hrest, hitems]
  exact bind_eq_error_iff.2 (.inr ⟨_, rfl, bind_eq_error_iff.2 (.inl hread)⟩)

theorem Unguarded.error (h : Unguarded v m) : toDocument v = .error (.misfit m) := by
  cases h with
  | document h =>
    cases v with
    | table entries => exact absurd rfl h
    | _ => rfl
  | lines config h =>
    exact bind_eq_error_iff.2 (.inr ⟨_, mapError_eq_ok_iff.2 config,
      bind_eq_error_iff.2 (.inl (mapError_eq_error_iff.2 ⟨_, h, rfl⟩))⟩)
  | elements opened h =>
    obtain ⟨c, lines, hrest⟩ := toDocument_opened opened
    rw [hrest, h]
    rfl
  | named listed h => exact listed.error (namedWith_noEntry (.other h))

theorem DocumentFault.error (h : DocumentFault v s) : toDocument v = .error s := by
  cases h with
  | unguarded h => exact h.error
  | config h => exact bind_eq_error_iff.2 (.inl (mapError_eq_error_iff.2 ⟨_, h, rfl⟩))
  | record listed h => exact listed.error h

/-- Among the children of an array a fault is reported within the array. -/
theorem Reached.error (reached : Reached .array entries child) (h : toNamed child = .error s) :
    toElement (.table entries) = .error (s.within "array") := by
  rw [collection_eq_error_iff reached.type]
  refine .inr (.inl ⟨child, reached, ?_⟩)
  rw [Collection.childWith, map_eq_error_iff, mapError_eq_error_iff]
  exact ⟨s, h, rfl⟩

end Documents

/-- Loading comes to a document or to a fault of the settings or of a record just when nothing
misfits in the places that nothing guards. The first named element that cannot be read is reported
in a document as it is, and in an array within the array: that is the same for a table, but anything
else is reported bare in a document only. -/
theorem loaded_iff_guarded (v child : Value) :
    (((∃ d, toDocument v = .ok d) ∨ (∃ f, toDocument v = .error (.config f)) ∨
      ∃ f, toDocument v = .error (.record f)) ↔ ∀ m, ¬ Unguarded v m) ∧
    (∀ s, toDocument v = .error s ↔ DocumentFault v s) ∧
    ∀ s, toNamed child = .error s →
      (∀ entries, Listed entries child → toDocument (.table entries) = .error s) ∧
      (∀ entries, Reached .array entries child →
        toElement (.table entries) = .error (s.within "array")) ∧
      (child.kind = .table → ∃ f, s = .record f ∧ s.within "array" = f) ∧
      (child.kind ≠ .table → ∃ m, field? child "name" = .error m ∧ s = .misfit m ∧
        s.within "array" = .invalid "array" m) := by
  refine ⟨⟨fun hloaded m h => ?_, fun hguarded => ?_⟩,
    fun s => ⟨documentFault_of_error, DocumentFault.error⟩,
    fun s h => ⟨fun entries listed => listed.error h,
      fun entries reached => reached.error h, fun hkind => ?_, fun hkind => ?_⟩⟩
  · rw [h.error] at hloaded
    rcases hloaded with ⟨d, hd⟩ | ⟨f, hf⟩ | ⟨f, hf⟩
    · cases hd
    · cases hf
    · cases hf
  · cases hv : toDocument v with
    | ok d => exact .inl ⟨d, rfl⟩
    | error s =>
      cases documentFault_of_error hv with
      | unguarded h => exact absurd h (hguarded _)
      | config => exact .inr (.inl ⟨_, rfl⟩)
      | record => exact .inr (.inr ⟨_, rfl⟩)
  · obtain ⟨entries, rfl⟩ := Value.exists_table hkind
    obtain ⟨f, rfl⟩ := record_of_toNamed_error h
    exact ⟨f, rfl, rfl⟩
  · obtain ⟨m, hfield, rfl⟩ := misfit_of_toNamed_error h hkind
    exact ⟨m, hfield, rfl, rfl⟩

/-- The number five where a named element should be. -/
theorem loaded_iff_guarded_five :
    toNamed (.int 5) = .error (.misfit (.noField .int)) ∧
      Listed [(.text "elements", .list [.int 5])] (.int 5) ∧
      toDocument (.table [(.text "elements", .list [.int 5])]) =
        .error (.misfit (.noField .int)) ∧
      Reached .array [(.text "type", .text "array"), (.text "items", .list [.int 5])] (.int 5) ∧
      toElement (typed "array" "items" (.list [.int 5])) =
        .error (.invalid "array" (.noField .int)) ∧
      (∃ d, toDocument (.table []) = .ok d) ∧ ∀ m, ¬ Unguarded (.table []) m := by
  have hfive : toNamed (.int 5) = .error (.misfit (.noField .int)) := rfl
  have listed : Listed [(.text "elements", .list [.int 5])] (.int 5) :=
    ⟨⟨⟨_, rfl⟩, _, rfl⟩, [], [], rfl, by simp⟩
  have reached : Reached .array
      [(.text "type", .text "array"), (.text "items", .list [.int 5])] (.int 5) :=
    ⟨rfl, [], [], rfl, by simp⟩
  have hempty : ∃ d, toDocument (.table []) = .ok d := ⟨_, rfl⟩
  obtain ⟨hguarded, -, hnamed⟩ := loaded_iff_guarded (.table []) (.int 5)
  obtain ⟨hdocument, harray, -, -⟩ := hnamed _ hfive
  exact ⟨hfive, listed, hdocument _ listed, reached, harray _ reached, hempty,
    hguarded.1 (.inl hempty)⟩

end ModelData.Record
