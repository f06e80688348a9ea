import ModelData.Proofs.Record.Lossless
import ModelData.Proofs.Record.Reading

/-!
What is decoded was built. An element that is read from data was made by the builders from parts
that they made, and its names stood in the data; so did the lines and the flag of a document, or
they are the usual ones. Whatever passes on to all that is looked up in the data holds of them.
-/

namespace ModelData

namespace Record

variable {p : Value → Prop} {v : Value} {e : Element} {g : Collection} {children : List Value}

theorem built_of_literal {l : Literal} (h : l.make v = .ok e) : Built e ∧ e.keys = [] := by
  cases l with
  | scalar => cases v <;> cases h <;> exact ⟨.scalar _, rfl⟩
  | float =>
    cases v with
    | float x =>
      cases x <;> cases h
      exact ⟨.float _, rfl⟩
    | int i =>
      rw [Literal.make, Element.makeFloat] at h
      obtain ⟨x, rfl⟩ := exists_ofNearest h
      exact ⟨.float x, rfl⟩
    | _ => cases h

/-- What is made of children whose elements were built is built. -/
theorem built_of_make (h : g.make children = .ok e) (inside : ∀ d ∈ e.children, Built d) :
    Built e := by
  cases g with
  | set =>
    obtain ⟨kept, rfl⟩ := exists_set h
    exact .set h fun d hd => inside d (Element.mem_children_of_member hd)
  | tuple =>
    obtain ⟨parts, rfl, -⟩ := Element.exists_parts rfl h
    exact .tuple inside
  | array =>
    obtain ⟨entries, rfl, -⟩ := Element.exists_entries rfl h
    exact .array fun n hn => inside n.element (Element.mem_children_of_entry hn)

/-- Only arrays have names, and these are those of the named elements that their children come
to. -/
theorem exists_child_of_key (h : g.make children = .ok e) {name : Value} (hname : name ∈ e.keys) :
    g = .array ∧ ∃ n : Named, n.name = name ∧ .named n ∈ children := by
  cases g with
  | set =>
    obtain ⟨kept, rfl⟩ := exists_set h
    cases hname
  | tuple =>
    obtain ⟨parts, rfl, -⟩ := Element.exists_parts rfl h
    cases hname
  | array =>
    obtain ⟨entries, rfl, rfl⟩ := Element.exists_entries rfl h
    obtain ⟨n, hn, rfl⟩ := List.mem_map.1 (show name ∈ entries.map (·.name) from hname)
    exact ⟨rfl, n, rfl, List.mem_map_of_mem hn⟩

theorem names_of_toElement (hp : Value.Passed p) (hv : p v) (h : toElement v = .ok e) :
    ∀ name ∈ e.keys, p name := by
  intro name hname
  cases shape v with
  | other hkind =>
    rw [toElement, readElement_other hkind] at h
    cases h
  | untyped htype =>
    rw [toElement, readElement_untyped htype] at h
    cases h
  | literal l htype =>
    rw [toElement, readElement_literal htype] at h
    obtain ⟨value, -, h⟩ := bind_eq_ok h
    rw [(built_of_literal (mapError_eq_ok_iff.1 h)).2] at hname
    cases hname
  | collection g htype =>
    rw [toElement_collection htype] at h
    obtain ⟨values, hitems, h⟩ := bind_eq_ok h
    obtain ⟨children, hread, h⟩ := bind_eq_ok h
    obtain ⟨rfl, n, rfl, hn⟩ := exists_child_of_key (mapError_eq_ok_iff.1 h) hname
    obtain ⟨child, hchild, hn⟩ := exists_of_mapM hread hn
    obtain ⟨m, hm, heq⟩ := map_eq_ok_iff.1 hn
    cases heq
    obtain ⟨entries, w, rfl, hfield, -⟩ := exists_entry (mapError_eq_ok_iff.1 hm)
    exact hp.field (hp.itemsOf hv hitems hchild) hfield

theorem built_of_parts (h : toElement v = .ok e) (inside : ∀ d ∈ e.children, Built d) :
    Built e := by
  cases shape v with
  | other hkind =>
    rw [toElement, readElement_other hkind] at h
    cases h
  | untyped htype =>
    rw [toElement, readElement_untyped htype] at h
    cases h
  | literal l htype =>
    rw [toElement, readElement_literal htype] at h
    obtain ⟨value, -, h⟩ := bind_eq_ok h
    exact (built_of_literal (mapError_eq_ok_iff.1 h)).1
  | collection g htype =>
    rw [toElement_collection htype] at h
    obtain ⟨values, -, h⟩ := bind_eq_ok h
    obtain ⟨children, -, h⟩ := bind_eq_ok h
    exact built_of_make (mapError_eq_ok_iff.1 h) inside

/-- An element that is read from data was built, and its names stood in the data. -/
theorem built_of_toElement (hp : Value.Passed p) (hv : p v) (h : toElement v = .ok e) :
    Built e ∧ e.Everywhere fun d => ∀ name ∈ d.keys, p name := by
  induction hdepth : v.depth using Nat.strongRecOn generalizing v e with | _ depth ih
  have hinside : ∀ d ∈ e.children,
      Built d ∧ d.Everywhere fun d => ∀ name ∈ d.keys, p name := by
    intro d hd
    obtain ⟨w, hw, hless, hread⟩ := (parts_of_toElement hp hv h).2 d hd
    exact ih w.depth (hdepth ▸ hless) hw hread rfl
  exact ⟨built_of_parts h fun d hd => (hinside d hd).1,
    .intro (names_of_toElement hp hv h) fun d hd => (hinside d hd).2⟩

end Record

/-- A document of elements that were built, in which names, lines and flag have a property. -/
structure Document.Carries (p : Value → Prop) (d : Document) : Prop where
  built : ∀ n ∈ d.elements, Built n.element
  names : ∀ n ∈ d.elements, p n.name
  keys : ∀ n ∈ d.elements, n.element.Everywhere fun e => ∀ name ∈ e.keys, p name
  lines : ∀ line ∈ d.headerLines, p line
  pretty : p d.pretty

namespace Record

variable {p : Value → Prop} {v : Value} {entries : List (Value × Value)}

theorem passed_field (hp : Value.Passed p) (h : p (.table entries)) {name : String}
    {default : Value} (hdefault : p default) : p ((Table.field? name entries).getD default) := by
  cases hfield : Table.field? name entries with
  | none => exact hdefault
  | some w => exact hp.field h hfield

theorem passed_lines (hp : Value.Passed p) (h : p v) {lines : List Value}
    (hlines : Document.linesOf v = .ok lines) : ∀ line ∈ lines, p line := by
  cases v with
  | null =>
    cases hlines
    simp
  | text s =>
    cases hlines
    simpa using h
  | _ => exact fun line hline => hp.items h hlines hline

/-- A document that is read from data carries what passes on in it. -/
theorem carries_of_toDocument (hp : Value.Passed p) (hnull : p .null) (hflag : p (.flag true))
    (hempty : p (.list [])) (h : p v) {d : Document} (hread : toDocument v = .ok d) :
    d.Carries p := by
  cases v with
  | table entries =>
    obtain ⟨config, -, hread⟩ := bind_eq_ok hread
    obtain ⟨headerLines, hlines, hread⟩ := bind_eq_ok hread
    obtain ⟨items, hitems, hread⟩ := bind_eq_ok hread
    obtain ⟨elements, helements, hread⟩ := bind_eq_ok hread
    cases hread
    have hentry : ∀ n ∈ elements, p n.name ∧ Built n.element ∧
        n.element.Everywhere fun e => ∀ name ∈ e.keys, p name := by
      intro n hn
      obtain ⟨child, hchild, hn⟩ := exists_of_mapM helements hn
      obtain ⟨fields, w, rfl, hname, helement, hw⟩ := exists_entry hn
      have hfields := hp.items (passed_field hp h hempty) (mapError_eq_ok_iff.1 hitems) hchild
      exact ⟨hp.field hfields hname, built_of_toElement hp (hp.field hfields helement) hw⟩
    exact ⟨fun n hn => (hentry n hn).2.1, fun n hn => (hentry n hn).1,
      fun n hn => (hentry n hn).2.2,
      passed_lines hp (passed_field hp h hnull) (mapError_eq_ok_iff.1 hlines),
      passed_field hp h hflag⟩
  | _ => cases hread

end Record

end ModelData
