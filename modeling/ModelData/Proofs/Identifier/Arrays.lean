import ModelData.Proofs.Element.Building
import ModelData.Proofs.Identifier.Names
import ModelData.Proofs.Identifier.Numbering
import ModelData.Proofs.Report.Clean

/-!
Arrays whose entries are numbered. Each distinct object has one entry, named by the index at which
the object last occurs. The indices of distinct objects differ, and with them the names, however
the counters are filled up; so there is nothing wrong with the names of such an array.
-/

namespace ModelData

section Mapping

variable {mapper : Value → Except Misfit Value} {ids : List (Value × Value)}

/-- If the mapper answers with elements, each object is mapped once, in the order of the table. -/
theorem Assembly.entries_eq {content : Value → Element}
    (h : ∀ e ∈ ids, mapper e.1 = .ok (.element (content e.1))) :
    entries mapper ids = (ids.map (·.1), .ok (ids.map fun e => ⟨e.2, content e.1⟩)) := by
  induction ids with
  | nil => rfl
  | cons e rest ih =>
    obtain ⟨object, id⟩ := e
    have hobject : mapper object = .ok (.element (content object)) := h _ List.mem_cons_self
    have hrest := ih fun e he => h e (List.mem_cons_of_mem _ he)
    simp only [entries, hobject, ok_bind, Named.make, hrest, Except.map, List.map_cons]

theorem Assembly.array_eq (content : Value → Element) (name : Value)
    (h : ∀ e ∈ ids, mapper e.1 = .ok (.element (content e.1))) :
    array name (.table ids) mapper =
      ⟨ids.map (·.1), .ok ⟨name, .array (ids.map fun e => ⟨e.2, content e.1⟩)⟩⟩ := by
  simp only [array, entries_eq h, Except.map]

theorem Assembly.tupleArray_eq (parts : Value → List Element) (name : Value)
    (h : ∀ e ∈ ids, ∃ w, mapper e.1 = .ok w ∧
      w.itemsFor .tuple = .ok ((parts e.1).map .element)) :
    tupleArray name (.table ids) mapper =
      ⟨ids.map (·.1), .ok ⟨name, .array (ids.map fun e => ⟨e.2, .tuple (parts e.1)⟩)⟩⟩ := by
  refine array_eq (fun o => .tuple (parts o)) name fun e he => ?_
  obtain ⟨w, hw, hparts⟩ := h e he
  rw [hw, ok_bind, Element.makeTuple_of_elements hparts]
  rfl

end Mapping

namespace Report

variable {entries : List Named} {path : List Char}

/-- Entries with names that are identifiers and do not repeat can only be of unequal kinds or
lengths. -/
theorem arrayFindings_of_names (hnames : ∀ n ∈ entries, ∃ s, n.name = .text s)
    (hvalid : ∀ n ∈ entries, Identifier.isValid n.name = true)
    (hnodup : (entries.map (·.name)).Nodup) :
    arrayFindings path entries =
      if differ (entries.map fun n => n.element.kind) then [.mixedKinds path]
      else if (entries.map fun n => n.element.kind).contains .tuple &&
        differ (entries.map fun n => n.element.count?) then [.unequalTuples path]
      else [] := by
  have hrepeated : repeated (entries.map (·.name)) = [] :=
    (repeated_eq_nil_iff (List.forall_mem_map.2 hnames)).2 hnodup
  rw [arrayFindings, hrepeated, invalid_eq_nil_iff.2 hvalid]
  rfl

end Report

namespace Identifier

open Report

variable {stem : String} {width : Nat} {objects : List Value} {ids : List (Value × Value)}
  {write : Value → Nat → Value} {content : Value → Element} {entries : List Named}

/-- If what is written tells the index, what distinct objects are given differs. -/
theorem Collapsed.nodup (h : Collapsed write objects ids)
    (hwrite : ∀ o o' i j, write o i = write o' j → i = j) : (ids.map (·.2)).Nodup := by
  have hkeys : ((ids.map (·.1)).map Value.form).Nodup := by
    rw [h.keys]
    exact nodup_distinctFrom [] objects
  rw [List.map_map, List.Nodup, List.pairwise_map] at hkeys
  rw [List.Nodup, List.pairwise_map]
  refine hkeys.imp_of_mem fun {d e} hd he hne heq => hne ?_
  obtain ⟨i, o, hdlast, hdwritten⟩ := h.written d hd
  obtain ⟨j, o', helast, hewritten⟩ := h.written e he
  have hindex : i = j := hwrite o o' i j (hdwritten.symm.trans (heq.trans hewritten))
  exact hdlast.form_eq (hindex ▸ helast)

/-- The entries of an array in which distinct objects are numbered. -/
structure Numbered (stem : String) (width : Nat) (objects : List Value)
    (content : Value → Element) (entries : List Named) : Prop where
  /-- One for each distinct object, named by the index at which the object last occurs. -/
  counted : List.Forall₂
    (fun o n => ∃ index last s, LastOf objects o index last ∧
      counterOf (.text stem) (.int index) (.int width) = .ok s ∧
      n = ⟨.text s, content o⟩)
    (distinct Value.form objects) entries
  distinctNames : (entries.map (·.name)).Nodup
  names : ∀ n ∈ entries, ∃ s, n.name = .text s ∧ isName s.toList = true

theorem Numbered.texts (h : Numbered stem width objects content entries) :
    ∀ n ∈ entries, ∃ s, n.name = .text s :=
  fun n hn => (h.names n hn).imp fun _ => And.left

theorem Numbered.valid (h : Numbered stem width objects content entries) :
    ∀ n ∈ entries, isValid n.name = true := by
  intro n hn
  obtain ⟨s, hs, hname⟩ := h.names n hn
  exact hs ▸ isValid_of_isName hname

theorem Numbered.elements (h : Numbered stem width objects content entries) :
    entries.map (·.element) = (distinct Value.form objects).map content := by
  rw [eq_comm, ← List.forall₂_eq_eq_eq, List.forall₂_map_left_iff, List.forall₂_map_right_iff]
  refine h.counted.imp fun o n hn => ?_
  obtain ⟨-, -, s, -, -, rfl⟩ := hn
  rfl

theorem Numbered.forall_element_iff {P : Element → Prop}
    (h : Numbered stem width objects content entries) :
    (∀ n ∈ entries, P n.element) ↔ ∀ o ∈ distinct Value.form objects, P (content o) := by
  rw [← List.forall_mem_map, h.elements, List.forall_mem_map]

theorem Collapsed.numbered (hstem : stem = "" ∨ isName stem.toList = true)
    (hwidth : width < CounterForm.countLimit)
    (h : Collapsed (fun _ index => .text (numbered stem width index)) objects ids) :
    Numbered stem width objects content (ids.map fun e => ⟨e.2, content e.1⟩) where
  counted := by
    rw [← h.keys, List.forall₂_map_left_iff, List.forall₂_map_right_iff, List.forall₂_same]
    intro e he
    obtain ⟨index, last, hlast, hwritten⟩ := h.written e he
    exact ⟨index, last, _, hlast, counterOf_int hwidth index, by rw [hwritten]⟩
  distinctNames := by
    rw [List.map_map]
    refine h.nodup fun _ _ i j heq => ?_
    exact numbered_injective stem width (Value.text.inj heq)
  names := by
    rw [List.forall_mem_map]
    intro e he
    obtain ⟨index, -, -, hwritten⟩ := h.written e he
    exact ⟨_, hwritten, isName_numbered hstem index⟩

/-- What is wrong with an array of numbered entries is not in their names. -/
theorem Numbered.found (h : Numbered stem width objects content entries) (path : List Char) :
    ∀ f ∈ arrayFindings path entries, f = .mixedKinds path ∨ f = .unequalTuples path := by
  intro f hf
  rw [arrayFindings_of_names h.texts h.valid h.distinctNames] at hf
  split at hf
  · exact .inl (List.mem_singleton.1 hf)
  · split at hf
    · exact .inr (List.mem_singleton.1 hf)
    · cases hf

/-- All that can be found in an array of numbered tuples is that two of them differ in length. -/
theorem Numbered.found_iff {parts : Value → List Element}
    (h : Numbered stem width objects (fun o => .tuple (parts o)) entries) (path : List Char)
    (f : Finding) :
    f ∈ arrayFindings path entries ↔ f = .unequalTuples path ∧
      ∃ o ∈ distinct Value.form objects, ∃ o' ∈ distinct Value.form objects,
        (parts o).length ≠ (parts o').length := by
  have htuple : ∀ n ∈ entries, n.element.kind = .tuple :=
    (h.forall_element_iff (P := fun e => e.kind = .tuple)).2 fun _ _ => rfl
  have hone : ∀ n ∈ entries, ∀ m ∈ entries, n.element.kind = m.element.kind :=
    fun n hn m hm => (htuple n hn).trans (htuple m hm).symm
  have hlengths : (∀ n ∈ entries, ∀ m ∈ entries, n.element.count? = m.element.count?) ↔
      ∀ o ∈ distinct Value.form objects, ∀ o' ∈ distinct Value.form objects,
        (parts o).length = (parts o').length := by
    rw [h.forall_element_iff (P := fun e => ∀ m ∈ entries, e.count? = m.element.count?)]
    refine forall₂_congr fun o _ => ?_
    rw [h.forall_element_iff (P := fun e => (Element.tuple (parts o)).count? = e.count?)]
    simp only [Element.count?, Option.some.injEq]
  have hunequal := unequal_eq_false_iff hone
  rw [imp_iff_right htuple, hlengths] at hunequal
  rw [arrayFindings_of_names h.texts h.valid h.distinctNames,
    differ_map_eq_false_iff.2 hone, if_neg Bool.false_ne_true]
  split
  · next hfound =>
    rw [hfound, Bool.true_eq_false, false_iff] at hunequal
    push Not at hunequal
    rw [List.mem_singleton, and_iff_left hunequal]
  · next hfound =>
    have hequal := hunequal.1 (Bool.eq_false_iff.2 hfound)
    refine iff_of_false List.not_mem_nil ?_
    rintro ⟨-, o, ho, o', ho', hne⟩
    exact hne (hequal o ho o' ho')

/-- Behind a name, or behind nothing, every way to number objects gives the entries of an array
names that say which object they are for: each distinct object is mapped once, in order of first
occurrence, and named by the index of its last occurrence. -/
theorem numbered_arrays {items : Value} (hitems : items.items = .ok objects)
    (hashable : ∀ o ∈ objects, o.unhashable? = none)
    (hstem : stem = "" ∨ isName stem.toList = true) (hwidth : width < 2 ^ 63) :
    ∃ ids, enumerate items (.text stem) (.int width) = .ok ids ∧
      (∀ (name : Value) (mapper : Value → Except Misfit Value) (content : Value → Element),
        (∀ o ∈ distinct Value.form objects, mapper o = .ok (.element (content o))) →
        ∃ entries, Assembly.array name (.table ids) mapper =
            ⟨distinct Value.form objects, .ok ⟨name, .array entries⟩⟩ ∧
          Numbered stem width objects content entries ∧
          ∀ path, ∀ f ∈ arrayFindings path entries,
            f = .mixedKinds path ∨ f = .unequalTuples path) ∧
      (∀ (name : Value) (mapper : Value → Except Misfit Value) (parts : Value → List Element),
        (∀ o ∈ distinct Value.form objects,
          ∃ w, mapper o = .ok w ∧ w.itemsFor .tuple = .ok ((parts o).map .element)) →
        ∃ entries, Assembly.tupleArray name (.table ids) mapper =
            ⟨distinct Value.form objects, .ok ⟨name, .array entries⟩⟩ ∧
          Numbered stem width objects (fun o => .tuple (parts o)) entries ∧
          ∀ path f, f ∈ arrayFindings path entries ↔ f = .unequalTuples path ∧
            ∃ o ∈ distinct Value.form objects, ∃ o' ∈ distinct Value.form objects,
              (parts o).length ≠ (parts o').length) := by
  have hlimit : width < CounterForm.countLimit := hwidth
  have hgenerator : ∀ o ∈ objects, ∀ index, counters (.text stem) (.int width) o index =
      .ok (.text (numbered stem width index)) := by
    intro o _ index
    rw [counters, counterOf_int hlimit]
    rfl
  obtain ⟨ids, hids, hcollapsed⟩ := exists_assign hitems hgenerator hashable
  have hmem : ∀ e ∈ ids, e.1 ∈ distinct Value.form objects :=
    fun e he => hcollapsed.keys ▸ List.mem_map_of_mem he
  have hnumbered : ∀ content : Value → Element, Numbered stem width objects content
      (ids.map fun e => ⟨e.2, content e.1⟩) :=
    fun content => hcollapsed.numbered hstem hlimit
  refine ⟨ids, by rw [enumerate, hids], fun name mapper content hmapper => ?_,
    fun name mapper parts hmapper => ?_⟩
  · refine ⟨_, ?_, hnumbered content, (hnumbered content).found⟩
    rw [Assembly.array_eq content name fun e he => hmapper e.1 (hmem e he), hcollapsed.keys]
  · refine ⟨_, ?_, hnumbered fun o => .tuple (parts o), (hnumbered _).found_iff⟩
    rw [Assembly.tupleArray, Assembly.array_eq (fun o => .tuple (parts o)) name, hcollapsed.keys]
    intro e he
    obtain ⟨w, hw, hparts⟩ := hmapper e.1 (hmem e he)
    rw [hw, ok_bind, Element.makeTuple_of_elements hparts]
    rfl

/-- Five objects of which three are distinct: the first and the third take the counters of the
objects equal to them that come later. -/
theorem numbered_arrays_repeated :
    let objects : List Value := [.text "x", .text "y", .int 1, .text "x", .flag true]
    let parts : Value → List Element := fun o => if o.kind = .text then [.scalar (.int 7)] else []
    ((Value.list objects).items = .ok objects ∧ (∀ o ∈ objects, o.unhashable? = none) ∧
      ("di" = "" ∨ isName "di".toList = true) ∧ 2 < 2 ^ 63) ∧
    ∃ ids entries, enumerate (.list objects) (.text "di") (.int (2 : Nat)) = .ok ids ∧
      Assembly.tupleArray (.text "points") (.table ids)
          (fun o => .ok (.list ((parts o).map .element))) =
        ⟨[.text "x", .text "y", .int 1], .ok ⟨.text "points", .array entries⟩⟩ ∧
      Numbered "di" 2 objects (fun o => .tuple (parts o)) entries ∧
      .unequalTuples [] ∈ arrayFindings [] entries := by
  intro objects parts
  have hitems : (Value.list objects).items = .ok objects := rfl
  have hashable : ∀ o ∈ objects, o.unhashable? = none := by
    simp [objects, Value.unhashable?]
  have hstem : "di" = "" ∨ isName "di".toList = true := .inr (by decide)
  have hdistinct : distinct Value.form objects = [.text "x", .text "y", .int 1] := rfl
  obtain ⟨ids, hids, -, htuples⟩ :=
    numbered_arrays hitems hashable hstem (show 2 < 2 ^ 63 by decide)
  obtain ⟨entries, harray, hnumbered, hfound⟩ :=
    htuples (.text "points") (fun o => .ok (.list ((parts o).map .element))) parts
      fun o _ => ⟨_, rfl, rfl⟩
  refine ⟨⟨hitems, hashable, hstem, by decide⟩, ids, entries, hids, hdistinct ▸ harray, hnumbered,
    (hfound [] _).2 ⟨rfl, .text "x", ?_, .int 1, ?_, ?_⟩⟩
  · simp [hdistinct]
  · simp [hdistinct]
  · decide

end Identifier

end ModelData
