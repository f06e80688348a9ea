import ModelData.Proofs.Report.Parts
import ModelData.Proofs.Value.Forms

/-!
What a clean report says. A document is tidy if its names and the keys of all its arrays are
identifiers, none given twice, if every array holds children of one kind, tuples of one length,
and if no line ends the comment. The report on a document is clean just when the document is
tidy.
-/

namespace ModelData

/-- Entries whose keys are identifiers and do not repeat, with children of one kind and, if these
are tuples, of one length. -/
structure Orderly (entries : List Named) : Prop where
  identifiers : ∀ n ∈ entries, Identifier.isValid n.name = true
  distinctKeys : (entries.map (·.name)).Nodup
  oneKind : ∀ n ∈ entries, ∀ m ∈ entries, n.element.kind = m.element.kind
  oneLength : (∀ n ∈ entries, n.element.kind = .tuple) →
    ∀ n ∈ entries, ∀ m ∈ entries, n.element.count? = m.element.count?

/-- If the element is an array, its entries are orderly. -/
def Element.IsOrderly (e : Element) : Prop :=
  ∀ entries, e = .array entries → Orderly entries

structure Document.Tidy (d : Document) : Prop where
  identifiers : ∀ n ∈ d.elements, Identifier.isValid n.name = true
  distinctNames : (d.elements.map (·.name)).Nodup
  orderly : ∀ n ∈ d.elements, n.element.Everywhere Element.IsOrderly
  unclosed : ∀ s, Value.text s ∈ d.headerLines → ¬ commentEnd <:+: s.toList

namespace Report

section Arrays

variable {values : List Value} {path : List Char} {entries : List Named}

theorem repeated_eq_nil_iff (h : ∀ v ∈ values, ∃ s, v = .text s) :
    repeated values = [] ↔ values.Nodup := by
  rw [← Value.nodup_forms_iff h, repeated, distinct_eq_nil_iff, List.filter_eq_nil_iff,
    List.nodup_iff_count_le_one]
  simp only [decide_eq_true_eq, Nat.not_lt]
  constructor
  · intro hvalues x
    by_cases hx : x ∈ Value.forms values
    · rw [Value.forms_eq_map] at hx
      obtain ⟨v, hv, rfl⟩ := List.mem_map.1 hx
      exact hvalues v hv
    · rw [List.count_eq_zero_of_not_mem hx]
      exact Nat.zero_le 1
  · intro hcount v _
    exact hcount v.form

theorem differ_eq_false_iff {α : Type} [DecidableEq α] {xs : List α} :
    differ xs = false ↔ ∀ x ∈ xs, ∀ y ∈ xs, x = y := by
  cases xs with
  | nil => simp [differ]
  | cons first rest =>
    have hfirst : differ (first :: rest) = false ↔ ∀ x ∈ first :: rest, x = first := by
      simp [differ]
    rw [hfirst]
    constructor
    · intro h x hx y hy
      rw [h x hx, h y hy]
    · intro h x hx
      exact h x hx first List.mem_cons_self

theorem differ_map_eq_false_iff {α β : Type} [DecidableEq β] {f : α → β} {xs : List α} :
    differ (xs.map f) = false ↔ ∀ x ∈ xs, ∀ y ∈ xs, f x = f y := by
  rw [differ_eq_false_iff]
  simp only [List.forall_mem_map]

/-- Lengths are compared where there is a tuple, and among children of one kind that is where all
are tuples. -/
theorem unequal_eq_false_iff
    (hone : ∀ n ∈ entries, ∀ m ∈ entries, n.element.kind = m.element.kind) :
    ((entries.map fun n => n.element.kind).contains .tuple
      && differ (entries.map fun n => n.element.count?)) = false ↔
    ((∀ n ∈ entries, n.element.kind = .tuple) →
      ∀ n ∈ entries, ∀ m ∈ entries, n.element.count? = m.element.count?) := by
  rw [Bool.and_eq_false_iff, differ_map_eq_false_iff, Bool.eq_false_iff, ne_eq,
    List.contains_iff_mem, List.mem_map]
  constructor
  · rintro (hnone | hcounts) htuples n hn
    · exact (hnone ⟨n, hn, htuples n hn⟩).elim
    · exact hcounts n hn
  · intro h
    by_cases hsome : ∃ n ∈ entries, n.element.kind = .tuple
    · obtain ⟨n, hn, htuple⟩ := hsome
      exact .inr (h fun m hm => (hone m hm n hn).trans htuple)
    · exact .inl hsome

theorem unless_empty_eq_nil_iff {found : Finding} :
    (if values.isEmpty then [] else [found]) = [] ↔ values = [] := by
  cases values <;> simp

theorem either_eq_nil_iff {a b : Bool} {first second : Finding} :
    (if a then [first] else if b then [second] else []) = [] ↔ a = false ∧ b = false := by
  cases a <;> cases b <;> simp

theorem invalid_eq_nil_iff :
    (entries.map (·.name)).filter (fun name => !Identifier.isValid name) = [] ↔
      ∀ n ∈ entries, Identifier.isValid n.name = true := by
  simp [List.filter_eq_nil_iff]

/-- Nothing is wrong with an array itself just when its entries are orderly. -/
theorem arrayFindings_eq_nil_iff (h : ∀ v ∈ entries.map (·.name), ∃ s, v = Value.text s) :
    arrayFindings path entries = [] ↔ Orderly entries := by
  rw [arrayFindings, List.append_eq_nil_iff, List.append_eq_nil_iff, List.map_eq_nil_iff,
    unless_empty_eq_nil_iff, either_eq_nil_iff, repeated_eq_nil_iff h, invalid_eq_nil_iff,
    differ_map_eq_false_iff]
  constructor
  · rintro ⟨⟨hdistinct, hvalid⟩, hone, hlengths⟩
    exact ⟨hvalid, hdistinct, hone, (unequal_eq_false_iff hone).1 hlengths⟩
  · rintro ⟨hvalid, hdistinct, hone, hlengths⟩
    exact ⟨⟨hdistinct, hvalid⟩, hone, (unequal_eq_false_iff hone).2 hlengths⟩

theorem ownFindings_eq_nil_iff {e : Element} (h : e.KeyedByTexts) :
    ownFindings path e = [] ↔ e.IsOrderly := by
  cases e with
  | array entries =>
    rw [ownFindings, arrayFindings_eq_nil_iff h]
    constructor
    · rintro horderly _ ⟨⟩
      exact horderly
    · intro horderly
      exact horderly entries rfl
  | _ => simp [ownFindings, Element.IsOrderly]

/-- Nothing is found in an element just when all arrays in it are orderly. -/
theorem findings_eq_nil_iff {e : Element} (h : e.Everywhere Element.KeyedByTexts) :
    findings path e = [] ↔ e.Everywhere Element.IsOrderly := by
  induction h generalizing path with
  | @intro e here _ ih =>
    rw [findings_eq, List.append_eq_nil_iff, ownFindings_eq_nil_iff here,
      List.flatMap_eq_nil_iff, Element.everywhere_iff, ← map_places path, List.forall_mem_map]
    rw [← map_places path, List.forall_mem_map] at ih
    exact and_congr_right fun _ => forall₂_congr fun place hplace => ih place hplace

end Arrays

section Warnings

theorem warning_eq_nil_iff {intro : String} {parts : List String} :
    warning intro parts = [] ↔ parts = [] := by
  cases parts <;> simp [warning]

theorem eraseDups_eq_nil_iff {α : Type} [BEq α] {xs : List α} : xs.eraseDups = [] ↔ xs = [] := by
  cases xs <;> simp [List.eraseDups_cons]

theorem sorted_eq_nil_iff {texts : List String} : sorted texts = [] ↔ texts = [] := by
  rw [← List.length_eq_zero_iff, sorted, List.length_mergeSort, List.length_eq_zero_iff]

theorem isClean_iff {r : Report} {d : Document} (h : r.Describes d) :
    r.isClean = true ↔ r.allWarnings = [] := by
  rw [isClean, List.isEmpty_iff, h.warnings, eraseDups_eq_nil_iff]

/-- There are no warnings just when every part of the report is empty. -/
theorem allWarnings_eq_nil_iff {r : Report} :
    r.allWarnings = [] ↔ r.invalidNames = [] ∧ r.duplicateNames = [] ∧
      (∀ entry ∈ r.duplicateKeys, entry.2 = []) ∧ r.unequalTuples = [] ∧ r.mixedKinds = [] ∧
      r.unsafeLines = [] := by
  simp only [allWarnings, List.append_eq_nil_iff, List.flatMap_eq_nil_iff, warning_eq_nil_iff,
    List.map_eq_nil_iff, and_assoc]

/-- Every finding shows in one of the four lists. -/
theorem eq_nil_iff_lists (fs : List Finding) :
    fs = [] ↔ fs.filterMap invalidNameOf = [] ∧ fs.filterMap repeatedKeys? = [] ∧
      fs.filterMap unequalPath? = [] ∧ fs.filterMap mixedPath? = [] := by
  cases fs with
  | nil => simp
  | cons f rest =>
    cases f <;> simp [List.filterMap_cons, invalidNameOf, repeatedKeys?, unequalPath?, mixedPath?]

variable {d : Document} {r : Report}

theorem invalidNames_eq_nil_iff (h : r.Describes d) :
    r.invalidNames = [] ↔
      (∀ n ∈ d.elements, Identifier.isValid n.name = true) ∧
        (documentFindings d).filterMap invalidNameOf = [] := by
  rw [← List.map_eq_nil_iff, texts_eq_ok_iff.1 h.invalidNames, invalidIn, List.append_eq_nil_iff]
  simp [List.filter_eq_nil_iff]

theorem duplicateNames_eq_nil_iff (htextual : d.Textual) (h : r.Describes d) :
    r.duplicateNames = [] ↔ (d.elements.map (·.name)).Nodup := by
  obtain ⟨names, hnames, hperm⟩ := exists_sortedTexts (texts_of_mem_repeated htextual)
  cases h.duplicateNames.symm.trans hnames
  rw [← repeated_eq_nil_iff (List.forall_mem_map.2 htextual.names), ← List.map_eq_nil_iff]
  exact ⟨fun hnil => (hnil ▸ hperm).nil_eq.symm, fun hnil => (hnil ▸ hperm).eq_nil⟩

theorem duplicateKeys_nil_iff (htextual : d.Textual) (h : r.Describes d) :
    (∀ entry ∈ r.duplicateKeys, entry.2 = []) ↔
      (documentFindings d).filterMap repeatedKeys? = [] := by
  obtain ⟨keys, hkeys, hlisted⟩ := exists_duplicateKeys htextual
  cases h.duplicateKeys.symm.trans hkeys
  have hsorted : repeatedKeysIn d = [] ↔ (documentFindings d).filterMap repeatedKeys? = [] := by
    rw [← keysByPath_eq_nil_iff, ← List.length_eq_zero_iff, repeatedKeysIn, List.length_mergeSort,
      List.length_eq_zero_iff]
  rw [← hsorted]
  constructor
  · intro hempty
    by_contra hsome
    obtain ⟨entry, hentry⟩ := List.exists_mem_of_ne_nil _ hsome
    obtain ⟨listed, hmem, hperm⟩ := exists_of_forall₂ hlisted hentry
    apply (texts_of_mem_repeatedKeysIn htextual hentry).1
    rw [hempty listed hmem] at hperm
    exact hperm.nil_eq.symm
  · intro hnone
    rw [hnone, List.forall₂_nil_left_iff] at hlisted
    simp [hlisted]

theorem documentFindings_eq_nil_iff (htextual : d.Textual) :
    documentFindings d = [] ↔ ∀ n ∈ d.elements, n.element.Everywhere Element.IsOrderly := by
  rw [documentFindings, List.flatMap_eq_nil_iff]
  exact forall₂_congr fun n hn => findings_eq_nil_iff (htextual.keys n hn)

theorem paths_eq_nil_iff {path? : Finding → Option String} :
    sorted ((documentFindings d).filterMap path?).eraseDups = [] ↔
      (documentFindings d).filterMap path? = [] := by
  rw [sorted_eq_nil_iff, eraseDups_eq_nil_iff]

/-- A report is clean just when it is about a tidy document. -/
theorem isClean_iff_tidy (htextual : d.Textual) (h : r.Describes d) :
    r.isClean = true ↔ d.Tidy := by
  rw [isClean_iff h, allWarnings_eq_nil_iff, invalidNames_eq_nil_iff h,
    duplicateNames_eq_nil_iff htextual h, duplicateKeys_nil_iff htextual h, h.unequalTuples,
    h.mixedKinds, paths_eq_nil_iff, paths_eq_nil_iff,
    closingLines_eq_nil_iff htextual.lines h.unsafeLines]
  have hfindings := (eq_nil_iff_lists _).symm.trans (documentFindings_eq_nil_iff htextual)
  constructor
  · rintro ⟨⟨hvalid, hinvalid⟩, hnames, hkeys, hunequal, hmixed, hlines⟩
    exact ⟨hvalid, hnames, hfindings.1 ⟨hinvalid, hkeys, hunequal, hmixed⟩, hlines⟩
  · rintro ⟨hvalid, hnames, horderly, hlines⟩
    obtain ⟨hinvalid, hkeys, hunequal, hmixed⟩ := hfindings.2 horderly
    exact ⟨⟨hvalid, hinvalid⟩, hnames, hkeys, hunequal, hmixed, hlines⟩

end Warnings

/-- A document whose names, keys and lines are texts has a report, and this is clean just when
the document is tidy. -/
theorem report_clean_iff_tidy {d : Document} (h : d.Textual) :
    ∃ r, ofDocument d = .ok r ∧ (r.isClean = true ↔ d.Tidy) := by
  obtain ⟨r, hr⟩ := exists_report h
  exact ⟨r, hr, isClean_iff_tidy h (describes_of_ofDocument hr)⟩

/-- An array with a key given twice. -/
def twoDays : Element :=
  .array [⟨.text "day", .scalar (.int 1)⟩, ⟨.text "day", .scalar (.int 2)⟩]

/-- A document in which such an array lies in a set in a tuple. -/
def planned : Document where
  elements := [⟨.text "Plan", .tuple [.set [.element twoDays]]⟩]
  headerLines := [.text "not yet * / closed"]

theorem planned_textual : planned.Textual where
  names := by simp [planned]
  keys := by
    have hleaf (i : Int) : (Element.scalar (.int i)).Everywhere Element.KeyedByTexts :=
      .leaf (by simp [Element.KeyedByTexts, Element.keys, Element.keys?]) rfl
    have hdays : twoDays.Everywhere Element.KeyedByTexts := by
      apply Element.Everywhere.intro
      · simp [twoDays, Element.KeyedByTexts, Element.keys, Element.keys?]
      · simpa [twoDays, Element.children] using And.intro (hleaf 1) (hleaf 2)
    have haround {e d : Element} (hkeys : e.keys = []) (hchildren : e.children = [d])
        (hd : d.Everywhere Element.KeyedByTexts) : e.Everywhere Element.KeyedByTexts :=
      .intro (by simp [Element.KeyedByTexts, hkeys]) (by simpa [hchildren] using hd)
    intro n hn
    cases List.mem_singleton.1 hn
    exact haround rfl rfl (haround rfl rfl hdays)
  lines := by simp [planned]

theorem report_clean_iff_tidy_planned :
    planned.Textual ∧ ∃ r, ofDocument planned = .ok r ∧ r.isClean = false := by
  obtain ⟨r, hr, hclean⟩ := report_clean_iff_tidy planned_textual
  refine ⟨planned_textual, r, hr, Bool.eq_false_iff.2 fun hyes => ?_⟩
  have hplan := (hclean.1 hyes).orderly _ List.mem_cons_self
  have hset := hplan.inside (d := .set [.element twoDays]) List.mem_cons_self
  have hdays := hset.inside (d := twoDays) List.mem_cons_self
  simpa using (hdays.here _ rfl).distinctKeys

end Report

end ModelData
