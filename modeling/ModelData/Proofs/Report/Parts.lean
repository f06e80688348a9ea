import ModelData.Proofs.Report.Counting
import ModelData.Proofs.Report.Extents
import ModelData.Proofs.Report.Walk
import ModelData.Proofs.Text.Occurrences
import ModelData.Proofs.Value.Distinct
import ModelData.Proofs.Value.Traverse

/-!
The parts of a report. A report is made part by part, and each part may fail; a document whose
names, keys and lines are texts always has a report.
-/

namespace ModelData

/-- A document in which the names, the keys of arrays and the lines are texts. -/
structure Document.Textual (d : Document) : Prop where
  names : ∀ n ∈ d.elements, ∃ s, n.name = .text s
  keys : ∀ n ∈ d.elements, n.element.Everywhere Element.KeyedByTexts
  lines : ∀ line ∈ d.headerLines, ∃ s, line = .text s

namespace Report

/-- The names and keys that are no identifiers. -/
def invalidIn (d : Document) : List Value :=
  (d.elements.map (·.name)).filter (fun name => !Identifier.isValid name)
    ++ (documentFindings d).filterMap invalidNameOf

/-- The keys that occur twice in an array, for each path in order. -/
def repeatedKeysIn (d : Document) : List (String × List Value) :=
  (keysByPath (documentFindings d)).mergeSort fun a b => a.1 ≤ b.1

/-- The warnings before equal ones are dropped. -/
def allWarnings (r : Report) : List String :=
  warning "Invalid identifiers" r.invalidNames
    ++ warning "Duplicate element names" r.duplicateNames
    ++ r.duplicateKeys.flatMap (fun (path, keys) => warning ("Duplicate keys in " ++ path) keys)
    ++ warning "Tuple arrays with inconsistent arity" r.unequalTuples
    ++ warning "Arrays mixing element kinds" r.mixedKinds
    ++ warning "Prefix text lines close the header comment"
      (r.unsafeLines.map fun n => String.ofList (Digits.ofNat n))

/-- What each part of a report on a document says. -/
structure Describes (r : Report) (d : Document) : Prop where
  countable : uncounted? d = none
  elementCount : r.elementCount = d.elements.length
  kinds : r.kinds = countKinds (d.elements.map fun n => n.element.kind.name)
  maxDepth : r.maxDepth = entryHeights d.elements
  nodeCount : r.nodeCount = entryNodes d.elements
  unsafeLines : closingLines 0 d.headerLines = .ok r.unsafeLines
  invalidNames : texts (invalidIn d) = .ok r.invalidNames
  duplicateNames : sortedTexts (repeated (d.elements.map (·.name))) = .ok r.duplicateNames
  duplicateKeys : (repeatedKeysIn d).mapM (fun (path, keys) =>
    do return (path, ← sortedTexts keys)) = .ok r.duplicateKeys
  unequalTuples : r.unequalTuples = sorted ((documentFindings d).filterMap unequalPath?).eraseDups
  mixedKinds : r.mixedKinds = sorted ((documentFindings d).filterMap mixedPath?).eraseDups
  warnings : r.warnings = r.allWarnings.eraseDups

variable {d : Document} {r : Report}

theorem describes_of_ofDocument (h : ofDocument d = .ok r) : r.Describes d := by
  unfold ofDocument at h
  cases hcount : uncounted? d with
  | some m =>
    rw [hcount] at h
    cases h
  | none =>
    rw [hcount] at h
    obtain ⟨lines, hlines, h⟩ := bind_eq_ok h
    obtain ⟨invalid, hinvalid, h⟩ := bind_eq_ok h
    obtain ⟨names, hnames, h⟩ := bind_eq_ok h
    obtain ⟨keys, hkeys, h⟩ := bind_eq_ok h
    have hextent := entryExtents_empty d.elements
    cases h
    exact ⟨hcount, rfl, rfl, congrArg Extent.depth hextent, congrArg Extent.nodeCount hextent,
      hlines, hinvalid, hnames, hkeys, rfl, rfl, rfl⟩

/-- A report is made when all its parts are. -/
theorem exists_ofDocument {lines : List Nat} {invalid names : List String}
    {keys : List (String × List String)} (hcount : uncounted? d = none)
    (hlines : closingLines 0 d.headerLines = .ok lines)
    (hinvalid : texts (invalidIn d) = .ok invalid)
    (hnames : sortedTexts (repeated (d.elements.map (·.name))) = .ok names)
    (hkeys : (repeatedKeysIn d).mapM (fun (path, keys) =>
      do return (path, ← sortedTexts keys)) = .ok keys) : ∃ r, ofDocument d = .ok r := by
  unfold invalidIn at hinvalid
  unfold repeatedKeysIn at hkeys
  simp only [ofDocument, hcount, hlines, hinvalid, hnames, hkeys, ok_bind]
  exact ⟨_, rfl⟩

section Texts

variable {values : List Value}

theorem exists_texts (h : ∀ v ∈ values, ∃ s, v = .text s) :
    ∃ ss : List String, values = ss.map .text := by
  induction values with
  | nil => exact ⟨[], rfl⟩
  | cons v rest ih =>
    obtain ⟨s, rfl⟩ := h v List.mem_cons_self
    obtain ⟨ss, rfl⟩ := ih fun w hw => h w (List.mem_cons_of_mem _ hw)
    exact ⟨s :: ss, rfl⟩

theorem textsFrom_map_text (index : Nat) (ss : List String) :
    textsFrom index (ss.map .text) = .ok ss := by
  induction ss generalizing index with
  | nil => rfl
  | cons s ss ih =>
    rw [List.map_cons, textsFrom, ih]
    rfl

theorem map_text_of_textsFrom {index : Nat} {ss : List String}
    (h : textsFrom index values = .ok ss) : ss.map .text = values := by
  induction values generalizing index ss with
  | nil =>
    cases h
    rfl
  | cons v rest ih =>
    cases v with
    | text s =>
      obtain ⟨later, hlater, h⟩ := bind_eq_ok h
      cases h
      rw [List.map_cons, ih hlater]
    | _ => cases h

/-- Only texts are listed, as they are. -/
theorem texts_eq_ok_iff {ss : List String} : texts values = .ok ss ↔ ss.map .text = values := by
  constructor
  · exact map_text_of_textsFrom
  · rintro rfl
    exact textsFrom_map_text 0 ss

theorem exists_sortBy (h : ∀ v ∈ values, ∃ s, v = .text s) :
    ∃ sorted, sortBy id values = .ok sorted ∧ sorted.Perm values := by
  have htexts : (values.all fun v => (id v).kind = .text) = true := by
    apply List.all_eq_true.2
    intro v hv
    obtain ⟨s, rfl⟩ := h v hv
    rfl
  rw [sortBy, if_pos htexts]
  exact ⟨_, rfl, List.mergeSort_perm _ _⟩

/-- Texts can be sorted, and none is lost. -/
theorem exists_sortedTexts (h : ∀ v ∈ values, ∃ s, v = .text s) :
    ∃ ss, sortedTexts values = .ok ss ∧ (ss.map Value.text).Perm values := by
  obtain ⟨sorted, hsorted, hperm⟩ := exists_sortBy h
  obtain ⟨ss, rfl⟩ := exists_texts fun v hv => h v (hperm.subset hv)
  refine ⟨ss, ?_, hperm⟩
  rw [sortedTexts, hsorted, ok_bind]
  exact textsFrom_map_text 0 ss

end Texts

section Lines

/-- The numbers of those lines in which the mark occurs. -/
theorem closingLines_texts (index : Nat) (ss : List String) :
    closingLines index (ss.map .text) =
      .ok (((ss.zipIdx index).filter fun p => closesComment p.1).map (·.2)) := by
  induction ss generalizing index with
  | nil => rfl
  | cons s ss ih =>
    rw [List.map_cons, closingLines, ih, lineCloses, List.zipIdx_cons, List.filter_cons]
    cases closesComment s <;> rfl

/-- No line is listed just when the mark occurs in none. -/
theorem closingLines_eq_nil_iff {index : Nat} {lines : List Value} {found : List Nat}
    (htexts : ∀ line ∈ lines, ∃ s, line = .text s)
    (h : closingLines index lines = .ok found) :
    found = [] ↔ ∀ s, Value.text s ∈ lines → ¬ commentEnd <:+: s.toList := by
  obtain ⟨ss, rfl⟩ := exists_texts htexts
  rw [closingLines_texts] at h
  cases h
  rw [List.map_eq_nil_iff, List.filter_eq_nil_iff]
  simp only [closesComment_iff]
  constructor
  · intro hnone s hs
    obtain ⟨t, ht, heq⟩ := List.mem_map.1 hs
    cases heq
    rw [← List.zipIdx_map_fst index ss] at ht
    obtain ⟨p, hp, rfl⟩ := List.mem_map.1 ht
    exact hnone p hp
  · intro hnone p hp
    exact hnone p.1 (List.mem_map_of_mem (List.fst_mem_of_mem_zipIdx hp))

end Lines

section Keys

def repeatedKeys? : Finding → Option (String × List Value)
  | .duplicateKeys path keys => some (String.ofList path, keys)
  | _ => none

variable {path : String} {keys : List Value} {table : List (String × List Value)}

theorem mem_putKeys {entry : String × List Value} (h : entry ∈ putKeys path keys table) :
    entry = (path, keys) ∨ entry ∈ table := by
  induction table with
  | nil => exact .inl (List.mem_singleton.1 h)
  | cons first rest ih =>
    rw [putKeys] at h
    split at h
    · next hpath =>
      rcases List.mem_cons.1 h with h | h
      · exact .inl (hpath ▸ h)
      · exact .inr (List.mem_cons_of_mem _ h)
    · rcases List.mem_cons.1 h with h | h
      · exact .inr (h ▸ List.mem_cons_self)
      · exact (ih h).imp_right (List.mem_cons_of_mem _)

theorem putKeys_ne_nil : putKeys path keys table ≠ [] := by
  cases table with
  | nil => simp [putKeys]
  | cons first rest =>
    rw [putKeys]
    split <;> simp

theorem keysByPath_eq (fs : List Finding) :
    keysByPath fs =
      (fs.filterMap repeatedKeys?).foldl (fun table entry => putKeys entry.1 entry.2 table) [] := by
  rw [keysByPath, List.foldl_filterMap]
  congr
  funext table f
  cases f <;> rfl

/-- Every entry is a finding. -/
theorem mem_keysByPath {fs : List Finding} {entry : String × List Value}
    (h : entry ∈ keysByPath fs) : entry ∈ fs.filterMap repeatedKeys? := by
  rw [keysByPath_eq] at h
  refine List.foldlRecOn (fs.filterMap repeatedKeys?) _
    (motive := fun table => entry ∈ table → entry ∈ fs.filterMap repeatedKeys?)
    (by simp) (fun table ih found hfound hentry => ?_) h
  rcases mem_putKeys hentry with rfl | hentry
  · exact hfound
  · exact ih hentry

/-- A finding may displace another one with its path, but some entry stays. -/
theorem keysByPath_eq_nil_iff {fs : List Finding} :
    keysByPath fs = [] ↔ fs.filterMap repeatedKeys? = [] := by
  rw [keysByPath_eq]
  cases fs.filterMap repeatedKeys? using List.reverseRecOn with
  | nil => simp
  | append_singleton entries entry =>
    rw [List.foldl_concat]
    simp [putKeys_ne_nil]

end Keys

section Repeated

/-- A name that is listed as repeated is one of those that were looked at. -/
theorem mem_of_mem_repeated {names : List Value} {v : Value} (h : v ∈ repeated names) :
    v ∈ names :=
  List.mem_of_mem_filter (mem_of_mem_distinct h)

/-- Repeated keys are only reported when there are some. -/
theorem repeatedKeys_of_mem_arrayFindings {place path : List Char} {entries : List Named}
    {keys : List Value} (h : .duplicateKeys path keys ∈ arrayFindings place entries) :
    keys ≠ [] ∧ keys = repeated (entries.map (·.name)) := by
  simp only [arrayFindings, List.mem_append, List.mem_map] at h
  rcases h with (h | ⟨key, hkey, heq⟩) | h
  · split at h
    · simp at h
    · next hsome =>
      cases List.mem_singleton.1 h
      exact ⟨fun hnone => hsome (List.isEmpty_iff.2 hnone), rfl⟩
  · cases heq
  · split at h
    · cases List.mem_singleton.1 h
    · split at h
      · cases List.mem_singleton.1 h
      · simp at h

end Repeated

section Textual

variable (h : d.Textual)
include h

theorem uncounted?_eq_none : uncounted? d = none := by
  refine uncounted?_eq_none_iff.2 ⟨fun n hn => ?_, fun n hn => ?_⟩
  · obtain ⟨s, hs⟩ := h.names n hn
    rw [hs]
    rfl
  · exact (h.keys n hn).mono fun _ => Element.KeyedByTexts.hashable

/-- Every finding is one about an array whose keys are texts. -/
theorem exists_array_of_mem_findings {f : Finding} (hf : f ∈ documentFindings d) :
    ∃ place entries, (∀ v ∈ entries.map (·.name), ∃ s, v = Value.text s) ∧
      f ∈ arrayFindings place entries := by
  obtain ⟨n, hn, hf⟩ := List.mem_flatMap.1 hf
  obtain ⟨place, e, hkeys, hf⟩ := exists_node_of_mem_findings (h.keys n hn) hf
  cases e with
  | array entries => exact ⟨place, entries, hkeys, hf⟩
  | _ => simp [ownFindings] at hf

theorem texts_of_mem_invalidIn : ∀ v ∈ invalidIn d, ∃ s, v = .text s := by
  intro v hv
  rcases List.mem_append.1 hv with hv | hv
  · obtain ⟨n, hn, rfl⟩ := List.mem_map.1 (List.mem_of_mem_filter hv)
    exact h.names n hn
  · obtain ⟨f, -, hf⟩ := List.mem_filterMap.1 hv
    cases f <;> cases hf
    exact ⟨_, rfl⟩

theorem texts_of_mem_repeated :
    ∀ v ∈ repeated (d.elements.map (·.name)), ∃ s, v = .text s := by
  intro v hv
  obtain ⟨n, hn, rfl⟩ := List.mem_map.1 (mem_of_mem_repeated hv)
  exact h.names n hn

/-- The keys listed for a path are texts, and there are some. -/
theorem texts_of_mem_repeatedKeysIn {entry : String × List Value}
    (hentry : entry ∈ repeatedKeysIn d) :
    entry.2 ≠ [] ∧ ∀ v ∈ entry.2, ∃ s, v = .text s := by
  have hmem := mem_keysByPath (List.mem_mergeSort.1 hentry)
  obtain ⟨f, hf, hkeys⟩ := List.mem_filterMap.1 hmem
  obtain ⟨place, entries, hnames, hf⟩ := exists_array_of_mem_findings h hf
  cases f with
  | duplicateKeys path keys =>
    cases hkeys
    obtain ⟨hsome, rfl⟩ := repeatedKeys_of_mem_arrayFindings hf
    exact ⟨hsome, fun v hv => hnames v (mem_of_mem_repeated hv)⟩
  | _ => cases hkeys

/-- The keys listed for each path are sorted, and none is lost. -/
theorem exists_duplicateKeys : ∃ keys : List (String × List String),
    (repeatedKeysIn d).mapM (fun (path, keys) => do return (path, ← sortedTexts keys)) = .ok keys ∧
      List.Forall₂ (fun entry listed => (listed.2.map Value.text).Perm entry.2)
        (repeatedKeysIn d) keys := by
  apply exists_mapM
  intro (path, keys) hentry
  obtain ⟨ss, hss, hperm⟩ := exists_sortedTexts (texts_of_mem_repeatedKeysIn h hentry).2
  refine ⟨(path, ss), ?_, hperm⟩
  simp only [hss, ok_bind]
  rfl

/-- A document whose names, keys and lines are texts has a report. -/
theorem exists_report : ∃ r, ofDocument d = .ok r := by
  obtain ⟨lines, hlines⟩ := exists_texts h.lines
  obtain ⟨invalid, hinvalid⟩ := exists_texts (texts_of_mem_invalidIn h)
  obtain ⟨names, hnames, -⟩ := exists_sortedTexts (texts_of_mem_repeated h)
  obtain ⟨keys, hkeys, -⟩ := exists_duplicateKeys h
  exact exists_ofDocument (uncounted?_eq_none h) (hlines ▸ closingLines_texts 0 lines)
    (texts_eq_ok_iff.2 hinvalid.symm) hnames hkeys

end Textual

end Report

end ModelData
