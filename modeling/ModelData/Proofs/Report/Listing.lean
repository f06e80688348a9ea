import Mathlib.Data.List.Range
import ModelData.Proofs.Report.Clean
import ModelData.Proofs.Report.Visits

/-!
What a report lists. The names that are no identifiers come first, then the keys, as the walk
visits the arrays that have them; the paths listed for arrays are those of the arrays that are
wrong in that way, and the numbers listed for lines those of the lines that end the comment.
-/

namespace ModelData

/-- An array with children of two kinds. -/
def Element.MixesKinds (e : Element) : Prop :=
  ∃ entries, e = .array entries ∧
    ∃ n ∈ entries, ∃ m ∈ entries, n.element.kind ≠ m.element.kind

/-- An array of tuples of two lengths. -/
def Element.MixesLengths (e : Element) : Prop :=
  ∃ entries, e = .array entries ∧ (∀ n ∈ entries, n.element.kind = .tuple) ∧
    ∃ n ∈ entries, ∃ m ∈ entries, n.element.count? ≠ m.element.count?

namespace Report

section Findings

variable {entries : List Named} {path place : List Char} {e : Element}

theorem differ_iff {α β : Type} [DecidableEq β] {f : α → β} {xs : List α} :
    differ (xs.map f) = true ↔ ∃ x ∈ xs, ∃ y ∈ xs, f x ≠ f y := by
  rw [← Bool.not_eq_false, differ_map_eq_false_iff]
  simp only [not_forall, exists_prop, ne_eq]

theorem mixesKinds_array_iff :
    (Element.array entries).MixesKinds ↔ differ (entries.map fun n => n.element.kind) = true := by
  rw [differ_iff]
  constructor
  · rintro ⟨_, ⟨⟩, hmixes⟩
    exact hmixes
  · exact fun hmixes => ⟨entries, rfl, hmixes⟩

/-- Lengths are looked at only where there is one kind. -/
theorem mixesLengths_array_iff :
    (Element.array entries).MixesLengths ↔ differ (entries.map fun n => n.element.kind) = false ∧
      ((entries.map fun n => n.element.kind).contains .tuple
        && differ (entries.map fun n => n.element.count?)) = true := by
  constructor
  · rintro ⟨_, ⟨⟩, htuples, n, hn, m, hm, hcounts⟩
    have hone : ∀ n ∈ entries, ∀ m ∈ entries, n.element.kind = m.element.kind :=
      fun n hn m hm => (htuples n hn).trans (htuples m hm).symm
    refine ⟨differ_map_eq_false_iff.2 hone, Bool.not_eq_false _ ▸ fun hequal => hcounts ?_⟩
    exact (unequal_eq_false_iff hone).1 hequal htuples n hn m hm
  · rintro ⟨hone, hunequal⟩
    rw [differ_map_eq_false_iff] at hone
    rw [← Bool.not_eq_false, unequal_eq_false_iff hone] at hunequal
    simp only [not_forall, exists_prop] at hunequal
    exact ⟨entries, rfl, hunequal⟩

/-- What can be wrong with an array itself. -/
theorem mem_arrayFindings_iff {f : Finding} :
    f ∈ arrayFindings path entries ↔
      (repeated (entries.map (·.name)) ≠ [] ∧
        f = .duplicateKeys path (repeated (entries.map (·.name)))) ∨
      (∃ n ∈ entries, Identifier.isValid n.name = false ∧ f = .invalidKey path n.name) ∨
      ((Element.array entries).MixesKinds ∧ f = .mixedKinds path) ∨
      ((Element.array entries).MixesLengths ∧ f = .unequalTuples path) := by
  have htwice (keys : List Value) : f ∈ (if keys.isEmpty then [] else
      [Finding.duplicateKeys path keys]) ↔ keys ≠ [] ∧ f = .duplicateKeys path keys := by
    cases keys <;> simp
  have hinvalid : f ∈ ((entries.map (·.name)).filter fun name =>
      !Identifier.isValid name).map (.invalidKey path) ↔
      ∃ n ∈ entries, Identifier.isValid n.name = false ∧ f = .invalidKey path n.name := by
    constructor
    · intro h
      obtain ⟨key, hkey, rfl⟩ := List.mem_map.1 h
      obtain ⟨hkey, hvalid⟩ := List.mem_filter.1 hkey
      obtain ⟨n, hn, rfl⟩ := List.mem_map.1 hkey
      exact ⟨n, hn, by simpa using hvalid, rfl⟩
    · rintro ⟨n, hn, hvalid, rfl⟩
      exact List.mem_map_of_mem
        (List.mem_filter.2 ⟨List.mem_map_of_mem hn, by simpa using hvalid⟩)
  have hkinds (a b : Bool) : f ∈ (if a then [Finding.mixedKinds path] else if b then
      [Finding.unequalTuples path] else []) ↔
      (a = true ∧ f = .mixedKinds path) ∨ ((a = false ∧ b = true) ∧ f = .unequalTuples path) := by
    cases a <;> cases b <;> simp
  rw [arrayFindings, List.mem_append, List.mem_append, htwice, hinvalid, hkinds, or_assoc,
    mixesKinds_array_iff, mixesLengths_array_iff]

/-- The invalid keys of a node, in order. -/
theorem invalid_ownFindings (path : List Char) (e : Element) :
    (ownFindings path e).filterMap invalidNameOf =
      (e.keys.filter fun key => !Identifier.isValid key).map fun key =>
        .text (String.ofList (path ++ keyStep key)) := by
  cases e with
  | array entries =>
    have htwice (keys : List Value) : ((if keys.isEmpty then [] else
        [Finding.duplicateKeys path keys]).filterMap invalidNameOf) = [] := by
      split <;> rfl
    rw [ownFindings, arrayFindings, List.filterMap_append, List.filterMap_append, htwice,
      filterMap_kinds rfl rfl, List.nil_append, List.append_nil, List.filterMap_map]
    exact congrFun (@List.filterMap_eq_map _ _ fun key =>
      Value.text (String.ofList (path ++ keyStep key))) _
  | _ => rfl

theorem mixed_mem_ownFindings_iff :
    .mixedKinds place ∈ ownFindings path e ↔ place = path ∧ e.MixesKinds := by
  cases e with
  | array entries =>
    rw [ownFindings, mem_arrayFindings_iff]
    constructor
    · rintro (⟨-, h⟩ | ⟨_, -, -, h⟩ | ⟨hmixes, h⟩ | ⟨-, h⟩) <;> cases h
      exact ⟨rfl, hmixes⟩
    · rintro ⟨rfl, hmixes⟩
      exact .inr (.inr (.inl ⟨hmixes, rfl⟩))
  | _ => simp [ownFindings, Element.MixesKinds]

theorem unequal_mem_ownFindings_iff :
    .unequalTuples place ∈ ownFindings path e ↔ place = path ∧ e.MixesLengths := by
  cases e with
  | array entries =>
    rw [ownFindings, mem_arrayFindings_iff]
    constructor
    · rintro (⟨-, h⟩ | ⟨_, -, -, h⟩ | ⟨-, h⟩ | ⟨hmixes, h⟩) <;> cases h
      exact ⟨rfl, hmixes⟩
    · rintro ⟨rfl, hmixes⟩
      exact .inr (.inr (.inr ⟨hmixes, rfl⟩))
  | _ => simp [ownFindings, Element.MixesLengths]

end Findings

section Lists

variable {d : Document} {r : Report}

theorem invalidIn_eq (d : Document) :
    invalidIn d = ((d.elements.map (·.name)).filter fun name => !Identifier.isValid name) ++
      (visited d).flatMap fun p => (p.2.keys.filter fun key => !Identifier.isValid key).map
        fun key => .text (String.ofList (p.1 ++ keyStep key)) := by
  rw [invalidIn, documentFindings_eq, List.filterMap_flatMap]
  simp only [invalid_ownFindings]

/-- The names that are listed, and then the keys with their paths, in the order of the walk. -/
theorem invalidNames_eq (h : r.Describes d) :
    r.invalidNames =
      ((d.elements.map (·.name)).filter fun name => !Identifier.isValid name).map Value.asText ++
      (visited d).flatMap fun p => (p.2.keys.filter fun key => !Identifier.isValid key).map
        fun key => String.ofList (p.1 ++ keyStep key) := by
  have hlisted := congrArg (List.map Value.asText) (texts_eq_ok_iff.1 h.invalidNames)
  simpa [invalidIn_eq, Function.comp_def, Value.asText_text, List.map_flatMap] using hlisted

/-- The paths that are listed for one thing that can be wrong with an array. -/
theorem mem_paths_iff {path? : Finding → Option String} (found : List Char → Finding)
    {bad : Element → Prop}
    (hpath : ∀ f s, path? f = some s ↔ ∃ place, f = found place ∧ s = String.ofList place)
    (hfound : ∀ path place e, found place ∈ ownFindings path e ↔ place = path ∧ bad e)
    {s : String} :
    s ∈ sorted ((documentFindings d).filterMap path?).eraseDups ↔
      ∃ p ∈ visited d, bad p.2 ∧ s = String.ofList p.1 := by
  rw [sorted, List.mem_mergeSort, List.mem_eraseDups, documentFindings_eq, List.mem_filterMap]
  constructor
  · rintro ⟨f, hf, hs⟩
    obtain ⟨place, rfl, rfl⟩ := (hpath f s).1 hs
    obtain ⟨p, hp, hf⟩ := List.mem_flatMap.1 hf
    obtain ⟨rfl, hbad⟩ := (hfound _ _ _).1 hf
    exact ⟨p, hp, hbad, rfl⟩
  · rintro ⟨p, hp, hbad, rfl⟩
    exact ⟨found p.1, List.mem_flatMap.2 ⟨p, hp, (hfound _ _ _).2 ⟨rfl, hbad⟩⟩,
      (hpath _ _).2 ⟨p.1, rfl, rfl⟩⟩

theorem nodup_paths (path? : Finding → Option String) :
    (sorted ((documentFindings d).filterMap path?).eraseDups).Nodup := by
  rw [sorted, (List.mergeSort_perm _ _).nodup_iff]
  exact nodup_eraseDups _

theorem mem_mixedKinds_iff (h : r.Describes d) {s : String} :
    s ∈ r.mixedKinds ↔ ∃ p ∈ visited d, p.2.MixesKinds ∧ s = String.ofList p.1 := by
  rw [h.mixedKinds]
  refine mem_paths_iff .mixedKinds (fun f s => ?_) fun _ _ _ => mixed_mem_ownFindings_iff
  cases f <;> simp [mixedPath?, eq_comm]

theorem mem_unequalTuples_iff (h : r.Describes d) {s : String} :
    s ∈ r.unequalTuples ↔ ∃ p ∈ visited d, p.2.MixesLengths ∧ s = String.ofList p.1 := by
  rw [h.unequalTuples]
  refine mem_paths_iff .unequalTuples (fun f s => ?_)
    fun _ _ _ => unequal_mem_ownFindings_iff
  cases f <;> simp [unequalPath?, eq_comm]

/-- The lines that end the comment are listed in order. -/
theorem unsafeLines_listed (htexts : ∀ line ∈ d.headerLines, ∃ s, line = Value.text s)
    (h : r.Describes d) :
    r.unsafeLines.Pairwise (· < ·) ∧
      ∀ i, i ∈ r.unsafeLines ↔
        ∃ s, d.headerLines[i]? = some (.text s) ∧ commentEnd <:+: s.toList := by
  obtain ⟨texts, htexts⟩ := exists_texts htexts
  have hlines := h.unsafeLines
  rw [htexts, closingLines_texts] at hlines
  rw [← Except.ok.inj hlines, htexts]
  constructor
  · have hnumbers : (texts.zipIdx.map (·.2)).Pairwise (· < ·) := by
      rw [List.zipIdx_map_snd]
      exact List.pairwise_lt_range'
    exact hnumbers.sublist (List.filter_sublist.map _)
  · intro i
    simp only [List.mem_map, List.mem_filter, List.mem_zipIdx_iff_getElem?, closesComment_iff,
      List.getElem?_map, Option.map_eq_some_iff]
    constructor
    · rintro ⟨⟨s, i⟩, ⟨hs, hcloses⟩, rfl⟩
      exact ⟨s, ⟨s, hs, rfl⟩, hcloses⟩
    · rintro ⟨s, ⟨_, hs, ⟨⟩⟩, hcloses⟩
      exact ⟨(s, i), ⟨hs, hcloses⟩, rfl⟩

end Lists

/-- A report lists what is wrong, each thing once for every place and nothing else: names and keys
in the order of the walk, paths of arrays as sets, and numbers of lines in order. -/
theorem report_lists_places {d : Document} (h : d.Textual) :
    ∃ r, ofDocument d = .ok r ∧
      r.invalidNames =
        ((d.elements.map (·.name)).filter fun name => !Identifier.isValid name).map Value.asText ++
        ((visited d).flatMap fun p => (p.2.keys.filter fun key => !Identifier.isValid key).map
          fun key => String.ofList (p.1 ++ keyStep key)) ∧
      (r.mixedKinds.Nodup ∧
        ∀ s, s ∈ r.mixedKinds ↔ ∃ p ∈ visited d, p.2.MixesKinds ∧ s = String.ofList p.1) ∧
      (r.unequalTuples.Nodup ∧
        ∀ s, s ∈ r.unequalTuples ↔ ∃ p ∈ visited d, p.2.MixesLengths ∧ s = String.ofList p.1) ∧
      r.unsafeLines.Pairwise (· < ·) ∧
      ∀ i, i ∈ r.unsafeLines ↔
        ∃ s, d.headerLines[i]? = some (.text s) ∧ commentEnd <:+: s.toList := by
  obtain ⟨r, hr⟩ := exists_report h
  have hdescribes := describes_of_ofDocument hr
  exact ⟨r, hr, invalidNames_eq hdescribes,
    ⟨hdescribes.mixedKinds ▸ nodup_paths _, fun _ => mem_mixedKinds_iff hdescribes⟩,
    ⟨hdescribes.unequalTuples ▸ nodup_paths _, fun _ => mem_unequalTuples_iff hdescribes⟩,
    unsafeLines_listed h.lines hdescribes⟩

/-- Tuples of two lengths, one of them under a key that is no identifier. -/
def raggedRows : Element :=
  .array [⟨.text "a b", .tuple []⟩, ⟨.text "c", .tuple [.scalar (.int 2)]⟩]

/-- A document with such an array behind a literal in a set in a tuple. -/
def sketch : Document where
  elements := [⟨.text "9 lives", .scalar (.int 1)⟩,
    ⟨.text "Plan", .tuple [.set [.scalar (.int 1), .element raggedRows]]⟩]
  headerLines := [.text "fine", .text "breaks */ here"]

theorem sketch_textual : sketch.Textual where
  names := by simp [sketch]
  keys := by
    have hleaf {e : Element} (hkeys : e.keys = []) (hchildren : e.children = []) :
        e.Everywhere Element.KeyedByTexts :=
      .leaf (Element.keyedByTexts_of_keyless hkeys) hchildren
    have haround {e d : Element} (hkeys : e.keys = []) (hchildren : e.children = [d])
        (hd : d.Everywhere Element.KeyedByTexts) : e.Everywhere Element.KeyedByTexts :=
      .intro (Element.keyedByTexts_of_keyless hkeys) (by simpa [hchildren] using hd)
    have hrows : raggedRows.Everywhere Element.KeyedByTexts := by
      apply Element.Everywhere.intro
      · simp [raggedRows, Element.KeyedByTexts, Element.keys, Element.keys?]
      · intro d hd
        change d ∈ [_, _] at hd
        simp only [List.mem_cons, List.not_mem_nil, or_false] at hd
        rcases hd with rfl | rfl
        · exact hleaf rfl rfl
        · exact haround rfl rfl (hleaf rfl rfl)
    simp only [sketch, List.forall_mem_cons]
    exact ⟨hleaf rfl rfl, haround rfl rfl (haround rfl rfl hrows), by simp⟩
  lines := by simp [sketch]

theorem report_lists_places_sketch :
    sketch.Textual ∧ ∃ r, ofDocument sketch = .ok r ∧ "9 lives" ∈ r.invalidNames ∧
      "Plan<0>\x7b1\x7d[a b]" ∈ r.invalidNames ∧ "Plan<0>\x7b1\x7d" ∈ r.unequalTuples ∧
      1 ∈ r.unsafeLines := by
  obtain ⟨r, hr, hnames, -, ⟨-, hunequal⟩, -, hlines⟩ := report_lists_places sketch_textual
  have hrows : ("Plan<0>\x7b1\x7d".toList, raggedRows) ∈ visited sketch := by
    refine List.mem_flatMap.2 ⟨sketch.elements[1], List.mem_cons_of_mem _ List.mem_cons_self, ?_⟩
    refine mem_visits_of_mem_places List.mem_cons_self ?_
    refine mem_visits_of_mem_places List.mem_cons_self ?_
    exact mem_visits_self _ _
  refine ⟨sketch_textual, r, hr, ?_, ?_, ?_, ?_⟩
  · rw [hnames]
    exact List.mem_append_left _ (by decide)
  · rw [hnames]
    exact List.mem_append_right _ (List.mem_flatMap.2 ⟨_, hrows, by decide⟩)
  · refine (hunequal _).2 ⟨_, hrows, ⟨_, rfl, ?_, ?_⟩, by decide⟩
    · simp [Element.kind]
    · simp [Element.count?]
  · exact (hlines 1).2 ⟨"breaks */ here", rfl, by decide⟩

end Report

end ModelData
