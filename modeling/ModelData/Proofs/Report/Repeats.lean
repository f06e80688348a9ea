import ModelData.Proofs.Report.Visits
import ModelData.Proofs.Report.Parts
import ModelData.Proofs.Sorting.Permutation
import ModelData.Proofs.Value.Forms

/-!
Keys that an array gives more than once. A report lists them by the path of the array. Where
several arrays with one path repeat keys, only what the last of them repeats is kept.
-/

namespace ModelData

/-- Whether an array gives a key more than once. -/
def Element.repeats (e : Element) (key : Value) : Bool :=
  1 < e.keys.countP fun k => k.equals key

namespace Report

/-- The last node visited under a path that repeats a key. -/
def lastRepeating? (d : Document) (path : List Char) : Option Element :=
  ((visited d).reverse.find? fun p => p.1 = path && p.2.keys.any p.2.repeats).map (·.2)

section Repeated

variable {e : Element} {v : Value}

theorem repeats_eq (e : Element) (key : Value) :
    e.repeats key = decide (1 < (Value.forms e.keys).count key.form) := by
  rw [Element.repeats, Value.forms_eq_map, List.count, List.countP_map]
  rfl

theorem mem_repeated (h : v ∈ repeated e.keys) : v ∈ e.keys ∧ e.repeats v = true := by
  obtain ⟨hv, hcount⟩ := List.mem_filter.1 (mem_of_mem_distinct h)
  exact ⟨hv, repeats_eq e v ▸ hcount⟩

/-- A key that is repeated is listed as it first occurs. -/
theorem exists_repeated (hv : v ∈ e.keys) (h : e.repeats v = true) :
    ∃ w ∈ repeated e.keys, w.form = v.form :=
  exists_mem_distinct (List.mem_filter.2 ⟨hv, repeats_eq e v ▸ h⟩)

theorem any_repeats_eq (e : Element) :
    e.keys.any e.repeats = !(repeated e.keys).isEmpty := by
  rw [Bool.eq_iff_iff, List.any_eq_true]
  constructor
  · rintro ⟨v, hv, h⟩
    obtain ⟨w, hw, -⟩ := exists_repeated hv h
    simpa using List.ne_nil_of_mem hw
  · intro h
    obtain ⟨w, hw⟩ := List.exists_mem_of_ne_nil (repeated e.keys) (by simpa using h)
    exact ⟨w, mem_repeated hw⟩

theorem text_mem_of_repeats {s : String} (h : e.repeats (.text s) = true) :
    .text s ∈ e.keys := by
  have hsome : 0 < e.keys.countP fun k => k.equals (.text s) := by
    simp only [Element.repeats, decide_eq_true_eq] at h
    omega
  obtain ⟨k, hk, hequals⟩ := List.countP_pos_iff.1 hsome
  obtain rfl := Value.eq_text_of_form (of_decide_eq_true hequals)
  exact hk

theorem text_mem_repeated_iff {s : String} :
    .text s ∈ repeated e.keys ↔ e.repeats (.text s) = true := by
  constructor
  · exact fun h => (mem_repeated h).2
  · intro h
    obtain ⟨w, hw, hform⟩ := exists_repeated (text_mem_of_repeats h) h
    exact Value.eq_text_of_form hform ▸ hw

end Repeated

section Table

variable {path : String} {keys : List Value} {table : List (String × List Value)}

theorem find?_putKeys (p : String) :
    (putKeys path keys table).find? (fun entry => entry.1 = p) =
      if path = p then some (path, keys) else table.find? fun entry => entry.1 = p := by
  induction table with
  | nil => by_cases hp : path = p <;> simp [putKeys, hp]
  | cons first rest ih =>
    obtain ⟨q, old⟩ := first
    rw [putKeys]
    by_cases hq : q = path
    · subst hq
      by_cases hp : q = p <;> simp [hp]
    · rw [if_neg hq]
      by_cases hp : q = p
      · have hpath : path ≠ p := fun heq => hq (hp.trans heq.symm)
        simp [hp, hpath]
      · rw [List.find?_cons_of_neg (by simpa using hp), ih,
          List.find?_cons_of_neg (by simpa using hp)]

theorem nodup_putKeys (h : (table.map (·.1)).Nodup) :
    ((putKeys path keys table).map (·.1)).Nodup := by
  induction table with
  | nil => simp [putKeys]
  | cons first rest ih =>
    rw [List.map_cons, List.nodup_cons] at h
    rw [putKeys]
    split
    · exact List.nodup_cons.2 h
    · next hfirst =>
      refine List.nodup_cons.2 ⟨fun hmem => ?_, ih h.2⟩
      obtain ⟨entry, hentry, hpath⟩ := List.mem_map.1 hmem
      rcases mem_putKeys hentry with rfl | hentry
      · exact hfirst hpath.symm
      · exact h.1 (List.mem_map.2 ⟨entry, hentry, hpath⟩)

theorem nodup_keysByPath (fs : List Finding) : ((keysByPath fs).map (·.1)).Nodup := by
  rw [keysByPath_eq]
  refine List.foldlRecOn (fs.filterMap repeatedKeys?) _
    (motive := fun table => (List.map Prod.fst table).Nodup) List.nodup_nil
    fun table ih _ _ => ?_
  exact nodup_putKeys ih

/-- What was put last under a path is what stands there. -/
theorem find?_foldl_putKeys (entries : List (String × List Value)) (p : String) :
    (entries.foldl (fun table entry => putKeys entry.1 entry.2 table) table).find?
        (fun entry => entry.1 = p) =
      (entries.reverse.find? fun entry => entry.1 = p).or
        (table.find? fun entry => entry.1 = p) := by
  induction entries generalizing table with
  | nil => rfl
  | cons entry rest ih =>
    rw [List.foldl_cons, ih, find?_putKeys, List.reverse_cons, List.find?_append, Option.or_assoc]
    obtain ⟨q, keys⟩ := entry
    by_cases hq : q = p <;> simp [hq]

end Table

section Visits

/-- What a node adds to the repeated keys. -/
def repeatsAt? (p : List Char × Element) : Option (String × List Value) :=
  if (repeated p.2.keys).isEmpty then none else some (String.ofList p.1, repeated p.2.keys)

theorem repeated_ownFindings (path : List Char) (e : Element) :
    (ownFindings path e).filterMap repeatedKeys? = (repeatsAt? (path, e)).toList := by
  cases e with
  | array entries =>
    have hinvalid (keys : List Value) :
        (keys.map (Finding.invalidKey path)).filterMap repeatedKeys? = [] := by
      rw [List.filterMap_map, List.filterMap_eq_nil_iff]
      exact fun _ _ => rfl
    rw [ownFindings, arrayFindings, List.filterMap_append, List.filterMap_append, hinvalid,
      filterMap_kinds rfl rfl, List.append_nil, List.append_nil, repeatsAt?]
    change _ = (if (repeated (entries.map (·.name))).isEmpty then none else
      some (String.ofList path, repeated (entries.map (·.name)))).toList
    split <;> rfl
  | _ => rfl

theorem repeatedKeys_eq (d : Document) :
    (documentFindings d).filterMap repeatedKeys? = (visited d).filterMap repeatsAt? := by
  rw [documentFindings_eq, List.filterMap_flatMap, List.filterMap_eq_flatMap_toList]
  simp only [repeated_ownFindings]

/-- Under a path stands what the last array repeats that repeats something. -/
theorem find?_keysByPath (d : Document) (path : List Char) :
    (keysByPath (documentFindings d)).find? (fun entry => entry.1 = String.ofList path) =
      (lastRepeating? d path).map fun e => (String.ofList path, repeated e.keys) := by
  have hpath (p : List Char × Element) :
      (repeatsAt? p).any (fun entry => entry.1 = String.ofList path) =
        (decide (p.1 = path) && p.2.keys.any p.2.repeats) := by
    rw [any_repeats_eq, repeatsAt?]
    split <;> simp [*, String.ofList_inj]
  rw [keysByPath_eq, find?_foldl_putKeys, List.find?_nil, Option.or_none, repeatedKeys_eq,
    ← List.filterMap_reverse, List.find?_filterMap, lastRepeating?]
  simp only [hpath]
  cases hfound : (visited d).reverse.find? fun p => p.1 = path && p.2.keys.any p.2.repeats with
  | none => rfl
  | some p =>
    have hp := List.find?_some hfound
    rw [any_repeats_eq] at hp
    simp only [Bool.and_eq_true, decide_eq_true_eq, Bool.not_eq_true'] at hp
    rw [Option.bind_some, repeatsAt?, hp.1, hp.2]
    rfl

/-- The table has one entry for a path, so what stands there is what was put there last. -/
theorem mem_repeatedKeysIn_iff {d : Document} {entry : String × List Value} :
    entry ∈ repeatedKeysIn d ↔ ∃ path last, lastRepeating? d path = some last ∧
      entry = (String.ofList path, repeated last.keys) := by
  rw [repeatedKeysIn, List.mem_mergeSort]
  constructor
  · intro hentry
    have hsome : ((keysByPath (documentFindings d)).find? fun found =>
        found.1 = entry.1).isSome := List.find?_isSome.2 ⟨entry, hentry, by simp⟩
    obtain ⟨found, hfound⟩ := Option.isSome_iff_exists.1 hsome
    have hpath : found.1 = entry.1 := by simpa using List.find?_some hfound
    obtain rfl : found = entry :=
      List.inj_on_of_nodup_map (nodup_keysByPath _) (List.mem_of_find?_eq_some hfound) hentry hpath
    have hlast := find?_keysByPath d found.1.toList
    rw [String.ofList_toList, hfound] at hlast
    obtain ⟨last, hlast, hlisted⟩ := Option.map_eq_some_iff.1 hlast.symm
    exact ⟨_, last, hlast, by rw [String.ofList_toList, hlisted]⟩
  · rintro ⟨path, last, hlast, rfl⟩
    have hfound := find?_keysByPath d path
    rw [hlast, Option.map_some] at hfound
    exact List.mem_of_find?_eq_some hfound

end Visits

section Listed

variable {d : Document} {r : Report}

theorem sortedTexts_perm {values : List Value} {ss : List String}
    (h : sortedTexts values = .ok ss) : (ss.map Value.text).Perm values := by
  obtain ⟨sorted, hsorted, h⟩ := bind_eq_ok h
  rw [texts_eq_ok_iff.1 h]
  exact sortBy_perm hsorted

/-- The entries of a report are those of the table, with the keys in order. -/
theorem forall₂_duplicateKeys (h : r.Describes d) :
    List.Forall₂ (fun entry listed => listed.1 = entry.1 ∧
      (listed.2.map Value.text).Perm entry.2) (repeatedKeysIn d) r.duplicateKeys := by
  refine (forall₂_of_mapM h.duplicateKeys).imp fun entry listed hlisted => ?_
  obtain ⟨ss, hss, hlisted⟩ := bind_eq_ok hlisted
  cases hlisted
  exact ⟨rfl, sortedTexts_perm hss⟩

theorem nodup_duplicateKeys (h : r.Describes d) : (r.duplicateKeys.map (·.1)).Nodup := by
  have hpaths : (repeatedKeysIn d).map (·.1) = r.duplicateKeys.map (·.1) := by
    rw [← List.forall₂_eq_eq_eq, List.forall₂_map_left_iff, List.forall₂_map_right_iff]
    exact (forall₂_duplicateKeys h).imp fun _ _ hlisted => hlisted.1.symm
  rw [← hpaths, repeatedKeysIn, ((List.mergeSort_perm _ _).map _).nodup_iff]
  exact nodup_keysByPath _

/-- Under a path a report lists what the last array with that path repeats. -/
theorem exists_listed_keys (h : r.Describes d) {path : List Char} {last : Element}
    (hlast : lastRepeating? d path = some last) :
    ∃ keys, (String.ofList path, keys) ∈ r.duplicateKeys ∧
      ∀ s, s ∈ keys ↔ last.repeats (.text s) = true := by
  have hentry := mem_repeatedKeysIn_iff.2 ⟨path, last, hlast, rfl⟩
  obtain ⟨⟨_, keys⟩, hmem, rfl, hperm⟩ := exists_of_forall₂ (forall₂_duplicateKeys h) hentry
  refine ⟨keys, hmem, fun s => ?_⟩
  rw [← text_mem_repeated_iff, ← hperm.mem_iff, List.mem_map]
  simp

theorem exists_lastRepeating {path : List Char} {e : Element} {s : String}
    (he : (path, e) ∈ visited d) (h : e.repeats (.text s) = true) :
    ∃ last, lastRepeating? d path = some last := by
  have hfound : ((visited d).reverse.find? fun p =>
      p.1 = path && p.2.keys.any p.2.repeats).isSome := by
    rw [List.find?_isSome]
    refine ⟨(path, e), List.mem_reverse.2 he, ?_⟩
    simpa using ⟨_, text_mem_of_repeats h, h⟩
  obtain ⟨p, hp⟩ := Option.isSome_iff_exists.1 hfound
  exact ⟨p.2, by rw [lastRepeating?, hp, Option.map_some]⟩

end Listed

/-- If names and keys are texts, nothing but the lines can keep a report from being made. -/
theorem report_of_lines {d : Document} (hnames : ∀ n ∈ d.elements, ∃ s, n.name = .text s)
    (hkeys : ∀ n ∈ d.elements, n.element.Everywhere Element.KeyedByTexts) :
    (∀ m, closingLines 0 d.headerLines = .error m → ofDocument d = .error m) ∧
    ∀ lines, closingLines 0 d.headerLines = .ok lines → ∃ r, ofDocument d = .ok r := by
  have htextual : Document.Textual { d with headerLines := [] } := ⟨hnames, hkeys, by simp⟩
  have hcount := uncounted?_eq_none htextual
  change uncounted? d = none at hcount
  constructor
  · intro m hlines
    simp only [ofDocument, hcount, hlines]
    rfl
  · intro lines hlines
    obtain ⟨invalid, hinvalid⟩ := exists_texts (texts_of_mem_invalidIn htextual)
    obtain ⟨names, hnames, -⟩ := exists_sortedTexts (texts_of_mem_repeated htextual)
    obtain ⟨keys, hkeys, -⟩ := exists_duplicateKeys htextual
    exact exists_ofDocument hcount hlines (texts_eq_ok_iff.2 hinvalid.symm) hnames hkeys

/-- Every array that repeats a key has an entry under its path. There is one entry for each path,
and it lists the keys that the last array with that path repeats, so a key that an array repeats
is listed unless a later array with the same path repeats other keys alone. -/
theorem repeated_keys_listed {d : Document} (hnames : ∀ n ∈ d.elements, ∃ s, n.name = .text s)
    (hkeys : ∀ n ∈ d.elements, n.element.Everywhere Element.KeyedByTexts) :
    (∀ m, closingLines 0 d.headerLines = .error m → ofDocument d = .error m) ∧
    ∀ lines, closingLines 0 d.headerLines = .ok lines → ∃ r, ofDocument d = .ok r ∧
      (r.duplicateKeys.map (·.1)).Nodup ∧
      ∀ path e s, (path, e) ∈ visited d → e.repeats (.text s) = true →
        ∃ last keys, lastRepeating? d path = some last ∧
          (String.ofList path, keys) ∈ r.duplicateKeys ∧
          ∀ t, t ∈ keys ↔ last.repeats (.text t) = true := by
  obtain ⟨hfails, hmade⟩ := report_of_lines hnames hkeys
  refine ⟨hfails, fun lines hlines => ?_⟩
  obtain ⟨r, hr⟩ := hmade lines hlines
  have hdescribes := describes_of_ofDocument hr
  refine ⟨r, hr, nodup_duplicateKeys hdescribes, fun path e s he hrepeats => ?_⟩
  obtain ⟨last, hlast⟩ := exists_lastRepeating he hrepeats
  obtain ⟨keys, hmem, hlisted⟩ := exists_listed_keys hdescribes hlast
  exact ⟨last, keys, hlast, hmem, hlisted⟩

/-- An array that gives one key twice. -/
def doubled (key : String) : Element :=
  .array [⟨.text key, .scalar (.int 1)⟩, ⟨.text key, .scalar (.int 2)⟩]

theorem visits_doubled (path : List Char) (key : String) :
    visits path (doubled key) = [(path, doubled key),
      (path ++ keyStep (.text key), .scalar (.int 1)),
      (path ++ keyStep (.text key), .scalar (.int 2))] := by
  rw [visits_eq]
  simp [doubled, places, visits_leaf _ (show (Element.scalar _).children = [] from rfl)]

/-- Two such arrays with one path. -/
def namesakes : Document where
  elements := [⟨.text "a", doubled "x"⟩, ⟨.text "a", doubled "y"⟩]

theorem repeated_keys_listed_namesakes :
    (∀ n ∈ namesakes.elements, ∃ s, n.name = .text s) ∧
    (∀ n ∈ namesakes.elements, n.element.Everywhere Element.KeyedByTexts) ∧
    (['a'], doubled "x") ∈ visited namesakes ∧ (doubled "x").repeats (.text "x") = true ∧
    ∃ r keys, ofDocument namesakes = .ok r ∧ ("a", keys) ∈ r.duplicateKeys ∧
      "y" ∈ keys ∧ "x" ∉ keys := by
  have hnames : ∀ n ∈ namesakes.elements, ∃ s, n.name = .text s := by simp [namesakes]
  have hdoubled (key : String) : (doubled key).Everywhere Element.KeyedByTexts := by
    have hleaf (i : Int) : (Element.scalar (.int i)).Everywhere Element.KeyedByTexts :=
      .leaf (Element.keyedByTexts_of_keyless rfl) rfl
    apply Element.Everywhere.intro
    · simp [doubled, Element.KeyedByTexts, Element.keys, Element.keys?]
    · simpa [doubled, Element.children] using And.intro (hleaf 1) (hleaf 2)
  have hkeys : ∀ n ∈ namesakes.elements, n.element.Everywhere Element.KeyedByTexts := by
    simp [namesakes, hdoubled]
  have hvisited : visited namesakes =
      visits ['a'] (doubled "x") ++ visits ['a'] (doubled "y") := by
    simp [visited, namesakes, Value.chars]
  have hx : (['a'], doubled "x") ∈ visited namesakes :=
    hvisited ▸ List.mem_append_left _ (mem_visits_self _ _)
  have hlast : lastRepeating? namesakes ['a'] = some (doubled "y") := by
    rw [lastRepeating?, hvisited, visits_doubled, visits_doubled]
    rfl
  obtain ⟨r, hr, -, hlisted⟩ := (repeated_keys_listed hnames hkeys).2 [] rfl
  obtain ⟨last, keys, hfound, hmem, hwritten⟩ := hlisted ['a'] (doubled "x") "x" hx (by decide)
  obtain rfl : doubled "y" = last := Option.some.inj (hlast.symm.trans hfound)
  exact ⟨hnames, hkeys, hx, by decide, r, keys, hr, hmem, (hwritten "y").2 (by decide),
    fun h => absurd ((hwritten "x").1 h) (by decide)⟩

end Report

end ModelData
