import ModelData.Proofs.Report.Listing
import ModelData.Proofs.Report.Repeats

/-!
Names and keys that are no texts. They are no identifiers either. The walk lists such a key by the
path that it belongs to, but a top-level name is listed as it is, and so are the keys that an array
repeats, and only texts can be joined to a warning.
-/

namespace ModelData.Report

variable {d : Document} {r : Report}

section Joining

variable {values : List Value}

/-- The first value that is no text is the one that the others cannot be joined with. -/
theorem texts_error {v : Value} (hv : ∀ s, v ≠ .text s) (ss : List String) (rest : List Value) :
    texts (ss.map .text ++ v :: rest) = .error (.joinItem ss.length v.kind) := by
  have hfrom (index : Nat) : textsFrom index (ss.map .text ++ v :: rest) =
      .error (.joinItem (index + ss.length) v.kind) := by
    induction ss generalizing index with
    | nil =>
      cases v with
      | text s => exact absurd rfl (hv s)
      | _ => rfl
    | cons s ss ih =>
      rw [List.map_cons, List.cons_append, textsFrom, ih, List.length_cons, Nat.add_right_comm]
      rfl
  rw [texts, hfrom, Nat.zero_add]

/-- Values can be joined just when all of them are texts. -/
theorem exists_texts_iff : (∃ ss, texts values = .ok ss) ↔ ∀ v ∈ values, ∃ s, v = .text s := by
  constructor
  · rintro ⟨ss, hss⟩ v hv
    obtain ⟨s, -, rfl⟩ := List.mem_map.1 (texts_eq_ok_iff.1 hss ▸ hv)
    exact ⟨s, rfl⟩
  · intro h
    obtain ⟨ss, hss⟩ := exists_texts h
    exact ⟨ss, texts_eq_ok_iff.2 hss.symm⟩

theorem exists_sortedTexts_iff :
    (∃ ss, sortedTexts values = .ok ss) ↔ ∀ v ∈ values, ∃ s, v = .text s := by
  constructor
  · rintro ⟨ss, hss⟩ v hv
    obtain ⟨s, -, rfl⟩ := List.mem_map.1 ((sortedTexts_perm hss).mem_iff.2 hv)
    exact ⟨s, rfl⟩
  · intro h
    obtain ⟨ss, hss, -⟩ := exists_sortedTexts h
    exact ⟨ss, hss⟩

end Joining

section Parts

theorem text_of_isValid {v : Value} (h : Identifier.isValid v = true) : ∃ s, v = .text s := by
  cases v with
  | text s => exact ⟨s, rfl⟩
  | _ => cases h

/-- Keys are listed with their paths, so only names can keep the list from being made. -/
theorem texts_of_invalidIn_iff :
    (∀ v ∈ invalidIn d, ∃ s, v = .text s) ↔ ∀ n ∈ d.elements, ∃ s, n.name = .text s := by
  constructor
  · intro h n hn
    cases hvalid : Identifier.isValid n.name with
    | true => exact text_of_isValid hvalid
    | false =>
      refine h _ (List.mem_append_left _ (List.mem_filter.2 ⟨List.mem_map_of_mem hn, ?_⟩))
      rw [hvalid]
      rfl
  · intro h v hv
    rcases List.mem_append.1 hv with hv | hv
    · obtain ⟨n, hn, rfl⟩ := List.mem_map.1 (List.mem_of_mem_filter hv)
      exact h n hn
    · obtain ⟨f, -, hf⟩ := List.mem_filterMap.1 hv
      cases f <;> cases hf
      exact ⟨_, rfl⟩

/-- The keys that a report has to list as repeated are texts. -/
def TextsRepeated (d : Document) : Prop :=
  ∀ path last, lastRepeating? d path = some last →
    ∀ key ∈ last.keys, last.repeats key = true → ∃ s, key = .text s

theorem texts_of_repeated_iff {e : Element} :
    (∀ v ∈ repeated e.keys, ∃ s, v = .text s) ↔
      ∀ key ∈ e.keys, e.repeats key = true → ∃ s, key = .text s := by
  constructor
  · intro h key hkey hrepeats
    obtain ⟨v, hv, hform⟩ := exists_repeated hkey hrepeats
    obtain ⟨s, rfl⟩ := h v hv
    exact ⟨s, Value.eq_text_of_form hform.symm⟩
  · intro h v hv
    obtain ⟨hkey, hrepeats⟩ := mem_repeated hv
    exact h v hkey hrepeats

theorem exists_duplicateKeys_iff :
    (∃ keys, (repeatedKeysIn d).mapM (fun (path, keys) =>
      do return (path, ← sortedTexts keys)) = .ok keys) ↔ TextsRepeated d := by
  constructor
  · rintro ⟨keys, hkeys⟩ path last hlast
    have hentry := mem_repeatedKeysIn_iff.2 ⟨path, last, hlast, rfl⟩
    obtain ⟨listed, -, hlisted⟩ := exists_of_forall₂ (forall₂_of_mapM hkeys) hentry
    obtain ⟨ss, hss, -⟩ := bind_eq_ok hlisted
    exact texts_of_repeated_iff.1 (exists_sortedTexts_iff.1 ⟨ss, hss⟩)
  · intro h
    suffices hsteps : ∀ entry ∈ repeatedKeysIn d, ∃ listed : String × List String,
        (do return (entry.1, ← sortedTexts entry.2)) = Except.ok listed ∧ True by
      obtain ⟨keys, hkeys, -⟩ := exists_mapM hsteps
      exact ⟨keys, hkeys⟩
    intro entry hentry
    obtain ⟨path, last, hlast, rfl⟩ := mem_repeatedKeysIn_iff.1 hentry
    obtain ⟨ss, hss⟩ := exists_sortedTexts_iff.2 (texts_of_repeated_iff.2 (h path last hlast))
    exact ⟨(String.ofList path, ss), by simp only [hss, ok_bind]; rfl, trivial⟩

end Parts

section Made

variable (hcount : d.Countable) (hlines : ∀ line ∈ d.headerLines, ∃ s, line = .text s)
include hcount hlines

/-- Of names and keys that can be counted, those that are listed as they are have to be texts. -/
theorem exists_ofDocument_iff :
    (∃ r, ofDocument d = .ok r) ↔
      (∀ n ∈ d.elements, ∃ s, n.name = .text s) ∧ TextsRepeated d := by
  constructor
  · rintro ⟨r, hr⟩
    have hdescribes := describes_of_ofDocument hr
    exact ⟨texts_of_invalidIn_iff.1 (exists_texts_iff.1 ⟨_, hdescribes.invalidNames⟩),
      exists_duplicateKeys_iff.1 ⟨_, hdescribes.duplicateKeys⟩⟩
  · rintro ⟨hnames, hrepeated⟩
    obtain ⟨lines, hlines⟩ := exists_texts hlines
    obtain ⟨invalid, hinvalid⟩ := exists_texts_iff.2 (texts_of_invalidIn_iff.2 hnames)
    obtain ⟨names, hnames⟩ := exists_sortedTexts_iff.2 fun v hv => by
      obtain ⟨n, hn, rfl⟩ := List.mem_map.1 (mem_of_mem_repeated hv)
      exact hnames n hn
    obtain ⟨keys, hkeys⟩ := exists_duplicateKeys_iff.2 hrepeated
    exact exists_ofDocument (uncounted?_eq_none_iff.2 hcount)
      (hlines ▸ closingLines_texts 0 lines) hinvalid hnames hkeys

/-- The first top-level name that is no text is what the report fails on. -/
theorem ofDocument_error {before after : List Named} {n : Named}
    (helements : d.elements = before ++ n :: after)
    (hbefore : ∀ m ∈ before, ∃ s, m.name = .text s) (hname : ∀ s, n.name ≠ .text s) :
    ofDocument d =
      .error (.joinItem (before.countP fun m => !Identifier.isValid m.name) n.name.kind) := by
  obtain ⟨lines, hlines⟩ := exists_texts hlines
  have htexts : ∀ v ∈ (before.map (·.name)).filter fun name => !Identifier.isValid name,
      ∃ s, v = .text s := by
    intro v hv
    obtain ⟨m, hm, rfl⟩ := List.mem_map.1 (List.mem_of_mem_filter hv)
    exact hbefore m hm
  obtain ⟨ss, hss⟩ := exists_texts htexts
  have hinvalid : Identifier.isValid n.name = false := by
    cases hvalid : Identifier.isValid n.name with
    | false => rfl
    | true =>
      obtain ⟨s, hs⟩ := text_of_isValid hvalid
      exact absurd hs (hname s)
  have hnames : invalidIn d = ss.map .text ++ n.name ::
      ((after.map (·.name)).filter (fun name => !Identifier.isValid name) ++
        (documentFindings d).filterMap invalidNameOf) := by
    rw [invalidIn, helements, List.map_append, List.filter_append, hss, List.map_cons,
      List.filter_cons_of_pos (by simp [hinvalid]), List.append_assoc, List.cons_append]
  have hlength : ss.length = before.countP fun m => !Identifier.isValid m.name := by
    have hcounted := congrArg List.length hss
    rw [List.length_map, ← List.countP_eq_length_filter, List.countP_map] at hcounted
    exact hcounted.symm
  have herror := texts_error hname ss ((after.map (·.name)).filter
    (fun name => !Identifier.isValid name) ++ (documentFindings d).filterMap invalidNameOf)
  rw [← hnames, hlength, invalidIn] at herror
  simp only [ofDocument, uncounted?_eq_none_iff.2 hcount, hlines, closingLines_texts, ok_bind,
    herror]
  rfl

end Made

/-- Bad names are reported as long as they are texts. No report is made if a top-level name is
none, and it fails on the first such name, or if a key that has to be listed as repeated is none.
Any other key may be whatever can be looked up, and is reported with its path if it is bad. -/
theorem bad_names_reported {d : Document} (hcount : d.Countable)
    (hlines : ∀ line ∈ d.headerLines, ∃ s, line = .text s) :
    ((∃ r, ofDocument d = .ok r) ↔
      (∀ n ∈ d.elements, ∃ s, n.name = .text s) ∧ TextsRepeated d) ∧
    (∀ r, ofDocument d = .ok r →
      (∀ n ∈ d.elements, Identifier.isValid n.name = false → n.name.asText ∈ r.invalidNames) ∧
      ∀ p ∈ visited d, ∀ key ∈ p.2.keys, Identifier.isValid key = false →
        String.ofList (p.1 ++ keyStep key) ∈ r.invalidNames) ∧
    ∀ before n after, d.elements = before ++ n :: after →
      (∀ m ∈ before, ∃ s, m.name = .text s) → (∀ s, n.name ≠ .text s) →
      ofDocument d =
        .error (.joinItem (before.countP fun m => !Identifier.isValid m.name) n.name.kind) := by
  refine ⟨exists_ofDocument_iff hcount hlines, fun r hr => ?_,
    fun _ _ _ => ofDocument_error hcount hlines⟩
  rw [invalidNames_eq (describes_of_ofDocument hr)]
  constructor
  · intro n hn hinvalid
    refine List.mem_append_left _ (List.mem_map_of_mem (List.mem_filter.2 ?_))
    exact ⟨List.mem_map_of_mem hn, by simp [hinvalid]⟩
  · intro p hp key hkey hinvalid
    refine List.mem_append_right _ (List.mem_flatMap.2 ⟨p, hp, List.mem_map.2 ⟨key, ?_, rfl⟩⟩)
    exact List.mem_filter.2 ⟨hkey, by simp [hinvalid]⟩

/-- An element under a number behind one under a text that is no identifier. -/
def numbered : Document where
  elements := [⟨.text "9 lives", .scalar (.int 9)⟩, ⟨.int 5, .scalar (.int 1)⟩]

theorem bad_names_reported_numbered :
    numbered.Countable ∧ (∀ line ∈ numbered.headerLines, ∃ s, line = .text s) ∧
      Identifier.isValid (.int 5) = false ∧
      ofDocument numbered = .error (.joinItem 1 .int) := by
  have hcount : numbered.Countable := by
    have hleaf (i : Int) : (Element.scalar (.int i)).Everywhere Element.KeyedByHashables :=
      .leaf (Element.keyedByHashables_of_keyless rfl) rfl
    constructor
    · simp [numbered, Value.unhashable?]
    · simp [numbered, hleaf]
  have hlines : ∀ line ∈ numbered.headerLines, ∃ s, line = .text s := by simp [numbered]
  refine ⟨hcount, hlines, rfl, ?_⟩
  obtain ⟨-, -, hfails⟩ := bad_names_reported hcount hlines
  exact hfails [⟨.text "9 lives", .scalar (.int 9)⟩] ⟨.int 5, .scalar (.int 1)⟩ [] rfl (by simp)
    (by simp)

end ModelData.Report
