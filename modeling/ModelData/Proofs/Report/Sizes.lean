import Mathlib.Algebra.BigOperators.Group.List.Lemmas
import ModelData.Proofs.Report.Naming
import ModelData.Proofs.Text.Lists

/-!
What a report counts. Elements are counted by kind, and each tree is measured by its height and
its size; a document is as high as the highest of its trees and as large as all of them together.
-/

namespace ModelData

/-- The keys that are given more than once are texts. -/
def Element.RepeatsTexts (e : Element) : Prop :=
  ∀ key ∈ e.keys, e.repeats key = true → ∃ s, key = .text s

namespace Report

theorem entryNodes_eq_sum (entries : List Named) :
    entryNodes entries = (entries.map fun n => nodes n.element).sum := by
  induction entries with
  | nil => rfl
  | cons n rest ih => rw [entryNodes, ih, List.map_cons, List.sum_cons]

theorem entryHeights_eq_foldr (entries : List Named) :
    entryHeights entries = (entries.map fun n => height n.element).foldr max 0 := by
  induction entries with
  | nil => rfl
  | cons n rest ih => rw [entryHeights, ih, List.map_cons, List.foldr_cons]

/-- Everything that is counted by kind is counted once. -/
theorem sum_countKinds (names : List String) : ((countKinds names).map (·.2)).sum = names.length := by
  have hperm : names.eraseDups.Perm names.dedup :=
    (List.perm_ext_iff_of_nodup (nodup_eraseDups names) (List.nodup_dedup names)).2 fun name => by
      rw [List.mem_eraseDups, List.mem_dedup]
  rw [countKinds, List.map_map]
  calc (names.eraseDups.map fun name => names.count name).sum
      = (names.dedup.map fun name => names.count name).sum := (hperm.map _).sum_nat
    _ = names.length := List.sum_map_count_dedup_eq_length names

section Measured

variable {d : Document}

/-- What the last array with a path repeats is repeated somewhere in the document. -/
theorem textsRepeated (h : ∀ n ∈ d.elements, n.element.Everywhere Element.RepeatsTexts) :
    TextsRepeated d := by
  intro path last hlast
  obtain ⟨p, hp, rfl⟩ := Option.map_eq_some_iff.1 hlast
  exact of_mem_visited h (List.mem_reverse.1 (List.mem_of_find?_eq_some hp))

/-- A key that cannot be looked up keeps the trees from being examined. -/
theorem ofDocument_unhashable
    (h : ∃ n ∈ d.elements, ¬ n.element.Everywhere Element.KeyedByHashables) :
    ∃ k, ofDocument d = .error (.unhashable k) := by
  obtain ⟨n, hn, hkeys⟩ := h
  cases hcount : uncounted? d with
  | none => exact absurd ((uncounted?_eq_none_iff.1 hcount).keys n hn) hkeys
  | some m =>
    obtain ⟨k, -, rfl⟩ := Option.map_eq_some_iff.1 hcount
    exact ⟨k, by simp only [ofDocument, hcount]; rfl⟩

end Measured

/-- A tree is measured by its height and its size unless a key in it cannot be looked up. Of the
trees of a document the report tells the greatest height and the sum of the sizes, and it counts
each element under one kind. -/
theorem sizes_reported :
    (∀ e : Element, (uncountable? e = none ↔ e.Everywhere Element.KeyedByHashables) ∧
      extent e = ⟨height e, nodes e⟩) ∧
    ∀ d : Document, (∀ n ∈ d.elements, ∃ s, n.name = .text s) →
      (∀ line ∈ d.headerLines, ∃ s, line = .text s) →
      (∀ r, ofDocument d = .ok r →
        r.nodeCount = (d.elements.map fun n => nodes n.element).sum ∧
        r.maxDepth = (d.elements.map fun n => height n.element).foldr max 0 ∧
        (r.kinds.map (·.2)).sum = r.elementCount ∧ r.elementCount = d.elements.length) ∧
      ((∃ n ∈ d.elements, ¬ n.element.Everywhere Element.KeyedByHashables) →
        ∃ k, ofDocument d = .error (.unhashable k)) ∧
      ((∀ n ∈ d.elements, n.element.Everywhere fun e =>
        e.KeyedByHashables ∧ e.RepeatsTexts) → ∃ r, ofDocument d = .ok r) := by
  refine ⟨fun e => ⟨uncountable?_eq_none_iff, extent_eq e⟩, fun d hnames hlines => ⟨?_, ?_, ?_⟩⟩
  · intro r hr
    have hdescribes := describes_of_ofDocument hr
    refine ⟨hdescribes.nodeCount.trans (entryNodes_eq_sum _),
      hdescribes.maxDepth.trans (entryHeights_eq_foldr _), ?_, hdescribes.elementCount⟩
    rw [hdescribes.kinds, sum_countKinds, List.length_map, hdescribes.elementCount]
  · exact ofDocument_unhashable
  · intro hkeys
    have hcount : d.Countable := by
      refine ⟨fun n hn => ?_, fun n hn => (hkeys n hn).mono fun _ h => h.1⟩
      obtain ⟨s, hs⟩ := hnames n hn
      rw [hs]
      rfl
    exact (exists_ofDocument_iff hcount hlines).2
      ⟨hnames, textsRepeated fun n hn => (hkeys n hn).mono fun _ h => h.2⟩

/-- A set with a bare number beside a tuple, and a number. -/
def mixture : Document where
  elements := [⟨.text "a", .set [.scalar (.int 1), .element (.tuple [.scalar (.int 2)])]⟩,
    ⟨.text "b", .scalar (.int 3)⟩]

theorem sizes_reported_mixture :
    (∀ n ∈ mixture.elements, ∃ s, n.name = .text s) ∧
    (∀ line ∈ mixture.headerLines, ∃ s, line = .text s) ∧
    (∀ n ∈ mixture.elements, n.element.Everywhere fun e =>
      e.KeyedByHashables ∧ e.RepeatsTexts) ∧
    ∃ r, ofDocument mixture = .ok r ∧ r.nodeCount = 5 ∧ r.maxDepth = 3 ∧
      (r.kinds.map (·.2)).sum = 2 := by
  have hnames : ∀ n ∈ mixture.elements, ∃ s, n.name = .text s := by simp [mixture]
  have hlines : ∀ line ∈ mixture.headerLines, ∃ s, line = .text s := by simp [mixture]
  have hkeyless {e : Element} (h : e.keys = []) : e.KeyedByHashables ∧ e.RepeatsTexts :=
    ⟨Element.keyedByHashables_of_keyless h, by simp [Element.RepeatsTexts, h]⟩
  have hkeys : ∀ n ∈ mixture.elements, n.element.Everywhere fun e =>
      e.KeyedByHashables ∧ e.RepeatsTexts := by
    simp only [mixture, List.forall_mem_cons]
    refine ⟨.intro (hkeyless rfl) ?_, .leaf (hkeyless rfl) rfl, by simp⟩
    simp only [Element.children, List.filterMap_cons, List.filterMap_nil, Member.element?,
      List.forall_mem_cons]
    refine ⟨.intro (hkeyless rfl) ?_, by simp⟩
    simp only [Element.children, List.forall_mem_cons]
    exact ⟨.leaf (hkeyless rfl) rfl, by simp⟩
  obtain ⟨hreported, -, hmade⟩ := sizes_reported.2 mixture hnames hlines
  obtain ⟨r, hr⟩ := hmade hkeys
  obtain ⟨hnodes, hdepth, hkinds, hcount⟩ := hreported r hr
  exact ⟨hnames, hlines, hkeys, r, hr, hnodes, hdepth, hkinds.trans hcount⟩

/-- An array whose key is a list. -/
def keyedByList : Element :=
  .array [⟨.list [.text "x"], .scalar (.int 1)⟩]

def listKeyed : Document where
  elements := [⟨.text "a", keyedByList⟩]

/-- Such a key cannot be looked up, so the array cannot be measured and the document has no
report. -/
theorem not_always_measured :
    (∀ n ∈ listKeyed.elements, ∃ s, n.name = .text s) ∧
    (∀ line ∈ listKeyed.headerLines, ∃ s, line = .text s) ∧
    uncountable? keyedByList = some .list ∧
    ofDocument listKeyed = .error (.unhashable .list) := by
  have hkey : uncountable? keyedByList = some .list := by
    simp [keyedByList, uncountable?, Value.anyUnhashable?, Value.unhashable?]
  have hcount : uncounted? listKeyed = some (.unhashable .list) := by
    simp [uncounted?, listKeyed, hkey, Value.anyUnhashable?, Value.unhashable?]
  refine ⟨by simp [listKeyed], by simp [listKeyed], hkey, ?_⟩
  simp only [ofDocument, hcount]
  rfl

end Report

end ModelData
