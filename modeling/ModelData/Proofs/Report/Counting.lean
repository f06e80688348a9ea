import ModelData.Proofs.Element.Sets
import ModelData.Report

/-!
What can be counted. The names of a document and the keys of each array are looked up to find
those that occur twice, so none of them may be one that cannot be looked up.
-/

namespace ModelData

/-- A document in which the names and the keys of arrays can be looked up. -/
structure Document.Countable (d : Document) : Prop where
  names : ∀ n ∈ d.elements, n.name.unhashable? = none
  keys : ∀ n ∈ d.elements, n.element.Everywhere Element.KeyedByHashables

theorem Element.KeyedByTexts.hashable {e : Element} (h : e.KeyedByTexts) :
    e.KeyedByHashables := by
  intro name hname
  obtain ⟨s, rfl⟩ := h name hname
  rfl

namespace Report

section Elements

theorem memberUncountable?_eq (members : List Member) :
    memberUncountable? members = (members.filterMap Member.element?).findSome? uncountable? := by
  induction members with
  | nil => rfl
  | cons m rest ih =>
    cases m with
    | scalar | float =>
      simpa [memberUncountable?, Member.element?, List.filterMap_cons] using ih
    | element e =>
      simp only [memberUncountable?, Member.element?, List.filterMap_cons, List.findSome?_cons, ih]
      cases uncountable? e <;> rfl

theorem itemUncountable?_eq (items : List Element) :
    itemUncountable? items = items.findSome? uncountable? := by
  induction items with
  | nil => rfl
  | cons e rest ih =>
    simp only [itemUncountable?, List.findSome?_cons, ih]
    cases uncountable? e <;> rfl

theorem entryUncountable?_eq (entries : List Named) :
    entryUncountable? entries = (entries.map (·.element)).findSome? uncountable? := by
  induction entries with
  | nil => rfl
  | cons n rest ih =>
    obtain ⟨name, e⟩ := n
    simp only [entryUncountable?, List.map_cons, List.findSome?_cons, ih]
    cases uncountable? e <;> rfl

theorem uncountable?_eq (e : Element) :
    uncountable? e =
      (Value.anyUnhashable? e.keys).or (e.children.findSome? uncountable?) := by
  cases e with
  | scalar | float | custom => rfl
  | set members => exact memberUncountable?_eq members
  | tuple items => exact itemUncountable?_eq items
  | array entries => rw [uncountable?, entryUncountable?_eq]; rfl

/-- An element can be counted just when all keys in it can be looked up. -/
theorem uncountable?_eq_none_iff {e : Element} :
    uncountable? e = none ↔ e.Everywhere Element.KeyedByHashables := by
  induction e using Element.childInduction with
  | step e ih =>
    rw [uncountable?_eq, Option.or_eq_none_iff, anyUnhashable?_values_iff,
      List.findSome?_eq_none_iff, Element.everywhere_iff]
    exact and_congr_right fun _ => forall₂_congr ih

end Elements

/-- A document can be counted just when all its names and keys can be looked up. -/
theorem uncounted?_eq_none_iff {d : Document} : uncounted? d = none ↔ d.Countable := by
  simp only [uncounted?, Option.map_eq_none_iff, Option.or_eq_none_iff,
    anyUnhashable?_values_iff, List.forall_mem_map, List.findSome?_eq_none_iff,
    uncountable?_eq_none_iff]
  exact ⟨fun h => ⟨h.1, h.2⟩, fun h => ⟨h.names, h.keys⟩⟩

end Report

end ModelData
