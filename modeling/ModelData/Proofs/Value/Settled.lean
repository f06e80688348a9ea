import ModelData.Proofs.Value.Stored

/-!
Values with their tables in order. Where the keys of a table are texts, putting its entries in their
order a second time changes nothing. A value that can be a key holds no table, so it stays as it
is.
-/

namespace ModelData

namespace Value

mutual

/-- The value with the entries of all tables in it in the order of their keys. -/
def settled : Value → Value
  | .list items => .list (allSettled items)
  | .table entries => .table (Table.ordered true (entriesSettled entries))
  | v => v

def allSettled : List Value → List Value
  | [] => []
  | v :: rest => settled v :: allSettled rest

def entriesSettled : List (Value × Value) → List (Value × Value)
  | [] => []
  | (k, v) :: rest => (k, settled v) :: entriesSettled rest

end

theorem allSettled_eq_map (items : List Value) : allSettled items = items.map settled := by
  induction items with
  | nil => rfl
  | cons v rest ih => rw [allSettled, ih, List.map_cons]

theorem entriesSettled_eq_map (entries : List (Value × Value)) :
    entriesSettled entries = entries.map fun e => (e.1, e.2.settled) := by
  induction entries with
  | nil => rfl
  | cons e rest ih =>
    obtain ⟨k, v⟩ := e
    rw [entriesSettled, ih, List.map_cons]

theorem settled_list (items : List Value) : (list items).settled = .list (items.map settled) := by
  rw [settled, allSettled_eq_map]

/-- It is the same whether the entries are put in order before or after what they hold. -/
theorem settled_table (entries : List (Value × Value)) :
    (table entries).settled =
      .table ((Table.ordered true entries).map fun e => (e.1, e.2.settled)) := by
  rw [settled, entriesSettled_eq_map, ← Table.map_ordered]

/-- Only lists and tables are settled, and neither can be a key. -/
theorem settled_of_hashable {v : Value} (h : v.unhashable? = none) : v.settled = v := by
  cases v with
  | list | table => simp [unhashable?] at h
  | _ => rfl

end Value

namespace Table

variable {α : Type} {entries : List (Value × α)}

theorem mayPrecede_text (s t : String) :
    (Value.text s).mayPrecede (.text t) = decide (s ≤ t) := by
  have hbefore : (Value.text t).isBefore (.text s) = .ok (decide (t < s)) := rfl
  rw [Value.mayPrecede, hbefore]
  by_cases h : t < s
  · simp [h, String.not_le.2 h]
  · simp [h, String.not_lt.1 h]

/-- With texts for keys the entries stand in a total order of these. -/
theorem ordered_eq (h : Worded entries) :
    ordered true entries = entries.mergeSort fun e f => e.1.asText ≤ f.1.asText := by
  have hsorted : (entries.mergeSort fun e f => e.1.mayPrecede f.1).map id =
      (entries.map id).mergeSort fun e f => e.1.asText ≤ f.1.asText := by
    refine List.map_mergeSort fun e he f hf => ?_
    obtain ⟨s, hs⟩ := h.texts e he
    obtain ⟨t, ht⟩ := h.texts f hf
    rw [id, id, hs, ht, mayPrecede_text, Value.asText_text, Value.asText_text]
  rwa [List.map_id, List.map_id] at hsorted

/-- What is in order stays as it is. -/
theorem ordered_ordered (h : Worded entries) :
    ordered true (ordered true entries) = ordered true entries := by
  rw [ordered_eq (worded_perm h (ordered_perm true entries)), ordered_eq h]
  refine List.mergeSort_of_pairwise (List.pairwise_mergeSort ?_ ?_ entries)
  · intro a b c hab hbc
    exact decide_eq_true (String.le_trans (of_decide_eq_true hab) (of_decide_eq_true hbc))
  · intro a b
    simpa using String.le_total a.1.asText b.1.asText

end Table

end ModelData
