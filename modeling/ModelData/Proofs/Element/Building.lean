import ModelData.Element.Build
import ModelData.Proofs.Value.Traverse

/-!
Tuples and arrays as they are built. Both take just the items they can hold, in their order; a
tuple takes elements and an array takes named elements, and nothing else is refused.
-/

namespace ModelData.Element

variable {items : Value} {values : List Value}

theorem makeTuple_of_elements {parts : List Element}
    (h : items.itemsFor .tuple = .ok (parts.map .element)) :
    makeTuple items = .ok (.tuple parts) := by
  rw [makeTuple, h, ok_bind, mapM_map_of_inverse]
  · rfl
  · exact fun _ => rfl

theorem makeArray_of_entries {entries : List Named}
    (h : items.itemsFor .array = .ok (entries.map .named)) :
    makeArray items = .ok (.array entries) := by
  rw [makeArray, h, ok_bind, mapM_map_of_inverse]
  · rfl
  · exact fun _ => rfl

theorem exists_parts {e : Element} (hitems : items.itemsFor .tuple = .ok values)
    (h : makeTuple items = .ok e) : ∃ parts, e = .tuple parts ∧ parts.map .element = values := by
  rw [makeTuple, hitems, ok_bind] at h
  obtain ⟨parts, hparts, h⟩ := bind_eq_ok h
  cases h
  refine ⟨parts, rfl, map_eq_of_mapM hparts fun v _ d hd => ?_⟩
  cases v <;> cases hd
  rfl

theorem exists_entries {e : Element} (hitems : items.itemsFor .array = .ok values)
    (h : makeArray items = .ok e) :
    ∃ entries, e = .array entries ∧ entries.map .named = values := by
  rw [makeArray, hitems, ok_bind] at h
  obtain ⟨entries, hentries, h⟩ := bind_eq_ok h
  cases h
  refine ⟨entries, rfl, map_eq_of_mapM hentries fun v _ n hn => ?_⟩
  cases v <;> cases hn
  rfl

end ModelData.Element
