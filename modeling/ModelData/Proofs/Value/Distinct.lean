import ModelData.Value.Form

/-!
What is distinct in a list. The first of equal items is kept, so every item equals one that is
kept, no two that are kept are equal, and a second round drops nothing.
-/

namespace ModelData

variable {α : Type} {form : α → Form}

theorem distinctFrom_nil (seen : List Form) : distinctFrom form seen [] = [] :=
  rfl

theorem distinctFrom_cons (seen : List Form) (x : α) (xs : List α) :
    distinctFrom form seen (x :: xs) =
      if form x ∈ seen then distinctFrom form seen xs
      else x :: distinctFrom form (form x :: seen) xs :=
  rfl

theorem mem_of_mem_distinctFrom {seen : List Form} {x : α} {xs : List α}
    (h : x ∈ distinctFrom form seen xs) : x ∈ xs ∧ form x ∉ seen := by
  induction xs generalizing seen with
  | nil => simp [distinctFrom_nil] at h
  | cons y xs ih =>
    rw [distinctFrom_cons] at h
    split at h
    · exact ⟨List.mem_cons_of_mem y (ih h).1, (ih h).2⟩
    · next hy =>
      rcases List.mem_cons.1 h with rfl | h
      · exact ⟨List.mem_cons_self, hy⟩
      · exact ⟨List.mem_cons_of_mem y (ih h).1,
          fun hseen => (ih h).2 (List.mem_cons_of_mem _ hseen)⟩

theorem mem_of_mem_distinct {x : α} {xs : List α} (h : x ∈ distinct form xs) : x ∈ xs :=
  (mem_of_mem_distinctFrom h).1

/-- What an item equals first, in all items, is what is kept for it. -/
theorem find?_of_mem_distinctFrom {seen : List Form} {x : α} {xs : List α} (h : x ∈ xs)
    (hnew : form x ∉ seen) :
    ∃ y ∈ distinctFrom form seen xs, xs.find? (fun z => form z = form x) = some y := by
  -- an item of another form may add to what was seen, and the form stays new
  induction xs generalizing seen with
  | nil => simp at h
  | cons z xs ih =>
    rw [distinctFrom_cons]
    by_cases hz : form z = form x
    · rw [if_neg (hz ▸ hnew), List.find?_cons_of_pos (by simpa using hz)]
      exact ⟨z, List.mem_cons_self, rfl⟩
    · rw [List.find?_cons_of_neg (by simpa using hz)]
      have hx : x ∈ xs := (List.mem_cons.1 h).resolve_left fun heq => hz (heq ▸ rfl)
      split
      · exact ih hx hnew
      · have hmore : form x ∉ form z :: seen := by simp [Ne.symm hz, hnew]
        obtain ⟨y, hy, hfirst⟩ := ih hx hmore
        exact ⟨y, List.mem_cons_of_mem z hy, hfirst⟩

/-- Every item equals one that is kept. -/
theorem exists_mem_distinct {x : α} {xs : List α} (h : x ∈ xs) :
    ∃ y ∈ distinct form xs, form y = form x := by
  obtain ⟨y, hy, hfirst⟩ := find?_of_mem_distinctFrom h List.not_mem_nil
  have hform : form y = form x := by simpa using List.find?_some hfirst
  exact ⟨y, hy, hform⟩

theorem distinct_eq_nil_iff {xs : List α} : distinct form xs = [] ↔ xs = [] := by
  cases xs with
  | nil => simp [distinct, distinctFrom_nil]
  | cons x xs => simp [distinct, distinctFrom_cons]

theorem distinctFrom_eq_self {seen : List Form} {xs : List α}
    (hnew : ∀ x ∈ xs, form x ∉ seen) (hxs : (xs.map form).Nodup) :
    distinctFrom form seen xs = xs := by
  induction xs generalizing seen with
  | nil => rfl
  | cons x xs ih =>
    rw [List.map_cons, List.nodup_cons] at hxs
    rw [distinctFrom_cons, if_neg (hnew x List.mem_cons_self), ih (fun y hy => ?_) hxs.2]
    intro hmem
    rcases List.mem_cons.1 hmem with heq | hseen
    · exact hxs.1 (heq ▸ List.mem_map_of_mem hy)
    · exact hnew y (List.mem_cons_of_mem x hy) hseen

theorem nodup_distinctFrom (seen : List Form) (xs : List α) :
    ((distinctFrom form seen xs).map form).Nodup := by
  induction xs generalizing seen with
  | nil => simp [distinctFrom_nil]
  | cons x xs ih =>
    rw [distinctFrom_cons]
    split
    · exact ih seen
    · rw [List.map_cons, List.nodup_cons]
      refine ⟨fun hmem => ?_, ih _⟩
      obtain ⟨y, hy, hform⟩ := List.mem_map.1 hmem
      exact (mem_of_mem_distinctFrom hy).2 (hform ▸ List.mem_cons_self)

theorem distinct_distinct (xs : List α) :
    distinct form (distinct form xs) = distinct form xs :=
  distinctFrom_eq_self (fun _ _ => by simp) (nodup_distinctFrom [] xs)

theorem distinctFrom_sublist (form : α → Form) (seen : List Form) (xs : List α) :
    (distinctFrom form seen xs).Sublist xs := by
  induction xs generalizing seen with
  | nil => exact .slnil
  | cons x xs ih =>
    rw [distinctFrom_cons]
    split
    · exact (ih seen).cons x
    · exact (ih _).cons_cons x

theorem map_eq_self_iff {f : α → α} {xs : List α} :
    xs.map f = xs ↔ ∀ x ∈ xs, f x = x := by
  induction xs with
  | nil => simp
  | cons x xs ih => simp [ih]

/-- What is distinct among changed members is what the members were only if none changed. -/
theorem distinct_map_eq_self_iff {f : α → α} {xs : List α} (h : distinct form xs = xs) :
    distinct form (xs.map f) = xs ↔ ∀ x ∈ xs, f x = x := by
  rw [← map_eq_self_iff]
  constructor
  · intro heq
    have hsublist := distinctFrom_sublist form [] (xs.map f)
    have hkept : distinctFrom form [] (xs.map f) = xs.map f := by
      refine hsublist.eq_of_length ?_
      rw [List.length_map]
      exact congrArg List.length heq
    exact hkept.symm.trans heq
  · intro heq
    rw [heq, h]

end ModelData
