import Mathlib.Data.List.TakeDrop

/-! Lists of characters. What holds of every character of a short list is checked by going
through the list, and characters of one sort at the start of a text are taken whole. In a text of
parts each part but the first stands behind a separator, and is told from the rest at the last
separator. A list without duplicates names each item once. -/

namespace ModelData

variable {α : Type} {p : α → Bool} {x : α} {xs ys : List α}

theorem forall_mem_of_all {P : α → Prop} [DecidablePred P]
    (h : (xs.all fun x => decide (P x)) = true) : ∀ x ∈ xs, P x :=
  fun x hx => of_decide_eq_true (List.all_eq_true.1 h x hx)

/-- What is of one sort is not among those that are not. -/
theorem not_mem_of_all (h : p x = true) (hxs : (xs.all fun y => !p y) = true) : x ∉ xs := by
  intro hx
  have hnot := List.all_eq_true.1 hxs x hx
  rw [h] at hnot
  exact Bool.false_ne_true hnot

theorem span_append (hx : ∀ x ∈ xs, p x = true) (hy : ∀ y ∈ ys.head?, p y = false) :
    (xs ++ ys).span p = (xs, ys) := by
  rw [List.span_eq_takeWhile_dropWhile, List.takeWhile_append_of_pos hx,
    List.dropWhile_append_of_pos hx]
  cases ys with
  | nil => simp
  | cons y ys =>
    have hhead : p y = false := hy y rfl
    simp [hhead]

theorem nodup_eraseDups [BEq α] [LawfulBEq α] (xs : List α) : xs.eraseDups.Nodup :=
  match xs with
  | [] => by simp
  | x :: xs => by
    rw [List.eraseDups_cons, List.nodup_cons, List.mem_eraseDups]
    exact ⟨by simp, nodup_eraseDups _⟩
termination_by xs.length
decreasing_by exact Nat.lt_succ_of_le (List.length_filter_le _ _)

/-- A list is parted in one way at the last occurrence of an item. -/
theorem eq_of_append_cons_eq {a : α} {before after : List α} (hxs : a ∉ xs)
    (hys : a ∉ ys) (h : before ++ a :: xs = after ++ a :: ys) : before = after ∧ xs = ys := by
  rcases List.append_eq_append_iff.1 h with ⟨more, rfl, hmore⟩ | ⟨more, rfl, hmore⟩
  · cases more with
    | nil => exact ⟨(List.append_nil _).symm, (List.cons.inj hmore).2⟩
    | cons b more =>
      obtain ⟨rfl, rfl⟩ := List.cons.inj hmore
      exact absurd (List.mem_append_right more List.mem_cons_self) hxs
  · cases more with
    | nil => exact ⟨List.append_nil _, (List.cons.inj hmore).2.symm⟩
    | cons b more =>
      obtain ⟨rfl, rfl⟩ := List.cons.inj hmore
      exact absurd (List.mem_append_right more List.mem_cons_self) hys

section Intercalate

theorem intercalate_cons_eq_flatMap (separator part : List α) (parts : List (List α)) :
    separator.intercalate (part :: parts) = part ++ parts.flatMap (separator ++ ·) := by
  induction parts generalizing part with
  | nil => simp
  | cons next parts ih =>
    rw [List.intercalate_cons_cons, ih, List.flatMap_cons, List.append_assoc, List.append_assoc]

/-- Of the lines of a text all but the last are ended. -/
theorem intercalate_concat (c : α) (lines : List (List α)) (last : List α) :
    [c].intercalate (lines ++ [last]) = lines.flatMap (· ++ [c]) ++ last := by
  induction lines with
  | nil => simp
  | cons line rest ih =>
    rw [List.cons_append, List.flatMap_cons, List.append_assoc, ← ih]
    cases rest <;> simp [List.intercalate_cons_cons]

end Intercalate

end ModelData
