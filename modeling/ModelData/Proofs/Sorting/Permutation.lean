import Mathlib.Data.List.InsertIdx
import ModelData.Proofs.Value.Traverse
import ModelData.Value.Sort

/-!
Sorting loses nothing. Whatever the comparisons answer, each step of a sort moves items and
neither drops nor doubles one, so a sort that comes to an end gives back the items it was given.
-/

namespace ModelData

namespace Sorting

variable {ε α : Type} {before : α → α → Except ε Bool} {xs ys : List α}

section Runs

theorem runAfter_eq {falls : Bool} {last : α} {run left : List α}
    (h : runAfter before falls last xs = .ok (run, left)) : xs = run ++ left := by
  induction xs generalizing last run with
  | nil =>
    cases h
    rfl
  | cons x rest ih =>
    obtain ⟨b, hb, h⟩ := bind_eq_ok h
    split at h
    · obtain ⟨⟨later, left'⟩, hlater, h⟩ := bind_eq_ok h
      cases h
      rw [ih hlater, List.cons_append]
    · cases h
      rfl

theorem firstRun_perm {run left : List α} (h : firstRun before xs = .ok (run, left)) :
    (run ++ left).Perm xs := by
  rcases xs with _ | ⟨first, _ | ⟨second, rest⟩⟩
  · cases h
    exact .refl _
  · cases h
    exact .refl _
  · obtain ⟨falls, hfalls, h⟩ := bind_eq_ok h
    obtain ⟨⟨run', left'⟩, hrun, h⟩ := bind_eq_ok h
    cases h
    rw [runAfter_eq hrun]
    split
    · exact (List.reverse_perm _).append_right left
    · exact .refl _

theorem firstRun_ne_nil {run left : List α} (h : firstRun before xs = .ok (run, left))
    (hxs : xs ≠ []) : run ≠ [] := by
  rcases xs with _ | ⟨first, _ | ⟨second, rest⟩⟩
  · exact absurd rfl hxs
  · cases h
    simp
  · obtain ⟨falls, hfalls, h⟩ := bind_eq_ok h
    obtain ⟨⟨run', left'⟩, hrun, h⟩ := bind_eq_ok h
    cases h
    split <;> simp

theorem placeFor_le {x : α} {low high place : Nat} (h : low ≤ high)
    (hplace : placeFor before x xs low high = .ok place) : place ≤ high := by
  fun_induction placeFor before x xs low high with
  | case1 low high hlt hnone =>
    cases hplace
    exact h
  | case2 low high hlt y hy ih1 ih2 =>
    obtain ⟨b, hb, hplace⟩ := bind_eq_ok hplace
    split at hplace
    · have hle := ih1 (by omega) hplace
      omega
    · exact ih2 (by omega) hplace
  | case3 low high hlt =>
    cases hplace
    exact h

theorem insertAll_perm {rest : List α} (h : insertAll before xs rest = .ok ys) :
    ys.Perm (xs ++ rest) := by
  induction rest generalizing xs with
  | nil =>
    cases h
    simp
  | cons x rest ih =>
    obtain ⟨place, hplace, h⟩ := bind_eq_ok h
    have hle := placeFor_le (Nat.zero_le _) hplace
    exact (ih h).trans (((List.perm_insertIdx x xs hle).append_right rest).trans
      List.perm_middle.symm)

theorem nextRun_perm {least : Nat} {run left : List α}
    (h : nextRun before least xs = .ok (run, left)) : (run ++ left).Perm xs := by
  obtain ⟨⟨run', left'⟩, hfirst, h⟩ := bind_eq_ok h
  obtain ⟨filled, hfilled, h⟩ := bind_eq_ok h
  cases h
  refine .trans ((insertAll_perm hfilled).append_right _) ?_
  rw [List.append_assoc, List.take_append_drop]
  exact firstRun_perm hfirst

/-- There is always a next run. -/
theorem length_left_lt {least : Nat} {run left : List α}
    (h : nextRun before least xs = .ok (run, left)) (hxs : xs ≠ []) :
    left.length < xs.length := by
  have hlength := (nextRun_perm h).length_eq
  obtain ⟨⟨run', left'⟩, hfirst, h⟩ := bind_eq_ok h
  obtain ⟨filled, hfilled, h⟩ := bind_eq_ok h
  cases h
  have hfilled := (insertAll_perm hfilled).length_eq
  have hrun := List.length_pos_iff.2 (firstRun_ne_nil hfirst hxs)
  simp only [List.length_append] at hlength hfilled
  omega

end Runs

section Merging

variable {m : Merging ε α} {patience patience' : Nat}

theorem settled?_perm {fromEnd : Bool} {rest : List α} (h : settled? fromEnd xs ys = some rest) :
    rest.Perm (xs ++ ys) := by
  have hlast {first second rest : List α}
      (h : settled?.lastOfSecond first second = some rest) : rest.Perm (first ++ second) := by
    unfold settled?.lastOfSecond at h
    split at h <;> cases h
    exact .refl _
  unfold settled? at h
  split at h
  · cases h
    simp
  · cases h
    exact .refl _
  · split at h
    · exact hlast h
    · cases h
      exact List.perm_append_comm
  · split at h
    · exact hlast h
    · cases h

theorem take_second_perm (n : Nat) : (ys.take n ++ (xs ++ ys.drop n)).Perm (xs ++ ys) := by
  refine .trans (List.perm_append_comm_assoc _ _ _) ?_
  rw [List.take_append_drop]

/-- The items that a step gives out are those that it takes away. -/
theorem step_perm {s next : Standing α} {items : List α} (h : m.step s = .ok (items, next)) :
    (items ++ (next.first ++ next.second)).Perm (s.first ++ s.second) := by
  unfold Merging.step at h
  split at h
  · next x xs y ys _ hfirst hsecond =>
    obtain ⟨goes, hgoes, h⟩ := bind_eq_ok h
    rw [hfirst, hsecond] at h ⊢
    split at h <;> cases h
    · change (y :: (x :: xs ++ ys)).Perm _
      exact List.perm_middle.symm
    · exact .refl _
  · obtain ⟨n, hn, h⟩ := bind_eq_ok h
    cases h
    rw [← List.append_assoc, List.take_append_drop]
  · next y ys _ hsecond =>
    rw [hsecond]
    cases h
    change (y :: (s.first ++ ys)).Perm _
    exact List.perm_middle.symm
  · obtain ⟨n, hn, h⟩ := bind_eq_ok h
    cases h
    exact take_second_perm n
  · next hfirst =>
    rw [hfirst]
    cases h
    exact .refl _
  · cases h
    exact .refl _
  · cases h
    exact .refl _

theorem finish_perm {steps : Nat} {s : Standing α}
    (h : m.finish steps s = .ok (ys, patience)) : ys.Perm (s.first ++ s.second) := by
  induction steps generalizing s ys patience with
  | zero =>
    cases h
    exact .refl _
  | succ steps ih =>
    rw [Merging.finish] at h
    split at h
    · next hsettled =>
      cases h
      exact settled?_perm hsettled
    · obtain ⟨⟨items, next⟩, hstep, h⟩ := bind_eq_ok h
      obtain ⟨⟨rest, patience'⟩, hrest, h⟩ := bind_eq_ok h
      cases h
      exact ((ih hrest).append_left items).trans (step_perm hstep)

theorem mergeOverlap_perm {first second : List α}
    (h : mergeOverlap before patience first second = .ok (ys, patience')) :
    ys.Perm (first ++ second) := by
  unfold mergeOverlap at h
  split at h
  · cases second with
    | nil =>
      cases h
      simp
    | cons y second =>
      obtain ⟨⟨rest, patience⟩, hrest, h⟩ := bind_eq_ok h
      cases h
      exact ((finish_perm hrest).cons y).trans List.perm_middle.symm
  · split at h
    · next hfirst =>
      cases h
      rw [List.reverse_eq_nil_iff.1 hfirst]
      exact .refl _
    · next x xs hfirst =>
      obtain ⟨⟨rest, patience⟩, hrest, h⟩ := bind_eq_ok h
      cases h
      have hreversed : first.reverse.Perm first := List.reverse_perm first
      rw [hfirst] at hreversed
      refine (List.reverse_perm _).trans (((finish_perm hrest).cons x).trans ?_)
      exact hreversed.append (List.reverse_perm second)

/-- What stays in front and what stays behind are not merged. -/
theorem merge_perm {first second : List α}
    (h : merge before patience first second = .ok (ys, patience')) :
    ys.Perm (first ++ second) := by
  unfold merge at h
  split at h
  · cases h
    simp
  · next y rest =>
    obtain ⟨n, hn, h⟩ := bind_eq_ok h
    split at h
    · cases h
      exact .refl _
    · obtain ⟨kept, hkept, h⟩ := bind_eq_ok h
      dsimp only at h
      split at h
      · cases h
        exact .refl _
      · obtain ⟨⟨merged, patience⟩, hmerged, h⟩ := bind_eq_ok h
        cases h
        have hinner := ((mergeOverlap_perm hmerged).append_left (first.take n)).append_right
          ((y :: rest).drop ((y :: rest).length - kept))
        rwa [← List.append_assoc, List.take_append_drop, List.append_assoc first,
          List.take_append_drop] at hinner

end Merging

section Waiting

variable {patience patience' : Nat} {last : Waiting α} {waiting waiting' : List (Waiting α)}

/-- The items of the runs that wait, those of the last run first. -/
def held (waiting : List (Waiting α)) : List α :=
  waiting.flatMap Waiting.items

@[simp] theorem held_nil : held ([] : List (Waiting α)) = [] :=
  rfl

@[simp] theorem held_cons (run : Waiting α) (waiting : List (Waiting α)) :
    held (run :: waiting) = run.items ++ held waiting :=
  rfl

theorem collapse_perm {level : Nat}
    (h : collapse before level last patience waiting = .ok (waiting', patience')) :
    (held waiting').Perm (last.items ++ held waiting) := by
  induction waiting generalizing last patience with
  | nil =>
    cases h
    exact .refl _
  | cons run rest ih =>
    rw [collapse] at h
    split at h
    · obtain ⟨⟨items, patience⟩, hmerged, h⟩ := bind_eq_ok h
      refine (ih h).trans ?_
      rw [held_cons, ← List.append_assoc]
      exact ((merge_perm hmerged).trans List.perm_append_comm).append_right _
    · cases h
      exact .refl _

theorem mergeAll_perm (h : mergeAll before patience waiting = .ok ys) :
    ys.Perm (held waiting) := by
  fun_induction mergeAll before patience waiting with
  | case1 =>
    cases h
    exact .refl _
  | case2 run =>
    cases h
    simp
  | case3 patience last run =>
    obtain ⟨⟨items, patience⟩, hmerged, h⟩ := bind_eq_ok h
    cases h
    simpa using (merge_perm hmerged).trans List.perm_append_comm
  | case4 patience last run third rest hshort ih =>
    obtain ⟨⟨items, patience⟩, hmerged, h⟩ := bind_eq_ok h
    refine (ih _ _ h).trans ?_
    have hpair := (merge_perm hmerged).trans List.perm_append_comm
    simpa using (hpair.append_right (held rest)).append_left last.items
  | case5 patience last run third rest hlong ih =>
    obtain ⟨⟨items, patience⟩, hmerged, h⟩ := bind_eq_ok h
    refine (ih _ _ h).trans ?_
    have hpair := (merge_perm hmerged).trans List.perm_append_comm
    simpa using hpair.append_right (third.items ++ held rest)

/-- Every run takes an item away, so the steps suffice for all runs. -/
theorem sortFrom_perm {total steps : Nat} (hsteps : xs.length ≤ steps)
    (h : sortFrom before total steps patience waiting xs = .ok ys) :
    ys.Perm (held waiting ++ xs) := by
  induction steps generalizing patience waiting xs with
  | zero =>
    obtain rfl := List.length_eq_zero_iff.1 (Nat.le_zero.1 hsteps)
    rw [List.append_nil]
    exact mergeAll_perm h
  | succ steps ih =>
    cases xs with
    | nil =>
      rw [List.append_nil]
      exact mergeAll_perm h
    | cons x xs =>
      obtain ⟨⟨items, left⟩, hrun, h⟩ := bind_eq_ok h
      have hleft : left.length ≤ steps := by
        have hlt := length_left_lt hrun (List.cons_ne_nil x xs)
        omega
      have hperm := nextRun_perm hrun
      cases waiting with
      | nil => simpa using (ih hleft h).trans (by simpa using hperm)
      | cons last rest =>
        obtain ⟨⟨waiting, patience⟩, hcollapsed, h⟩ := bind_eq_ok h
        have hheld := (collapse_perm hcollapsed).append hperm
        refine (ih hleft h).trans (.trans ?_ hheld)
        rw [held_cons, ← List.append_assoc]
        exact List.perm_append_comm.append_right left

end Waiting

/-- A sort that comes to an end gives back the items it was given. -/
theorem sort_perm (h : sort before xs = .ok ys) : ys.Perm xs :=
  sortFrom_perm (Nat.le_refl _) h

end Sorting

theorem sortBy_perm {α : Type} {key : α → Value} {xs ys : List α} (h : sortBy key xs = .ok ys) :
    ys.Perm xs := by
  unfold sortBy at h
  split at h
  · cases h
    exact List.mergeSort_perm _ _
  · exact Sorting.sort_perm h

end ModelData
