import Mathlib.Data.List.Forall2
import ModelData.Value.Basic

/-! Steps that may fail, one after another and for each item of a list. -/

namespace ModelData

variable {α β ε : Type} {f : α → Except ε β} {g : α → β}

@[simp] theorem ok_bind (x : α) (k : α → Except ε β) : (Except.ok x >>= k) = k x :=
  rfl

theorem bind_eq_ok {x : Except ε α} {k : α → Except ε β} {b : β} (h : (x >>= k) = .ok b) :
    ∃ a, x = .ok a ∧ k a = .ok b := by
  cases x with
  | error m => cases h
  | ok a => exact ⟨a, rfl, h⟩

theorem bind_eq_error_iff {x : Except ε α} {k : α → Except ε β} {m : ε} :
    (x >>= k) = .error m ↔ x = .error m ∨ ∃ a, x = .ok a ∧ k a = .error m := by
  cases x with
  | error m' => simp [bind, Except.bind]
  | ok a => simp

theorem map_eq_ok_iff {k : α → β} {x : Except ε α} {b : β} :
    x.map k = .ok b ↔ ∃ a, x = .ok a ∧ k a = b := by
  cases x <;> simp [Except.map]

theorem map_eq_error_iff {k : α → β} {x : Except ε α} {m : ε} :
    x.map k = .error m ↔ x = .error m := by
  cases x <;> simp [Except.map]

theorem mapError_eq_ok_iff {ε' : Type} {change : ε → ε'} {x : Except ε α} {a : α} :
    x.mapError change = .ok a ↔ x = .ok a := by
  cases x <;> simp [Except.mapError]

theorem mapError_eq_error_iff {ε' : Type} {change : ε → ε'} {x : Except ε α} {m' : ε'} :
    x.mapError change = .error m' ↔ ∃ m, x = .error m ∧ change m = m' := by
  cases x <;> simp [Except.mapError]

/-- What every step comes to may be changed afterwards. -/
theorem mapM_map_result {γ : Type} {k : β → γ} (xs : List α) :
    xs.mapM (fun x => (f x).map k) = (xs.mapM f).map (List.map k) := by
  induction xs with
  | nil => rfl
  | cons x xs ih =>
    rw [List.mapM_cons, List.mapM_cons, ih]
    cases f x with
    | error m => rfl
    | ok y => cases xs.mapM f <;> rfl

theorem mapM_congr {f' : α → Except ε β} {xs : List α} (h : ∀ x ∈ xs, f x = f' x) :
    xs.mapM f = xs.mapM f' := by
  induction xs with
  | nil => rfl
  | cons x xs ih =>
    rw [List.mapM_cons, List.mapM_cons, h x List.mem_cons_self,
      ih fun y hy => h y (List.mem_cons_of_mem x hy)]

/-- The steps fail as the first step that fails. -/
theorem mapM_eq_error_iff {xs : List α} {m : ε} :
    xs.mapM f = .error m ↔ ∃ before x after, xs = before ++ x :: after ∧
      (∀ y ∈ before, ∃ z, f y = .ok z) ∧ f x = .error m := by
  induction xs with
  | nil => simp [pure, Except.pure]
  | cons x xs ih =>
    rw [List.mapM_cons, bind_eq_error_iff]
    constructor
    · rintro (hx | ⟨z, hz, hrest⟩)
      · exact ⟨[], x, xs, rfl, by simp, hx⟩
      · rcases bind_eq_error_iff.1 hrest with hrest | ⟨_, _, hnone⟩
        · obtain ⟨before, y, after, rfl, hbefore, hy⟩ := ih.1 hrest
          refine ⟨x :: before, y, after, rfl, fun w hw => ?_, hy⟩
          rcases List.mem_cons.1 hw with rfl | hw
          · exact ⟨z, hz⟩
          · exact hbefore w hw
        · cases hnone
    · rintro ⟨before, y, after, hxs, hbefore, hy⟩
      cases before with
      | nil =>
        obtain ⟨rfl, rfl⟩ := List.cons.inj hxs
        exact .inl hy
      | cons w before =>
        obtain ⟨rfl, rfl⟩ := List.cons.inj hxs
        obtain ⟨z, hz⟩ := hbefore x List.mem_cons_self
        have hrest := ih.2 ⟨before, y, after, rfl,
          fun v hv => hbefore v (List.mem_cons_of_mem x hv), hy⟩
        exact .inr ⟨z, hz, bind_eq_error_iff.2 (.inl hrest)⟩

theorem mapM_eq_map {xs : List α} (h : ∀ x ∈ xs, f x = .ok (g x)) :
    xs.mapM f = .ok (xs.map g) := by
  induction xs with
  | nil => rfl
  | cons x xs ih =>
    have hrest := ih fun y hy => h y (List.mem_cons_of_mem x hy)
    rw [List.mapM_cons, h x (by simp), hrest]
    rfl

/-- A step that undoes another gives back every list that the other was taken on. -/
theorem mapM_map_of_inverse {undo : β → Except ε α} (h : ∀ x, undo (g x) = .ok x)
    (xs : List α) : (xs.map g).mapM undo = .ok xs := by
  induction xs with
  | nil => rfl
  | cons x xs ih =>
    rw [List.map_cons, List.mapM_cons, h, ih]
    rfl

/-- If every step comes to something, so does the whole. -/
theorem exists_mapM {R : α → β → Prop} {xs : List α}
    (h : ∀ x ∈ xs, ∃ y, f x = .ok y ∧ R x y) :
    ∃ ys, xs.mapM f = .ok ys ∧ List.Forall₂ R xs ys := by
  induction xs with
  | nil => exact ⟨[], rfl, .nil⟩
  | cons x xs ih =>
    obtain ⟨y, hy, hxy⟩ := h x List.mem_cons_self
    obtain ⟨ys, hys, hrest⟩ := ih fun z hz => h z (List.mem_cons_of_mem x hz)
    refine ⟨y :: ys, ?_, .cons hxy hrest⟩
    rw [List.mapM_cons, hy, hys]
    rfl

/-- If every step comes to something that goes with a third thing, so does the whole. -/
theorem exists_mapM₂ {γ δ : Type} {P : β → γ → Prop} {Q : γ → δ → Prop} {g : α → δ} {xs : List α}
    (h : ∀ x ∈ xs, ∃ y z, f x = .ok y ∧ P y z ∧ Q z (g x)) :
    ∃ ys zs, xs.mapM f = .ok ys ∧ List.Forall₂ P ys zs ∧ List.Forall₂ Q zs (xs.map g) := by
  induction xs with
  | nil => exact ⟨[], [], rfl, .nil, .nil⟩
  | cons x xs ih =>
    obtain ⟨y, z, hy, hyz, hzx⟩ := h x List.mem_cons_self
    obtain ⟨ys, zs, hys, hyzs, hzxs⟩ := ih fun w hw => h w (List.mem_cons_of_mem x hw)
    refine ⟨y :: ys, z :: zs, ?_, .cons hyz hyzs, .cons hzx hzxs⟩
    rw [List.mapM_cons, hy, hys]
    rfl

/-- A result that stands unless there is a fault. -/
def unlessFault (fault : Option ε) (x : α) : Except ε α :=
  fault.elim (.ok x) .error

theorem unlessFault_map {γ : Type} (fault : Option ε) (x : α) (k : α → γ) :
    (unlessFault fault x >>= fun a => .ok (k a)) = unlessFault fault (k x) := by
  cases fault <;> rfl

/-- Steps that each have their fault or a result have the first fault or all results. -/
theorem mapM_unlessFault {k : α → Option ε} {xs : List α}
    (h : ∀ x ∈ xs, f x = unlessFault (k x) (g x)) :
    xs.mapM f = unlessFault (xs.findSome? k) (xs.map g) := by
  induction xs with
  | nil => rfl
  | cons x xs ih =>
    rw [List.mapM_cons, h x List.mem_cons_self, ih fun y hy => h y (List.mem_cons_of_mem x hy),
      List.findSome?_cons]
    cases k x with
    | some m => rfl
    | none => cases xs.findSome? k <;> rfl

theorem findSome?_congr {k k' : α → Option β} {xs : List α} (h : ∀ x ∈ xs, k x = k' x) :
    xs.findSome? k = xs.findSome? k' := by
  induction xs with
  | nil => rfl
  | cons x xs ih =>
    rw [List.findSome?_cons, List.findSome?_cons, h x List.mem_cons_self,
      ih fun y hy => h y (List.mem_cons_of_mem x hy)]

theorem exists_of_forall₂ {R : α → β → Prop} {xs : List α} {ys : List β}
    (h : List.Forall₂ R xs ys) {x : α} (hx : x ∈ xs) : ∃ y ∈ ys, R x y := by
  induction h with
  | nil => simp at hx
  | @cons _ y _ ys hxy _ ih =>
    rcases List.mem_cons.1 hx with rfl | hx
    · exact ⟨y, List.mem_cons_self, hxy⟩
    · obtain ⟨z, hz, hxz⟩ := ih hx
      exact ⟨z, List.mem_cons_of_mem y hz, hxz⟩

theorem forall₂_iff_map_eq {xs ys : List α} :
    List.Forall₂ (fun x y => g x = g y) xs ys ↔ xs.map g = ys.map g := by
  rw [← List.forall₂_eq_eq_eq, List.forall₂_map_left_iff, List.forall₂_map_right_iff]

theorem map_eq_of_map_eq {α β γ : Type} {f : α → β} {g : α → γ} {xs ys : List α}
    (h : xs.map g = ys.map g) (hstep : ∀ x ∈ xs, ∀ y ∈ ys, g x = g y → f x = f y) :
    xs.map f = ys.map f := by
  induction xs generalizing ys with
  | nil =>
    obtain rfl := List.map_eq_nil_iff.1 h.symm
    rfl
  | cons x xs ih =>
    obtain ⟨y, ys, rfl, hy, hys⟩ := List.map_eq_cons_iff.1 h.symm
    rw [List.map_cons, List.map_cons, hstep x List.mem_cons_self y List.mem_cons_self hy.symm,
      ih hys.symm fun z hz w hw => hstep z (List.mem_cons_of_mem x hz) w (List.mem_cons_of_mem y hw)]

theorem forall₂_mem {R S : α → β → Prop} {xs : List α} {ys : List β}
    (h : List.Forall₂ R xs ys) (hstep : ∀ x ∈ xs, ∀ y, R x y → S x y) : List.Forall₂ S xs ys := by
  induction h with
  | nil => exact .nil
  | @cons x y xs ys hxy _ ih =>
    apply List.Forall₂.cons
    · exact hstep x List.mem_cons_self y hxy
    · exact ih fun z hz => hstep z (List.mem_cons_of_mem x hz)

theorem findSome?_eq_of_forall₂ {k : α → Option β} {xs ys : List α}
    (h : List.Forall₂ (fun x y => k x = k y) xs ys) : xs.findSome? k = ys.findSome? k := by
  have hmap := congrArg (List.findSome? id) (forall₂_iff_map_eq.1 h)
  rwa [List.findSome?_map, List.findSome?_map] at hmap

theorem eq_map_of_mapM {xs : List α} {ys : List β} (h : xs.mapM f = .ok ys)
    (hstep : ∀ x ∈ xs, ∀ y, f x = .ok y → y = g x) : ys = xs.map g := by
  induction xs generalizing ys with
  | nil =>
    cases h
    rfl
  | cons x xs ih =>
    rw [List.mapM_cons] at h
    cases hx : f x with
    | error m =>
      rw [hx] at h
      cases h
    | ok y =>
      cases hxs : xs.mapM f with
      | error m =>
        rw [hx, hxs] at h
        cases h
      | ok rest =>
        rw [hx, hxs] at h
        cases h
        rw [List.map_cons, ← hstep x (by simp) y hx,
          ← ih hxs fun z hz => hstep z (List.mem_cons_of_mem x hz)]

/-- What the steps come to are things that single steps come to. -/
theorem exists_of_mapM {xs : List α} {ys : List β} (h : xs.mapM f = .ok ys) {y : β}
    (hy : y ∈ ys) : ∃ x ∈ xs, f x = .ok y := by
  induction xs generalizing ys with
  | nil =>
    cases h
    simp at hy
  | cons x xs ih =>
    rw [List.mapM_cons] at h
    obtain ⟨z, hz, h⟩ := bind_eq_ok h
    obtain ⟨rest, hrest, h⟩ := bind_eq_ok h
    cases h
    rcases List.mem_cons.1 hy with rfl | hy
    · exact ⟨x, List.mem_cons_self, hz⟩
    · obtain ⟨w, hw, hwy⟩ := ih hrest hy
      exact ⟨w, List.mem_cons_of_mem x hw, hwy⟩

/-- Steps and what they come to go in pairs. -/
theorem forall₂_of_mapM {xs : List α} {ys : List β} (h : xs.mapM f = .ok ys) :
    List.Forall₂ (fun x y => f x = .ok y) xs ys := by
  induction xs generalizing ys with
  | nil =>
    cases h
    exact .nil
  | cons x xs ih =>
    rw [List.mapM_cons] at h
    obtain ⟨y, hy, h⟩ := bind_eq_ok h
    obtain ⟨rest, hrest, h⟩ := bind_eq_ok h
    cases h
    exact .cons hy (ih hrest)

/-- What every step comes to tells what it was taken on. -/
theorem map_eq_of_mapM {h : β → α} {xs : List α} {ys : List β} (hxs : xs.mapM f = .ok ys)
    (hstep : ∀ x ∈ xs, ∀ y, f x = .ok y → h y = x) : ys.map h = xs := by
  induction xs generalizing ys with
  | nil =>
    cases hxs
    rfl
  | cons x xs ih =>
    rw [List.mapM_cons] at hxs
    obtain ⟨y, hy, hxs⟩ := bind_eq_ok hxs
    obtain ⟨rest, hrest, hxs⟩ := bind_eq_ok hxs
    cases hxs
    rw [List.map_cons, hstep x List.mem_cons_self y hy,
      ih hrest fun z hz => hstep z (List.mem_cons_of_mem x hz)]

end ModelData
