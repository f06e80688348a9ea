import Mathlib.Data.List.Nodup
import ModelData.Proofs.Element.Tree
import ModelData.Proofs.Number.Rounding
import ModelData.Proofs.Value.Traverse
import ModelData.Value.Form

/-!
What equal forms say. The forms of the parts of a value are the forms of each of them in turn, so
two elements with the same form hold equal parts in the same places. Numbers with the same form
have the same value: floats differ in the sign of zero at most.
-/

namespace ModelData

theorem Value.forms_eq_map (values : List Value) : Value.forms values = values.map Value.form := by
  induction values with
  | nil => rfl
  | cons v rest ih => rw [Value.forms, ih, List.map_cons]

theorem Element.forms_eq_map (elements : List Element) :
    Element.forms elements = elements.map Element.form := by
  induction elements with
  | nil => rfl
  | cons e rest ih => rw [Element.forms, ih, List.map_cons]

theorem Member.forms_eq_map (members : List Member) :
    Member.forms members = members.map Member.form := by
  induction members with
  | nil => rfl
  | cons m rest ih => rw [Member.forms, ih, List.map_cons]

theorem Binding.forms_eq_map (entries : List Named) :
    Binding.forms entries = entries.map Binding.form := by
  induction entries with
  | nil => rfl
  | cons n rest ih => rw [Binding.forms, ih, List.map_cons]

/-- A value that equals a text is that text. -/
theorem Value.eq_text_of_form {v : Value} {s : String} (h : v.form = (Value.text s).form) :
    v = .text s := by
  cases v with
  | text t =>
    cases h
    rfl
  | float x =>
    rw [Value.form, Binary64.form.eq_def] at h
    cases x with
    | finite x =>
      dsimp only at h
      split at h <;> cases h
    | infinite | nan => cases h
  | element e => cases e <;> simp [Value.form, Element.form] at h
  | named n =>
    obtain ⟨name, e⟩ := n
    simp [Value.form, Binding.form] at h
  | _ => simp [Value.form, flagForm, Form.table] at h

/-- Texts are equal only if they are the same. -/
theorem Value.nodup_forms_iff {values : List Value} (h : ∀ v ∈ values, ∃ s, v = .text s) :
    (Value.forms values).Nodup ↔ values.Nodup := by
  rw [Value.forms_eq_map]
  refine ⟨List.Nodup.of_map Value.form, List.Nodup.map_on fun v hv w hw heq => ?_⟩
  obtain ⟨s, rfl⟩ := h v hv
  obtain ⟨t, rfl⟩ := h w hw
  cases heq
  rfl

section Floats

namespace Binary64.Finite

/-- The number without the sign of zero. -/
def unsigned (x : Finite) : Finite :=
  if x.rank = 0 then zero else x

theorem signedUnits_of_toInt? {x : Finite} {i : Int} (h : x.toInt? = some i) :
    x.signedUnits = i * one := by
  unfold toInt? at h
  split at h
  · next hwhole =>
    have hunits : (x.magnitude : Int) = (x.magnitude / one : Nat) * one := by
      exact_mod_cast (Nat.div_mul_cancel (Nat.dvd_of_mod_eq_zero hwhole)).symm
    cases h
    unfold signedUnits
    split
    · rw [neg_mul, ← hunits]
    · exact hunits
  · cases h

theorem natAbs_signedUnits (x : Finite) : x.signedUnits.natAbs = x.magnitude := by
  unfold signedUnits
  split <;> simp

theorem unsigned_eq_of_signedUnits {x y : Finite} (h : x.signedUnits = y.signedUnits) :
    x.unsigned = y.unsigned := by
  have hmagnitude : x.magnitude = y.magnitude := by
    rw [← natAbs_signedUnits, h, natAbs_signedUnits]
  have hrank : x.rank = y.rank := units_strictMono.injective hmagnitude
  unfold unsigned
  by_cases hzero : x.rank = 0
  · rw [if_pos hzero, if_pos (hrank ▸ hzero)]
  · rw [if_neg hzero, if_neg (hrank ▸ hzero)]
    have hpos : x.magnitude ≠ 0 := fun hnone =>
      hzero (units_strictMono.injective (hnone.trans units_zero.symm))
    have hsign : x.negative = y.negative := by
      unfold signedUnits at h
      rw [← hmagnitude] at h
      cases hx : x.negative <;> cases hy : y.negative <;> simp [hx, hy] at h ⊢ <;> omega
    obtain ⟨negative, rank, hlt⟩ := x
    obtain ⟨negative', rank', hlt'⟩ := y
    cases hsign
    cases hrank
    rfl

end Binary64.Finite

/-- Floats with the same form differ in the sign of zero at most. -/
theorem unsigned_eq_of_form {x y : Binary64.Finite}
    (h : (Binary64.finite x).form = (Binary64.finite y).form) : x.unsigned = y.unsigned := by
  unfold Binary64.form at h
  cases hx : x.toInt? with
  | none =>
    cases hy : y.toInt? with
    | none =>
      simp only [hx, hy] at h
      cases h
      rfl
    | some j => simp [hx, hy] at h
  | some i =>
    cases hy : y.toInt? with
    | none => simp [hx, hy] at h
    | some j =>
      simp only [hx, hy] at h
      cases h
      apply Binary64.Finite.unsigned_eq_of_signedUnits
      rw [Binary64.Finite.signedUnits_of_toInt? hx, Binary64.Finite.signedUnits_of_toInt? hy]

end Floats

section Elements

/-- Two elements of one kind whose parts have equal forms, each with the part in its place. -/
inductive Element.Alike : Element → Element → Prop where
  | scalar {a b : Scalar} (h : a.form = b.form) : Alike (.scalar a) (.scalar b)
  | float {x y : Binary64.Finite} (h : (Binary64.finite x).form = (Binary64.finite y).form) :
      Alike (.float x) (.float y)
  | set {members members' : List Member}
      (h : List.Forall₂ (fun m n => m.form = n.form) members members') :
      Alike (.set members) (.set members')
  | tuple {items items' : List Element}
      (h : List.Forall₂ (fun e d => e.form = d.form) items items') :
      Alike (.tuple items) (.tuple items')
  | array {entries entries' : List Named}
      (h : List.Forall₂ (fun m n => m.form = n.form) entries entries') :
      Alike (.array entries) (.array entries')

theorem Element.alike_of_form {e d : Element} (h : e.form = d.form)
    (hknown : e.isForeign = false) : e.Alike d := by
  cases e with
  | custom => cases hknown
  | scalar a =>
    cases d <;> simp [Element.form] at h
    exact .scalar h
  | float x =>
    cases d <;> simp [Element.form] at h
    exact .float h
  | set members =>
    cases d <;> simp [Element.form, Member.forms_eq_map] at h
    exact .set (forall₂_iff_map_eq.2 h)
  | tuple items =>
    cases d <;> simp [Element.form, Element.forms_eq_map] at h
    exact .tuple (forall₂_iff_map_eq.2 h)
  | array entries =>
    cases d <;> simp [Element.form, Binding.forms_eq_map] at h
    exact .array (forall₂_iff_map_eq.2 h)

/-- No element equals a bare literal. -/
theorem Element.form_ne_literal (e : Element) {m : Member} (h : m.element? = none) :
    e.form ≠ m.form := by
  cases m with
  | element => cases h
  | scalar s => cases e <;> cases s <;> simp [Element.form, Member.form, Scalar.form, flagForm]
  | float x =>
    rw [Member.form, Binary64.form]
    cases e <;> split <;> simp [Element.form]

theorem forall₂_elements {members members' : List Member}
    (h : List.Forall₂ (fun m n => m.form = n.form) members members') :
    List.Forall₂ (fun e d => e.form = d.form) (members.filterMap Member.element?)
      (members'.filterMap Member.element?) := by
  induction h with
  | nil => exact .nil
  | @cons m n _ _ hmn _ ih =>
    cases m with
    | element e =>
      cases n with
      | element d => exact .cons hmn ih
      | scalar | float => exact absurd hmn (e.form_ne_literal rfl)
    | scalar | float =>
      cases n with
      | element d => exact absurd hmn.symm (d.form_ne_literal rfl)
      | scalar | float => exact ih

namespace Element.Alike

variable {e d : Element}

theorem known (h : e.Alike d) : d.isForeign = false := by
  cases h <;> rfl

theorem children (h : e.Alike d) :
    List.Forall₂ (fun c c' => c.form = c'.form) e.children d.children := by
  cases h with
  | scalar | float => exact .nil
  | set hmembers => exact forall₂_elements hmembers
  | tuple hitems => exact hitems
  | array hentries =>
    rw [Element.children, Element.children, List.forall₂_map_left_iff, List.forall₂_map_right_iff]
    refine hentries.imp fun m n hmn => ?_
    obtain ⟨name, element⟩ := m
    obtain ⟨name', element'⟩ := n
    simp only [Binding.form, Form.node.injEq, List.cons.injEq, and_true, true_and] at hmn
    exact hmn.2

theorem isFilled (h : e.Alike d) : e.isFilled = d.isFilled := by
  cases h with
  | scalar | float => rfl
  | set h | tuple h | array h => simp only [Element.isFilled, Element.count?, h.length_eq]

end Element.Alike

end Elements

end ModelData
