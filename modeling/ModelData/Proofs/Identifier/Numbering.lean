import ModelData.Identifier.Assignment
import ModelData.Proofs.Value.Distinct

/-!
What an assignment of identifiers leaves. Equal objects share one entry: it stands where the first
of them stood, with the first of them as its key, and holds what was assigned to the last of them.
-/

namespace ModelData

section Keys

variable {α β : Type} {form : α → Form}

/-- One more item is kept only if none before it is equal. -/
theorem distinctFrom_concat (seen : List Form) (xs : List α) (x : α) :
    distinctFrom form seen (xs ++ [x]) =
      distinctFrom form seen xs ++ if form x ∈ seen ++ xs.map form then [] else [x] := by
  induction xs generalizing seen with
  | nil => by_cases h : form x ∈ seen <;> simp [distinctFrom_cons, distinctFrom_nil, h]
  | cons y xs ih =>
    rw [List.cons_append, distinctFrom_cons, distinctFrom_cons]
    by_cases hy : form y ∈ seen
    · -- an item that was seen before adds nothing to what is seen
      have hseen : (form x ∈ seen ++ (y :: xs).map form) ↔ form x ∈ seen ++ xs.map form := by
        simp only [List.map_cons, List.mem_append, List.mem_cons]
        constructor
        · rintro (hmem | heq | hmem)
          · exact .inl hmem
          · exact .inl (heq ▸ hy)
          · exact .inr hmem
        · exact Or.imp_right .inr
      rw [if_pos hy, if_pos hy, ih]
      simp only [hseen]
    · have hseen : (form x ∈ seen ++ (y :: xs).map form) ↔
          form x ∈ (form y :: seen) ++ xs.map form := by
        simp only [List.map_cons, List.mem_append, List.mem_cons]
        exact or_left_comm.trans or_assoc.symm
      rw [if_neg hy, if_neg hy, ih]
      simp only [hseen, List.cons_append]

theorem distinct_concat (xs : List α) (x : α) :
    distinct form (xs ++ [x]) =
      distinct form xs ++ if form x ∈ xs.map form then [] else [x] :=
  distinctFrom_concat [] xs x

/-- Only items that occur are kept, and one for each of their forms. -/
theorem mem_map_distinct {xs : List α} {f : Form} :
    f ∈ (distinct form xs).map form ↔ f ∈ xs.map form := by
  simp only [List.mem_map]
  constructor
  · rintro ⟨x, hx, hform⟩
    exact ⟨x, mem_of_mem_distinct hx, hform⟩
  · rintro ⟨x, hx, hform⟩
    obtain ⟨y, hy, hyx⟩ := exists_mem_distinct hx
    exact ⟨y, hy, hyx.trans hform⟩

namespace Table

variable {key : Value} {x : β} {t : List (Value × β)}

/-- Writing to a table keeps its keys and adds one that is new at the end. -/
theorem keys_put : (put key x t).map (·.1) =
    t.map (·.1) ++ if key.form ∈ (t.map (·.1)).map Value.form then [] else [key] := by
  induction t with
  | nil => simp [put]
  | cons e rest ih =>
    obtain ⟨k, y⟩ := e
    rw [put]
    by_cases hk : k.form = key.form
    · simp [hk]
    · simp only [if_neg hk, List.map_cons, List.mem_cons, ih, Ne.symm hk, false_or,
        List.cons_append]

/-- In a table without equal keys what is not the entry that was written stands as before. -/
theorem of_mem_put (hnodup : ((t.map (·.1)).map Value.form).Nodup) {e : Value × β}
    (h : e ∈ put key x t) :
    (e.1.form = key.form ∧ e.2 = x) ∨ (e.1.form ≠ key.form ∧ e ∈ t) := by
  induction t with
  | nil =>
    obtain rfl := List.mem_singleton.1 h
    exact .inl ⟨rfl, rfl⟩
  | cons d rest ih =>
    obtain ⟨k, y⟩ := d
    rw [List.map_cons, List.map_cons, List.nodup_cons] at hnodup
    rw [put] at h
    split at h
    · next hk =>
      rcases List.mem_cons.1 h with rfl | hrest
      · exact .inl ⟨hk, rfl⟩
      · refine .inr ⟨fun heq => hnodup.1 ?_, List.mem_cons_of_mem _ hrest⟩
        rw [hk, ← heq]
        exact List.mem_map_of_mem (List.mem_map_of_mem hrest)
    · next hk =>
      rcases List.mem_cons.1 h with rfl | hrest
      · exact .inr ⟨hk, List.mem_cons_self⟩
      · rcases ih hnodup.2 hrest with hwritten | ⟨hne, hmem⟩
        · exact .inl hwritten
        · exact .inr ⟨hne, List.mem_cons_of_mem _ hmem⟩

end Table

end Keys

namespace Identifier

variable {objects : List Value} {ids : List (Value × Value)} {write : Value → Nat → Value}

/-- The last object that equals a value stands at an index. -/
structure LastOf (objects : List Value) (v : Value) (index : Nat) (o : Value) : Prop where
  here : objects[index]? = some o
  equal : o.form = v.form
  latest : ∀ later o', objects[later]? = some o' → o'.form = v.form → later ≤ index

/-- A last index belongs to the values that equal the object there. -/
theorem LastOf.form_eq {v w o o' : Value} {index : Nat} (hv : LastOf objects v index o)
    (hw : LastOf objects w index o') : v.form = w.form := by
  have hsame : o = o' := Option.some.inj (hv.here.symm.trans hw.here)
  rw [← hv.equal, hsame, hw.equal]

theorem lastOf_concat_self {v o : Value} (h : v.form = o.form) :
    LastOf (objects ++ [o]) v objects.length o where
  here := by simp
  equal := h.symm
  latest later o' hlater _ := by
    have hlt := (List.getElem?_eq_some_iff.1 hlater).1
    rw [List.length_append, List.length_singleton] at hlt
    omega

theorem LastOf.concat {v last o : Value} {index : Nat} (h : LastOf objects v index last)
    (hne : v.form ≠ o.form) : LastOf (objects ++ [o]) v index last where
  here := by
    have hlt := (List.getElem?_eq_some_iff.1 h.here).1
    rw [List.getElem?_append_left hlt, h.here]
  equal := h.equal
  latest later o' hlater heq := by
    rcases Nat.lt_or_ge later objects.length with hlt | hge
    · rw [List.getElem?_append_left hlt] at hlater
      exact h.latest later o' hlater heq
    · -- only the new object stands there, and it is another one
      have hnew := List.mem_of_getElem? (List.getElem?_append_right hge ▸ hlater)
      obtain rfl := List.mem_singleton.1 hnew
      exact absurd heq.symm hne

/-- A table with one entry for each distinct object, written for the last object equal to it. -/
structure Collapsed (write : Value → Nat → Value) (objects : List Value)
    (ids : List (Value × Value)) : Prop where
  keys : ids.map (·.1) = distinct Value.form objects
  written : ∀ e ∈ ids, ∃ index last, LastOf objects e.1 index last ∧ e.2 = write last index

theorem collapsed_nil : Collapsed write [] [] :=
  ⟨rfl, by simp⟩

/-- One more object is numbered. -/
theorem Collapsed.put (h : Collapsed write objects ids) (o : Value) :
    Collapsed write (objects ++ [o]) (Table.put o (write o objects.length) ids) where
  keys := by
    rw [Table.keys_put, distinct_concat, h.keys]
    simp only [mem_map_distinct]
  written e he := by
    have hnodup : ((ids.map (·.1)).map Value.form).Nodup := by
      rw [h.keys]
      exact nodup_distinctFrom [] objects
    rcases Table.of_mem_put hnodup he with ⟨hform, hvalue⟩ | ⟨hne, hmem⟩
    · exact ⟨objects.length, o, lastOf_concat_self hform, hvalue⟩
    · obtain ⟨index, last, hlast, hvalue⟩ := h.written e hmem
      exact ⟨index, last, hlast.concat hne, hvalue⟩

/-- An assignment before which other calls were made. -/
def Assignment.behind (calls : List (Value × Nat)) (later : Assignment) : Assignment :=
  ⟨calls ++ later.calls, later.result⟩

/-- Objects that are given identifiers and can be keys are numbered in turn, each occurrence once
and before all that stands behind them, and the table goes on collapsing. -/
theorem exists_assignFrom_append {generator : Value → Nat → Except Misfit Value}
    {before : List Value} (h : Collapsed write objects ids)
    (hbefore : ∀ k o, before[k]? = some o →
      generator o (objects.length + k) = .ok (write o (objects.length + k)) ∧
        o.unhashable? = none) :
    ∃ between, Collapsed write (objects ++ before) between ∧
      ∀ after, assignFrom generator objects.length ids (before ++ after) =
        (assignFrom generator (objects ++ before).length between after).behind
          (before.zipIdx objects.length) := by
  induction before generalizing objects ids with
  | nil => exact ⟨ids, by rwa [List.append_nil], fun after => by rw [List.append_nil]; rfl⟩
  | cons o before ih =>
    obtain ⟨hgenerator, hashable⟩ := hbefore 0 o rfl
    rw [Nat.add_zero] at hgenerator
    have hlength : (objects ++ [o]).length = objects.length + 1 := by simp
    obtain ⟨between, hcollapsed, hrun⟩ := ih (h.put o) fun k o' hk => by
      have hplace : (objects ++ [o]).length + k = objects.length + (k + 1) := by omega
      rw [hplace]
      exact hbefore (k + 1) o' hk
    rw [← List.append_cons] at hcollapsed hrun
    refine ⟨between, hcollapsed, fun after => ?_⟩
    have hkey : requireHashable o = .ok () := by
      rw [requireHashable, hashable]
    rw [List.cons_append, assignFrom, hgenerator]
    simp only [hkey, ← hlength, hrun, Assignment.behind, List.zipIdx_cons, List.cons_append]

/-- Objects that are given identifiers and can be keys are all numbered, each occurrence once. -/
theorem exists_assign_of_places {generator : Value → Nat → Except Misfit Value} {items : Value}
    (hitems : items.items = .ok objects)
    (hplaces : ∀ k o, objects[k]? = some o →
      generator o k = .ok (write o k) ∧ o.unhashable? = none) :
    ∃ ids, assign generator items = ⟨objects.zipIdx, .ok ids⟩ ∧ Collapsed write objects ids := by
  obtain ⟨ids, hcollapsed, hrun⟩ := exists_assignFrom_append collapsed_nil fun k o hk => by
    simpa using hplaces k o hk
  have hassign := hrun []
  rw [List.append_nil] at hassign
  refine ⟨ids, ?_, hcollapsed⟩
  rw [assign, hitems]
  simpa [assignFrom, Assignment.behind] using hassign

/-- Objects that can be keys are all numbered if every object has an identifier under every
number. -/
theorem exists_assign {generator : Value → Nat → Except Misfit Value} {items : Value}
    (hitems : items.items = .ok objects)
    (hgenerator : ∀ o ∈ objects, ∀ index, generator o index = .ok (write o index))
    (hashable : ∀ o ∈ objects, o.unhashable? = none) :
    ∃ ids, assign generator items = ⟨objects.zipIdx, .ok ids⟩ ∧ Collapsed write objects ids :=
  exists_assign_of_places hitems fun k o hk =>
    have ho := List.mem_of_getElem? hk
    ⟨hgenerator o ho k, hashable o ho⟩

end Identifier

end ModelData
