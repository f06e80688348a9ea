import ModelData.Json.Reader
import ModelData.Proofs.Identifier.Numbering
import ModelData.Proofs.Value.Settled

/-!
What can be read from JSON text. A value that was read is plain data: no NaN in it differs from
another, and the keys of its tables are texts that do not repeat, although they may have repeated
in the text. Putting such tables in order is done once and for all.
-/

namespace ModelData

namespace Table

variable {α : Type} {t entries : List (Value × α)} {x : α}

theorem mem_put {key : Value} {e : Value × α} (h : e ∈ put key x t) : e ∈ t ∨ e.2 = x := by
  induction t with
  | nil => exact .inr (congrArg Prod.snd (List.mem_singleton.1 h))
  | cons d rest ih =>
    obtain ⟨k, y⟩ := d
    rw [put] at h
    split at h
    · rcases List.mem_cons.1 h with rfl | h
      · exact .inr rfl
      · exact .inl (List.mem_cons_of_mem _ h)
    · rcases List.mem_cons.1 h with rfl | h
      · exact .inl List.mem_cons_self
      · exact (ih h).imp_left (List.mem_cons_of_mem _)

theorem worded_iff_keys :
    Worded t ↔ (∀ k ∈ t.map (·.1), ∃ s, k = .text s) ∧ (t.map (·.1)).Nodup :=
  ⟨fun h => ⟨List.forall_mem_map.2 h.texts, h.nodup⟩,
    fun h => ⟨fun _ he => h.1 _ (List.mem_map_of_mem he), h.2⟩⟩

theorem worded_put (h : Worded t) (s : String) : Worded (put (.text s) x t) := by
  rw [worded_iff_keys] at h ⊢
  rw [keys_put]
  split
  · rwa [List.append_nil]
  · next hnew =>
    refine ⟨fun k hk => ?_, List.nodup_append.2 ⟨h.2, by simp, fun k hk k' hk' heq => ?_⟩⟩
    · rcases List.mem_append.1 hk with hk | hk
      · exact h.1 k hk
      · exact ⟨s, List.mem_singleton.1 hk⟩
    · rw [heq, List.mem_singleton.1 hk'] at hk
      exact hnew (List.mem_map_of_mem hk)

/-- However often texts occur as keys, a table is made in which none occurs twice. -/
theorem worded_ofList (h : ∀ e ∈ entries, ∃ s, e.1 = .text s) : Worded (ofList entries) := by
  refine List.foldlRecOn entries _ ⟨by simp, by simp⟩ fun t ht e he => ?_
  obtain ⟨s, hs⟩ := h e he
  rw [hs]
  exact worded_put ht s

theorem forall_ofList {p : α → Prop} (h : ∀ e ∈ entries, p e.2) : ∀ e ∈ ofList entries, p e.2 := by
  refine List.foldlRecOn (motive := fun t : List (Value × α) => ∀ e ∈ t, p e.2) entries _ (by simp)
    fun t ht e he d hd => ?_
  rcases mem_put hd with hd | hd
  · exact ht d hd
  · exact hd ▸ h e he

end Table

namespace Json

/-- What can be read from text. -/
inductive Data : Value → Prop where
  | null : Data .null
  | flag (b : Bool) : Data (.flag b)
  | int (i : Int) : Data (.int i)
  | text (s : String) : Data (.text s)
  | finite (x : Binary64.Finite) : Data (.float (.finite x))
  | infinite (negative : Bool) : Data (.float (.infinite negative))
  | nan : Data (.float (.nan nanOccurrence))
  | list {items : List Value} (inside : ∀ v ∈ items, Data v) : Data (.list items)
  | table {entries : List (Value × Value)} (worded : Worded entries)
      (inside : ∀ e ∈ entries, Data e.2) : Data (.table entries)

namespace Data

variable {v : Value} {entries : List (Value × Value)}

theorem settled (h : Data v) : Data v.settled := by
  induction h with
  | @list items _ ih =>
    rw [Value.settled_list]
    exact .list (List.forall_mem_map.2 ih)
  | @table entries worded _ ih =>
    rw [Value.settled_table]
    refine .table (Table.worded_map (Table.worded_perm worded (Table.ordered_perm true _)) _) ?_
    exact List.forall_mem_map.2 fun e he => ih e (Table.mem_ordered.1 he)
  | null => exact .null
  | flag b => exact .flag b
  | int i => exact .int i
  | text s => exact .text s
  | finite x => exact .finite x
  | infinite negative => exact .infinite negative
  | nan => exact .nan

/-- Data that was put in order is in order. -/
theorem settled_settled (h : Data v) : v.settled.settled = v.settled := by
  induction h with
  | @list items _ ih =>
    rw [Value.settled_list, Value.settled_list, List.map_map]
    exact congrArg _ (List.map_congr_left ih)
  | @table entries worded _ ih =>
    have hsame : (entries.map fun e => (e.1, e.2.settled)).map (fun e => (e.1, e.2.settled)) =
        entries.map fun e => (e.1, e.2.settled) := by
      rw [List.map_map]
      exact List.map_congr_left fun e he => congrArg (Prod.mk e.1) (ih e he)
    have hworded := Table.worded_map worded Value.settled
    rw [Value.settled, Value.entriesSettled_eq_map, Value.settled, Value.entriesSettled_eq_map,
      Table.map_ordered, hsame, Table.ordered_ordered hworded]
  | _ => rfl

end Data

section Reading

theorem data_ofDecimal (negative : Bool) (d : Decimal) :
    Data (.float (Binary64.ofDecimal negative d)) := by
  unfold Binary64.ofDecimal Binary64.ofRatio
  dsimp only
  split
  · exact .finite _
  split
  · exact .infinite _
  split
  · exact .finite _
  · exact .infinite _

theorem data_readNumber? {negative : Bool} {cs rest : List Char} {v : Value}
    (h : readNumber? negative cs = some (v, rest)) : Data v := by
  simp only [readNumber?, Option.bind_eq_bind, Option.bind_eq_some_iff] at h
  obtain ⟨⟨whole, rest⟩, -, ⟨fraction, rest⟩, -, ⟨power, rest⟩, -, h⟩ := h
  split at h
  · cases h
    exact .int _
  · simp only [Option.bind_eq_some_iff] at h
    obtain ⟨d, -, h⟩ := h
    cases h
    exact data_ofDecimal negative d

theorem data_readAtom? {cs rest : List Char} {v : Value} (h : readAtom? cs = some (v, rest)) :
    Data v := by
  unfold readAtom? at h
  split at h
  · cases h
    exact .null
  · cases h
    exact .flag true
  · cases h
    exact .flag false
  · cases h
    exact .nan
  · cases h
    exact .infinite false
  · cases h
    exact .infinite true
  · exact data_readNumber? h
  · exact data_readNumber? h

/-- Whatever is read in a number of steps is data. -/
structure ReadsData (steps : Nat) : Prop where
  value : ∀ cs v rest, readValue steps cs = some (v, rest) → Data v
  items : ∀ cs vs rest, readItems steps cs = some (vs, rest) → ∀ v ∈ vs, Data v
  entries : ∀ cs es rest, readEntries steps cs = some (es, rest) →
    ∀ e ∈ es, (∃ s, e.1 = .text s) ∧ Data e.2

theorem ReadsData.step {steps : Nat} (h : ReadsData steps) : ReadsData (steps + 1) where
  value cs v rest hread := by
    unfold readValue at hread
    split at hread
    · next heq => cases heq
    · simp only [Option.bind_eq_bind, Option.bind_eq_some_iff] at hread
      obtain ⟨⟨s, rest⟩, -, hread⟩ := hread
      cases hread
      exact .text _
    · next heq =>
      cases heq
      split at hread
      · cases hread
        exact .list (by simp)
      · simp only [Option.bind_eq_bind, Option.bind_eq_some_iff] at hread
        obtain ⟨⟨items, rest⟩, hitems, hread⟩ := hread
        cases hread
        exact .list (h.items _ _ _ hitems)
    · next heq =>
      cases heq
      split at hread
      · cases hread
        exact .table ⟨by simp, by simp⟩ (by simp)
      · simp only [Option.bind_eq_bind, Option.bind_eq_some_iff] at hread
        obtain ⟨⟨entries, rest⟩, hentries, hread⟩ := hread
        cases hread
        have hdata := h.entries _ _ _ hentries
        exact .table (Table.worded_ofList fun e he => (hdata e he).1)
          (Table.forall_ofList fun e he => (hdata e he).2)
    · exact data_readAtom? hread
  items cs vs rest hread := by
    simp only [readItems, Option.bind_eq_bind, Option.bind_eq_some_iff] at hread
    obtain ⟨⟨v, rest⟩, hvalue, hread⟩ := hread
    have hv := h.value _ _ _ hvalue
    split at hread
    · cases hread
      simpa using hv
    · simp only [Option.bind_eq_some_iff] at hread
      obtain ⟨⟨items, rest⟩, hitems, hread⟩ := hread
      cases hread
      exact List.forall_mem_cons.2 ⟨hv, h.items _ _ _ hitems⟩
    · cases hread
  entries cs es rest hread := by
    unfold readEntries at hread
    split at hread
    · next heq => cases heq
    · next heq =>
      cases heq
      simp only [Option.bind_eq_bind, Option.bind_eq_some_iff] at hread
      obtain ⟨⟨key, rest⟩, -, hread⟩ := hread
      split at hread
      · simp only [Option.bind_eq_some_iff] at hread
        obtain ⟨⟨v, rest⟩, hvalue, hread⟩ := hread
        have hentry : (∃ s, Value.text (String.ofList key) = .text s) ∧ Data v :=
          ⟨⟨_, rfl⟩, h.value _ _ _ hvalue⟩
        split at hread
        · cases hread
          simpa using hentry
        · simp only [Option.bind_eq_some_iff] at hread
          obtain ⟨⟨entries, rest⟩, hentries, hread⟩ := hread
          cases hread
          exact List.forall_mem_cons.2 ⟨hentry, h.entries _ _ _ hentries⟩
        · cases hread
      · cases hread
    · cases hread

theorem readsData (steps : Nat) : ReadsData steps := by
  induction steps with
  | zero => exact ⟨by simp [readValue], by simp [readItems], by simp [readEntries]⟩
  | succ steps ih => exact ih.step

theorem data_read? {text : List Char} {v : Value} (h : read? text = some v) : Data v := by
  simp only [read?, Option.bind_eq_bind, Option.bind_eq_some_iff] at h
  obtain ⟨⟨w, rest⟩, hread, h⟩ := h
  split at h
  · cases h
    exact (readsData _).value _ _ _ hread
  · cases h

end Reading

end Json

end ModelData
