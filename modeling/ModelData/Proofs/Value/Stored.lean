import ModelData.Yaml.Writer
import ModelData.Value.Sort
import ModelData.Value.Table

/-!
Values that can be stored as text: truth values, integers, finite floats, texts, and lists and
tables of such values, where the keys of a table are plain words. Writing a table may put its
entries in order, and a format may change a text on its way, depending on how far in it
stands. What is read back is then the value with its entries in that order and with those
texts; looking a key up gives what it gave before, changed in the same way.
-/

namespace ModelData

/-- A short word of letters that every format writes as it is. -/
def isKey (s : String) : Bool :=
  s.toList.all (fun c => c.isLower || c = '_') && Yaml.allowsPlain s.toList && s.length < 64

/-- Keys that are texts of which none occurs twice. -/
structure Worded {α : Type} (entries : List (Value × α)) : Prop where
  texts : ∀ e ∈ entries, ∃ s, e.1 = .text s
  nodup : (entries.map (·.1)).Nodup

/-- Keys that are words of which none occurs twice. -/
structure Keyed {α : Type} (entries : List (Value × α)) : Prop where
  words : ∀ e ∈ entries, ∃ s, e.1 = .text s ∧ isKey s = true
  nodup : (entries.map (·.1)).Nodup

theorem Keyed.worded {α : Type} {entries : List (Value × α)} (h : Keyed entries) :
    Worded entries :=
  ⟨fun e he => (h.words e he).imp fun _ => And.left, h.nodup⟩

inductive Storable : Value → Prop where
  | flag (b : Bool) : Storable (.flag b)
  | int (i : Int) : Storable (.int i)
  | float (x : Binary64.Finite) : Storable (.float (.finite x))
  | text (s : String) : Storable (.text s)
  | list {items : List Value} (inside : ∀ v ∈ items, Storable v) : Storable (.list items)
  | table {entries : List (Value × Value)} (filled : entries ≠ []) (keyed : Keyed entries)
      (inside : ∀ e ∈ entries, Storable e.2) : Storable (.table entries)

namespace Table

variable {α β : Type} {entries : List (Value × α)} {name : String} {x : α}

theorem form_text_inj {s t : String} : (Value.text s).form = (Value.text t).form ↔ s = t := by
  simp [Value.form]

/-- Entries in the order of their keys, or as they came. -/
def ordered (sorts : Bool) (entries : List (Value × α)) : List (Value × α) :=
  if sorts then entries.mergeSort fun e f => e.1.mayPrecede f.1 else entries

theorem ordered_perm (sorts : Bool) (entries : List (Value × α)) :
    (ordered sorts entries).Perm entries := by
  unfold ordered
  split
  · exact List.mergeSort_perm _ _
  · exact .rfl

theorem ordered_ne_nil (sorts : Bool) (h : entries ≠ []) : ordered sorts entries ≠ [] := by
  intro hnil
  have hperm := ordered_perm sorts entries
  rw [hnil] at hperm
  exact h hperm.nil_eq.symm

theorem map_ordered (sorts : Bool) (f : α → β) (entries : List (Value × α)) :
    (ordered sorts entries).map (fun e => (e.1, f e.2)) =
      ordered sorts (entries.map fun e => (e.1, f e.2)) := by
  unfold ordered
  split
  · exact List.map_mergeSort fun _ _ _ _ => rfl
  · rfl

theorem mem_ordered {sorts : Bool} {e : Value × α} :
    e ∈ ordered sorts entries ↔ e ∈ entries :=
  (ordered_perm sorts entries).mem_iff

theorem keyed_perm {entries' : List (Value × α)} (h : Keyed entries)
    (hperm : entries'.Perm entries) : Keyed entries' :=
  ⟨fun e he => h.words e (hperm.mem_iff.1 he), (hperm.map _).nodup_iff.2 h.nodup⟩

theorem worded_perm {entries' : List (Value × α)} (h : Worded entries)
    (hperm : entries'.Perm entries) : Worded entries' :=
  ⟨fun e he => h.texts e (hperm.mem_iff.1 he), (hperm.map _).nodup_iff.2 h.nodup⟩

theorem worded_map (h : Worded entries) (f : α → β) :
    Worded (entries.map fun e => (e.1, f e.2)) := by
  refine ⟨fun e he => ?_, ?_⟩
  · obtain ⟨d, hd, rfl⟩ := List.mem_map.1 he
    exact h.texts d hd
  · rw [List.map_map]
    exact h.nodup

theorem keyed_map (h : Keyed entries) (f : α → β) :
    Keyed (entries.map fun e => (e.1, f e.2)) := by
  refine ⟨fun e he => ?_, ?_⟩
  · obtain ⟨d, hd, rfl⟩ := List.mem_map.1 he
    exact h.words d hd
  · rw [List.map_map]
    exact h.nodup

theorem sortBy_eq (h : Worded entries) : sortBy (·.1) entries = .ok (ordered true entries) := by
  have htexts : (entries.all fun e => e.1.kind = .text) = true := by
    refine List.all_eq_true.2 fun e he => ?_
    obtain ⟨s, hs⟩ := h.texts e he
    rw [hs]
    rfl
  rw [sortBy, if_pos htexts]
  rfl

/-- A name is found in a table just when it stands there. -/
theorem field?_eq_some_iff (h : Worded entries) :
    field? name entries = some x ↔ (.text name, x) ∈ entries := by
  induction entries with
  | nil => simp [field?, get?]
  | cons e rest ih =>
    obtain ⟨k, y⟩ := e
    obtain ⟨s, hs⟩ := h.texts _ (List.mem_cons_self)
    obtain rfl : k = .text s := hs
    have hnodup := h.nodup
    rw [List.map_cons, List.nodup_cons] at hnodup
    have hrest := ih ⟨fun e he => h.texts e (List.mem_cons_of_mem _ he), hnodup.2⟩
    rw [field?, get?]
    by_cases hname : s = name
    · subst hname
      rw [if_pos rfl]
      constructor
      · intro heq
        rw [Option.some.inj heq]
        exact List.mem_cons_self
      · intro hmem
        rcases List.mem_cons.1 hmem with heq | hmem
        · rw [(Prod.mk.inj heq).2]
        · exact absurd (List.mem_map_of_mem (f := (·.1)) hmem) hnodup.1
    · rw [if_neg fun heq => hname (form_text_inj.1 heq)]
      refine hrest.trans ⟨List.mem_cons_of_mem _, fun hmem => ?_⟩
      rcases List.mem_cons.1 hmem with heq | hmem
      · have hkeys := (Prod.mk.inj heq).1
        simp only [Value.text.injEq] at hkeys
        exact absurd hkeys.symm hname
      · exact hmem

/-- The order of the entries makes no difference to what is found. -/
theorem field?_perm {entries' : List (Value × α)} (h : Worded entries)
    (hperm : entries'.Perm entries) (name : String) :
    field? name entries' = field? name entries := by
  refine Option.ext fun x => ?_
  rw [field?_eq_some_iff h, field?_eq_some_iff (worded_perm h hperm), hperm.mem_iff]

theorem field?_map (f : α → β) (name : String) (entries : List (Value × α)) :
    field? name (entries.map fun e => (e.1, f e.2)) = (field? name entries).map f := by
  induction entries with
  | nil => rfl
  | cons e rest ih =>
    obtain ⟨k, y⟩ := e
    rw [field?] at ih ⊢
    rw [List.map_cons, get?, field?, get?]
    by_cases hk : k.form = (Value.text name).form
    · rw [if_pos hk, if_pos hk, Option.map_some]
    · rw [if_neg hk, if_neg hk, ih, field?]

theorem put_of_new {key : Value} {t : List (Value × α)}
    (h : ∀ e ∈ t, e.1.form ≠ key.form) : put key x t = t ++ [(key, x)] := by
  induction t with
  | nil => rfl
  | cons e rest ih =>
    obtain ⟨k, y⟩ := e
    have hk : k.form ≠ key.form := h _ (List.mem_cons_self)
    rw [put, if_neg hk, ih fun e he => h e (List.mem_cons_of_mem _ he), List.cons_append]

/-- Entries of which no key occurs twice make a table as they stand. -/
theorem ofList_eq_self (h : Worded entries) : ofList entries = entries := by
  have hfold : ∀ rest seen : List (Value × α), Worded (seen ++ rest) →
      rest.foldl (fun table entry => put entry.1 entry.2 table) seen = seen ++ rest := by
    intro rest
    induction rest with
    | nil => intro seen _; simp
    | cons e rest ih =>
      intro seen hworded
      have hnew : ∀ d ∈ seen, d.1.form ≠ e.1.form := by
        intro d hd hform
        obtain ⟨s, hs⟩ := hworded.texts d (List.mem_append_left _ hd)
        obtain ⟨t, ht⟩ := hworded.texts e (List.mem_append_right _ List.mem_cons_self)
        rw [hs, ht] at hform
        have hnodup := hworded.nodup
        rw [List.map_append, List.nodup_append] at hnodup
        refine hnodup.2.2 d.1 (List.mem_map_of_mem hd) e.1 (by simp) ?_
        rw [hs, ht, form_text_inj.1 hform]
      have hshape : seen ++ e :: rest = (seen ++ [e]) ++ rest := by simp
      rw [List.foldl_cons, put_of_new hnew, hshape]
      rw [hshape] at hworded
      exact ih _ hworded
  exact hfold entries [] h

end Table

section Reread

variable (change : Nat → List Char → List Char) (sorts : Bool)

/-- The column of a value behind a key: a list stands under its key, anything else further in. -/
def innerIndent (indent : Nat) : Value → Nat
  | .list _ => indent
  | _ => indent + 2

mutual

/-- What is read for a value that is written with its first line at an indentation, by a
format that changes the texts at each indentation in its own way. -/
def Value.reread (indent : Nat) : Value → Value
  | .text s => .text (String.ofList (change indent s.toList))
  | .list items => .list (Value.rereads (indent + 2) items)
  | .table entries => .table (Table.ordered sorts (Value.rereadEntries indent entries))
  | v => v

def Value.rereads (indent : Nat) : List Value → List Value
  | [] => []
  | v :: rest => Value.reread indent v :: Value.rereads indent rest

def Value.rereadEntries (indent : Nat) : List (Value × Value) → List (Value × Value)
  | [] => []
  | (k, v) :: rest =>
    (k, Value.reread (innerIndent indent v) v) :: Value.rereadEntries indent rest

end

/-- What is read for a value behind a key at an indentation. -/
def Value.rereadBehind (indent : Nat) (v : Value) : Value :=
  v.reread change sorts (innerIndent indent v)

theorem Value.rereads_eq_map (indent : Nat) (items : List Value) :
    Value.rereads change sorts indent items = items.map (Value.reread change sorts indent) := by
  induction items with
  | nil => rfl
  | cons v rest ih => rw [Value.rereads, ih, List.map_cons]

theorem Value.rereadEntries_eq_map (indent : Nat) (entries : List (Value × Value)) :
    Value.rereadEntries change sorts indent entries =
      entries.map fun e => (e.1, e.2.rereadBehind change sorts indent) := by
  induction entries with
  | nil => rfl
  | cons e rest ih =>
    obtain ⟨k, v⟩ := e
    rw [Value.rereadEntries, ih, List.map_cons]
    rfl

variable {change sorts}

/-- A table is read as one with the same keys. -/
theorem reread_table (indent : Nat) (entries : List (Value × Value)) :
    (Value.table entries).reread change sorts indent =
      .table ((Table.ordered sorts entries).map fun e =>
        (e.1, e.2.rereadBehind change sorts indent)) := by
  have hordered := Table.map_ordered sorts (Value.rereadBehind change sorts indent) entries
  rw [Value.reread, Value.rereadEntries_eq_map, ← hordered]

theorem keyed_reread {entries : List (Value × Value)} (h : Keyed entries) (indent : Nat) :
    Keyed ((Table.ordered sorts entries).map fun e =>
      (e.1, e.2.rereadBehind change sorts indent)) :=
  Table.keyed_map (Table.keyed_perm h (Table.ordered_perm sorts entries)) _

/-- A name stands for what it stood for, as that is read. -/
theorem field?_reread {entries : List (Value × Value)} (h : Worded entries) (indent : Nat)
    (name : String) :
    Table.field? name (Table.ordered sorts (Value.rereadEntries change sorts indent entries)) =
      (Table.field? name entries).map (Value.rereadBehind change sorts indent) := by
  have hmap := Table.field?_map (Value.rereadBehind change sorts indent) name
    (Table.ordered sorts entries)
  have hordered := Table.map_ordered sorts (Value.rereadBehind change sorts indent) entries
  rw [Value.rereadEntries_eq_map, ← hordered, hmap,
    Table.field?_perm h (Table.ordered_perm sorts entries)]

theorem depth_le_depths {v : Value} {items : List Value} (h : v ∈ items) :
    v.depth ≤ Value.depths items := by
  induction items with
  | nil => simp at h
  | cons w rest ih =>
    rw [Value.depths]
    rcases List.mem_cons.1 h with rfl | h
    · omega
    · have hle := ih h
      omega

theorem depth_le_entryDepths {e : Value × Value} {entries : List (Value × Value)}
    (h : e ∈ entries) : e.2.depth ≤ Value.entryDepths entries := by
  induction entries with
  | nil => simp at h
  | cons d rest ih =>
    obtain ⟨k, v⟩ := d
    rw [Value.entryDepths]
    rcases List.mem_cons.1 h with rfl | h
    · dsimp only
      omega
    · have hle := ih h
      omega

theorem depth_of_mem_list {v : Value} {items : List Value} (h : v ∈ items) :
    v.depth < (Value.list items).depth :=
  Nat.lt_succ_of_le (depth_le_depths h)

theorem depth_of_mem_table {e : Value × Value} {entries : List (Value × Value)}
    (h : e ∈ entries) : e.2.depth < (Value.table entries).depth :=
  Nat.lt_succ_of_le (depth_le_entryDepths h)

theorem mem_of_field? {entries : List (Value × Value)} {name : String} {v : Value}
    (h : Table.field? name entries = some v) : ∃ k, (k, v) ∈ entries :=
  Table.mem_of_get? h

end Reread

end ModelData
