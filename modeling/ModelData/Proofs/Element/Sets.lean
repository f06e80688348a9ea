import ModelData.Element.Build
import ModelData.Proofs.Element.Tree
import ModelData.Proofs.Value.Distinct
import ModelData.Proofs.Value.Traverse

/-!
Sets as they are built. The members of a set are of one sort and can be looked up, and from
members that are, the set is built again.
-/

namespace ModelData

theorem literalNames_length_le {members members' : List Member}
    (h : ∀ m ∈ members', m ∈ members) :
    (Member.literalNames members').length ≤ (Member.literalNames members).length := by
  simp only [Member.literalNames, ← List.countP_eq_length_filter]
  refine List.countP_mono_left fun name _ hname => ?_
  simp only [List.any_eq_true, decide_eq_true_eq] at hname ⊢
  obtain ⟨m, hm, hliteral⟩ := hname
  exact ⟨m, h m hm, hliteral⟩

theorem make_toValue (m : Member) : Member.make m.toValue = .ok m := by
  cases m with
  | scalar s => cases s <;> rfl
  | float | element => rfl

theorem toValue_of_make {v : Value} {m : Member} (h : Member.make v = .ok m) :
    m.toValue = v := by
  cases v with
  | float x =>
    cases x <;> cases h
    rfl
  | text | int | flag | element =>
    cases h
    rfl
  | _ => cases h

theorem anyUnhashable?_eq_none_iff {members : List Member} :
    Member.anyUnhashable? members = none ↔ ∀ m ∈ members, m.unhashable? = none := by
  induction members with
  | nil => simp [Member.anyUnhashable?]
  | cons m rest ih => simp [Member.anyUnhashable?, ih, Option.or_eq_none_iff]

theorem anyUnhashable?_items_iff {items : List Element} :
    Element.anyUnhashable? items = none ↔ ∀ e ∈ items, e.unhashable? = none := by
  induction items with
  | nil => simp [Element.anyUnhashable?]
  | cons e rest ih => simp [Element.anyUnhashable?, ih, Option.or_eq_none_iff]

theorem anyUnhashable?_entries_iff {entries : List Named} :
    Binding.anyUnhashable? entries = none ↔ ∀ n ∈ entries, n.unhashable? = none := by
  induction entries with
  | nil => simp [Binding.anyUnhashable?]
  | cons n rest ih => simp [Binding.anyUnhashable?, ih, Option.or_eq_none_iff]

theorem anyUnhashable?_values_iff {values : List Value} :
    Value.anyUnhashable? values = none ↔ ∀ v ∈ values, v.unhashable? = none := by
  induction values with
  | nil => simp [Value.anyUnhashable?]
  | cons v rest ih => simp [Value.anyUnhashable?, ih, Option.or_eq_none_iff]

theorem unhashable?_named_iff {n : Named} :
    n.unhashable? = none ↔ n.name.unhashable? = none ∧ n.element.unhashable? = none := by
  obtain ⟨name, e⟩ := n
  rw [Binding.unhashable?, Option.or_eq_none_iff]

/-- The names of the children can be looked up. -/
def Element.KeyedByHashables (e : Element) : Prop :=
  ∀ name ∈ e.keys, name.unhashable? = none

theorem Element.keyedByHashables_of_keyless {e : Element} (h : e.keys = []) :
    e.KeyedByHashables := by
  simp [Element.KeyedByHashables, h]

/-- No name in an element that can be looked up is one that cannot. -/
theorem Element.hashable_names (e : Element) (h : e.unhashable? = none) :
    e.Everywhere Element.KeyedByHashables := by
  induction e using Element.childInduction with | step e ih
  cases e with
  | set members =>
    have hmembers := anyUnhashable?_eq_none_iff.1 h
    refine .intro (Element.keyedByHashables_of_keyless rfl) fun d hd => ih d hd ?_
    obtain ⟨m, hm, hd⟩ := List.mem_filterMap.1 hd
    cases m <;> cases hd
    exact hmembers _ hm
  | tuple items =>
    have hitems := anyUnhashable?_items_iff.1 h
    exact .intro (Element.keyedByHashables_of_keyless rfl) fun d hd => ih d hd (hitems d hd)
  | array entries =>
    have hentries := anyUnhashable?_entries_iff.1 h
    refine .intro (fun name hname => ?_) fun d hd => ih d hd ?_
    · obtain ⟨n, hn, rfl⟩ := List.mem_map.1 (show name ∈ entries.map (·.name) from hname)
      exact (unhashable?_named_iff.1 (hentries n hn)).1
    · obtain ⟨n, hn, rfl⟩ := List.mem_map.1 hd
      exact (unhashable?_named_iff.1 (hentries n hn)).2
  | scalar | float | custom => exact .leaf (Element.keyedByHashables_of_keyless rfl) rfl

/-- Members that can stand together in one set. -/
structure Compatible (members : List Member) : Prop where
  sorts : (Member.literalNames members).length ≤ 1
  hashable : ∀ m ∈ members, m.unhashable? = none

/-- What becomes of items that can all be members. -/
theorem makeSet_of_members (made : List Member) :
    Element.makeSet (.list (made.map Member.toValue)) =
      if 1 < (Member.literalNames made).length then
        .error (.mixedMembers (Member.literalNames made))
      else (Member.anyUnhashable? made).elim (.ok (.set (distinct Member.form made)))
        fun k => .error (.unhashable k) := by
  have hmake : (made.map Member.toValue).mapM Member.make = .ok made :=
    mapM_map_of_inverse make_toValue made
  simp only [Element.makeSet, Value.itemsFor, Value.items, ok_bind, hmake]
  cases Member.anyUnhashable? made <;> rfl

theorem makeSet_toValue {members : List Member} (h : Compatible members) :
    Element.makeSet (.list (members.map Member.toValue)) =
      .ok (.set (distinct Member.form members)) := by
  rw [makeSet_of_members, if_neg (Nat.not_lt.2 h.sorts),
    anyUnhashable?_eq_none_iff.2 h.hashable, Option.elim_none]

/-- Texts can stand together. -/
theorem compatible_texts (words : List String) :
    Compatible (words.map fun s => .scalar (.text s)) := by
  refine ⟨?_, by simp [Member.unhashable?]⟩
  have hsorts (name : String) (hname : name ≠ "str") :
      ((words.map fun s => Member.scalar (.text s)).any
        fun m => m.literalName? = some name) = false := by
    simp [Member.literalName?, hname.symm]
  rw [Member.literalNames, List.filter_cons_of_neg, List.filter_cons_of_neg]
  · exact List.length_filter_le _ ["str"]
  · simp [hsorts "int" (by decide)]
  · simp [hsorts "float" (by decide)]

/-- Of texts that do not repeat each is kept. -/
theorem makeSet_texts {words : List String} (h : words.Nodup) :
    Element.makeSet (.list (words.map .text)) =
      .ok (.set (words.map fun s => .scalar (.text s))) := by
  have hforms : ((words.map fun s => Member.scalar (.text s)).map Member.form).Nodup := by
    rw [List.map_map, List.Nodup, List.pairwise_map]
    exact h.imp fun hne heq => hne (by simpa [Member.form, Scalar.form] using heq)
  have hkept : distinct Member.form (words.map fun s => Member.scalar (.text s)) =
      words.map fun s => .scalar (.text s) :=
    distinctFrom_eq_self (fun _ _ => List.not_mem_nil) hforms
  have hmade := makeSet_toValue (compatible_texts words)
  rw [hkept, List.map_map] at hmade
  exact hmade

theorem exists_set {items : Value} {e : Element} (h : Element.makeSet items = .ok e) :
    ∃ kept, e = .set kept := by
  obtain ⟨values, -, h⟩ := bind_eq_ok h
  obtain ⟨made, -, h⟩ := bind_eq_ok h
  dsimp only at h
  split at h
  · cases h
  · split at h <;> cases h
    exact ⟨_, rfl⟩

/-- The items that a set is built from can stand together, and of equal ones the first is
kept. -/
theorem exists_members {items : Value} {values : List Value} {kept : List Member}
    (hitems : items.itemsFor .set = .ok values) (h : Element.makeSet items = .ok (.set kept)) :
    ∃ made, made.map Member.toValue = values ∧ Compatible made ∧
      kept = distinct Member.form made := by
  obtain ⟨values', hvalues, h⟩ := bind_eq_ok h
  cases hvalues.symm.trans hitems
  obtain ⟨made, hmade, h⟩ := bind_eq_ok h
  refine ⟨made, map_eq_of_mapM hmade fun v _ m => toValue_of_make, ?_⟩
  dsimp only at h
  split at h
  · cases h
  · next hsorts =>
    split at h
    · cases h
    · next hhashable =>
      cases h
      exact ⟨⟨Nat.not_lt.1 hsorts, anyUnhashable?_eq_none_iff.1 hhashable⟩, rfl⟩

/-- The members of a set that was built can stand together, and none equals an earlier one. -/
theorem compatible_of_makeSet {items : Value} {members : List Member}
    (h : Element.makeSet items = .ok (.set members)) :
    Compatible members ∧ distinct Member.form members = members := by
  obtain ⟨values, hitems, -⟩ := bind_eq_ok h
  obtain ⟨made, -, hmade, rfl⟩ := exists_members hitems h
  have hkept : ∀ m ∈ distinct Member.form made, m ∈ made := fun m hm => mem_of_mem_distinct hm
  have hsorts := literalNames_length_le hkept
  exact ⟨⟨Nat.le_trans hsorts hmade.sorts, fun m hm => hmade.hashable m (hkept m hm)⟩,
    distinct_distinct made⟩

theorem mem_literalNames {members : List Member} {m : Member} {name : String} (hm : m ∈ members)
    (hname : m.literalName? = some name) : name ∈ Member.literalNames members := by
  have hsort : name ∈ ["float", "int", "str"] := by
    cases m with
    | scalar s => cases s <;> cases hname <;> simp
    | float | element => cases hname <;> simp
  apply List.mem_filter.2 ⟨hsort, _⟩
  simp only [List.any_eq_true, decide_eq_true_eq]
  exact ⟨m, hm, hname⟩

theorem eq_headD_of_mem {names : List String} (h : names.length ≤ 1) {name : String}
    (hmem : name ∈ names) : name = names.headD "" := by
  match names with
  | [] => simp at hmem
  | [first] => exact List.mem_singleton.1 hmem
  | _ :: _ :: _ => simp at h

/-- The literals of a set are of one sort. -/
theorem Compatible.literalName_eq {members : List Member} (h : Compatible members)
    {m n : Member} (hm : m ∈ members) (hn : n ∈ members) {a b : String}
    (ha : m.literalName? = some a) (hb : n.literalName? = some b) : a = b := by
  have hfirst := eq_headD_of_mem h.sorts (mem_literalNames hm ha)
  exact hfirst.trans (eq_headD_of_mem h.sorts (mem_literalNames hn hb)).symm

end ModelData
