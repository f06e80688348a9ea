import ModelData.Proofs.Value.Traverse

/-! Elements as trees. A node has children, the names under which an array holds them, and the
bare texts of a set. What holds of every node whose children have it holds of every element. -/

namespace ModelData

def Member.element? : Member → Option Element
  | .element e => some e
  | _ => none

def Member.word? : Member → Option String
  | .scalar (.text s) => some s
  | _ => none

namespace Element

def children : Element → List Element
  | .set members => members.filterMap Member.element?
  | .tuple items => items
  | .array entries => entries.map (·.element)
  | _ => []

/-- The names of the children of an array. -/
def keys (e : Element) : List Value :=
  e.keys?.getD []

/-- The texts that a set holds without an element around them. -/
def words : Element → List String
  | .set members => members.filterMap Member.word?
  | _ => []

theorem mem_children_of_member {members : List Member} {d : Element}
    (h : Member.element d ∈ members) : d ∈ (Element.set members).children :=
  List.mem_filterMap.2 ⟨_, h, rfl⟩

theorem mem_children_of_entry {entries : List Named} {n : Named} (h : n ∈ entries) :
    n.element ∈ (Element.array entries).children :=
  List.mem_map_of_mem h

theorem mem_words_of_member {members : List Member} {s : String}
    (h : Member.scalar (.text s) ∈ members) : s ∈ (Element.set members).words :=
  List.mem_filterMap.2 ⟨_, h, rfl⟩

def isForeign : Element → Bool
  | .custom _ _ => true
  | _ => false

theorem exists_custom {e : Element} (h : e.isForeign = true) :
    ∃ kind label, e = .custom kind label := by
  cases e with
  | custom kind label => exact ⟨kind, label, rfl⟩
  | _ => cases h

/-- The names of the children are texts. -/
def KeyedByTexts (e : Element) : Prop :=
  ∀ name ∈ e.keys, ∃ s, name = .text s

theorem keyedByTexts_of_keyless {e : Element} (h : e.keys = []) : e.KeyedByTexts := by
  simp [KeyedByTexts, h]

/-- A property of an element and of all that it holds at any depth. -/
inductive Everywhere (p : Element → Prop) : Element → Prop where
  | intro {e : Element} (here : p e) (inside : ∀ d ∈ e.children, Everywhere p d) :
      Everywhere p e

theorem Everywhere.here {p : Element → Prop} {e : Element} (h : e.Everywhere p) : p e := by
  cases h
  assumption

theorem Everywhere.inside {p : Element → Prop} {e d : Element} (h : e.Everywhere p)
    (hd : d ∈ e.children) : d.Everywhere p := by
  cases h with
  | intro _ inside => exact inside d hd

theorem everywhere_iff {p : Element → Prop} {e : Element} :
    e.Everywhere p ↔ p e ∧ ∀ d ∈ e.children, d.Everywhere p :=
  ⟨fun h => ⟨h.here, fun _ => h.inside⟩, fun h => .intro h.1 h.2⟩

theorem Everywhere.mono {p q : Element → Prop} (hpq : ∀ e, p e → q e) {e : Element}
    (h : e.Everywhere p) : e.Everywhere q := by
  induction h with
  | intro here _ ih => exact .intro (hpq _ here) ih

theorem Everywhere.and {p q : Element → Prop} {e : Element} (hp : e.Everywhere p)
    (hq : e.Everywhere q) : e.Everywhere fun d => p d ∧ q d := by
  induction hp with
  | intro here _ ih => exact .intro ⟨here, hq.here⟩ fun d hd => ih d hd (hq.inside hd)

theorem Everywhere.leaf {p : Element → Prop} {e : Element} (here : p e)
    (h : e.children = []) : e.Everywhere p :=
  .intro here (by simp [h])

theorem sizeOf_lt_of_mem_children {d e : Element} (h : d ∈ e.children) :
    sizeOf d < sizeOf e := by
  cases e with
  | set members =>
    obtain ⟨m, hm, hd⟩ := List.mem_filterMap.1 h
    have hsize := List.sizeOf_lt_of_mem hm
    cases m <;> simp [Member.element?] at hd
    subst hd
    simp only [Element.set.sizeOf_spec, Member.element.sizeOf_spec] at hsize ⊢
    omega
  | tuple items =>
    have hsize := List.sizeOf_lt_of_mem (show d ∈ items from h)
    simp only [Element.tuple.sizeOf_spec]
    omega
  | array entries =>
    obtain ⟨n, hn, rfl⟩ := List.mem_map.1 h
    have hsize := List.sizeOf_lt_of_mem hn
    obtain ⟨name, element⟩ := n
    simp only [Element.array.sizeOf_spec, Binding.mk.sizeOf_spec] at hsize ⊢
    omega
  | scalar | float | custom => simp [children] at h

/-- A property that a node has whenever its children have it holds of every element. -/
theorem childInduction {p : Element → Prop} (step : ∀ e, (∀ d ∈ e.children, p d) → p e)
    (e : Element) : p e :=
  step e fun d _ => childInduction step d
termination_by sizeOf e
decreasing_by exact sizeOf_lt_of_mem_children ‹_›

theorem everywhere_of_forall {p : Element → Prop} (h : ∀ d, p d) (e : Element) :
    e.Everywhere p :=
  e.childInduction fun d inside => .intro (h d) inside

/-- The element and all that it holds at any depth, each before what it holds. -/
def nodes (e : Element) : List Element :=
  e :: e.children.attach.flatMap fun d => nodes d.1
termination_by sizeOf e
decreasing_by exact sizeOf_lt_of_mem_children d.2

theorem nodes_eq (e : Element) : e.nodes = e :: e.children.flatMap nodes := by
  rw [nodes, List.flatMap_subtype fun _ _ => rfl, List.unattach_attach]

theorem Everywhere.of_mem_nodes {p : Element → Prop} {d e : Element} (h : e.Everywhere p)
    (hd : d ∈ e.nodes) : p d := by
  induction h with
  | @intro e here _ ih =>
    rw [nodes_eq, List.mem_cons, List.mem_flatMap] at hd
    rcases hd with rfl | ⟨c, hc, hd⟩
    · exact here
    · exact ih c hc hd

/-- The first element of a foreign kind, with each element in front of what it holds. -/
def firstForeign? (e : Element) : Option Element :=
  e.nodes.find? isForeign

theorem firstForeign?_of_foreign {e : Element} (h : e.isForeign = true) :
    e.firstForeign? = some e := by
  rw [firstForeign?, nodes_eq, List.find?_cons_of_pos h]

theorem firstForeign?_of_known {e : Element} (h : e.isForeign = false) :
    e.firstForeign? = e.children.findSome? firstForeign? := by
  rw [firstForeign?, nodes_eq, List.find?_cons_of_neg (by simp [h]), List.find?_flatMap]
  rfl

theorem isForeign_of_firstForeign? {d e : Element} (h : e.firstForeign? = some d) :
    d.isForeign = true :=
  List.find?_some h

theorem firstForeign?_eq_none_iff {e : Element} :
    e.firstForeign? = none ↔ e.Everywhere (·.isForeign = false) := by
  induction e using childInduction with
  | step e ih =>
    rw [everywhere_iff]
    cases hforeign : e.isForeign with
    | true => simp [firstForeign?_of_foreign hforeign]
    | false =>
      rw [firstForeign?_of_known hforeign, List.findSome?_eq_none_iff]
      exact ⟨fun h => ⟨rfl, fun d hd => (ih d hd).1 (h d hd)⟩,
        fun h d hd => (ih d hd).2 (h.2 d hd)⟩

/-- The element and all that it holds, each with its depth and behind what it holds. -/
def finished (depth : Nat) (e : Element) : List (Nat × Element) :=
  (e.children.attach.flatMap fun d => finished (depth + 1) d.1) ++ [(depth, e)]
termination_by sizeOf e
decreasing_by exact sizeOf_lt_of_mem_children d.2

theorem finished_eq (depth : Nat) (e : Element) :
    e.finished depth = e.children.flatMap (finished (depth + 1)) ++ [(depth, e)] := by
  rw [finished, List.flatMap_subtype fun _ _ => rfl, List.unattach_attach]

theorem finished_leaf (depth : Nat) {e : Element} (h : e.children = []) :
    e.finished depth = [(depth, e)] := by
  rw [finished_eq, h]
  rfl

/-- Elements of foreign kinds hold nothing, so the first of them is the same in both orders. -/
theorem find?_finished (depth : Nat) (e : Element) :
    ((e.finished depth).find? (·.2.isForeign)).map (·.2) = e.firstForeign? := by
  induction e using childInduction generalizing depth with
  | step e ih =>
    rw [finished_eq, List.find?_append, List.find?_flatMap]
    cases hforeign : e.isForeign with
    | true =>
      obtain ⟨kind, label, rfl⟩ := exists_custom hforeign
      rw [firstForeign?_of_foreign hforeign]
      rfl
    | false =>
      rw [List.find?_cons_of_neg (by simp [hforeign]), List.find?_nil, Option.or_none,
        List.map_findSome?, firstForeign?_of_known hforeign]
      exact findSome?_congr fun d hd => ih d hd (depth + 1)

/-- The elements that lie a number of levels inside an element. -/
inductive AtDepth : Nat → Element → Element → Prop where
  | here (e : Element) : AtDepth 0 e e
  | inside {k : Nat} {c d e : Element} (child : d ∈ e.children) (deep : AtDepth k c d) :
      AtDepth (k + 1) c e

/-- A collection that is not empty. -/
def isFilled (e : Element) : Bool :=
  e.count?.any (· ≠ 0)

end Element

end ModelData
