import ModelData.Yaml.Alias
import ModelData.Yaml.Plan
import ModelData.Proofs.Value.Stored
import ModelData.Proofs.Yaml.Scalars

/-! Nodes and the values that they stand for. A node without marks, in which no key asks for a
merge, is resolved as it is, and lists and tables stand for what their parts stand for. -/

namespace ModelData.Yaml

/-- A tree of nodes without marks or merges that stands for a value. -/
structure Stands (node : Node) (v : Value) : Prop where
  resolved : ∀ known, node.resolve known = .ok (node, known)
  unmerged : node.merged = node
  faultless : ∀ level, (node.plan false).faults level = []
  value : (node.plan false).value = v

/-- An entry of nodes stands for one whose key is a word. -/
def StandsEntry (nodes : Node × Node) (entry : Value × Value) : Prop :=
  ∃ s, isKey s = true ∧ entry.1 = .text s ∧ nodes.1 = .scalar {} true s.toList ∧
    Stands nodes.2 entry.2

theorem plan_unmarked (isKey isPlain : Bool) (text : List Char) :
    (Node.scalar {} isPlain text).plan isKey = .leaf (scalarValue isKey none isPlain text) :=
  rfl

theorem stands_scalar {isPlain : Bool} {text : List Char} {v : Value}
    (h : scalarValue false none isPlain text = .ok v) : Stands (.scalar {} isPlain text) v := by
  have hplan : (Node.scalar {} isPlain text).plan false = .leaf (.ok v) := by
    rw [plan_unmarked, h]
  refine ⟨fun known => rfl, rfl, fun level => ?_, ?_⟩
  · rw [hplan]
    rfl
  · rw [hplan]
    rfl

section Lists

variable {nodes : List Node} {values : List Value}

theorem resolveItems_eq (h : List.Forall₂ Stands nodes values) (known : Anchors) :
    Node.resolveItems known nodes = .ok (nodes, known) := by
  induction h with
  | nil => rfl
  | cons hv _ ih =>
    rw [Node.resolveItems, hv.resolved]
    simp only [ok_bind, ih]
    rfl

theorem mergedItems_eq (h : List.Forall₂ Stands nodes values) :
    Node.mergedItems nodes = nodes := by
  induction h with
  | nil => rfl
  | cons hv _ ih => rw [Node.mergedItems, hv.unmerged, ih]

theorem itemPlans_cons (node : Node) (rest : List Node) :
    Node.itemPlans (node :: rest) = node.plan false :: Node.itemPlans rest :=
  rfl

theorem itemFaults_eq (h : List.Forall₂ Stands nodes values) (level : Nat) :
    Plan.itemFaults level (Node.itemPlans nodes) = [] := by
  induction h with
  | nil => rfl
  | cons hv _ ih => rw [itemPlans_cons, Plan.itemFaults, hv.faultless, ih, List.nil_append]

theorem itemValues_eq (h : List.Forall₂ Stands nodes values) :
    Plan.itemValues (Node.itemPlans nodes) = values := by
  induction h with
  | nil => rfl
  | cons hv _ ih => rw [itemPlans_cons, Plan.itemValues, hv.value, ih]

theorem stands_list (h : List.Forall₂ Stands nodes values) :
    Stands (.list {} nodes) (.list values) := by
  have hplan : (Node.list {} nodes).plan false = .list (Node.itemPlans nodes) := rfl
  refine ⟨fun known => ?_, ?_, fun level => ?_, ?_⟩
  · rw [Node.resolve, resolveItems_eq h]
    rfl
  · rw [Node.merged, mergedItems_eq h]
  · rw [hplan, Plan.faults, itemFaults_eq h]
  · rw [hplan, Plan.value, itemValues_eq h]

end Lists

section Tables

variable {nodes : List (Node × Node)} {entries : List (Value × Value)}

theorem plainKind_key {s : String} (h : isKey s = true) : plainKind s.toList = .text := by
  simp only [isKey, Bool.and_eq_true] at h
  exact (bare_of_allowsPlain h.1.2).2.2

theorem stands_key {s : String} (h : isKey s = true) (isKey : Bool) :
    (Node.scalar {} true s.toList).plan isKey = .leaf (.ok (.text s)) := by
  have hvalue : scalarValue isKey none true s.toList = .ok (.text s) := by
    rw [scalarValue, if_pos rfl, spelledValue, plainKind_key h]
    simp
  rw [plan_unmarked, hvalue]

theorem resolveEntries_eq (h : List.Forall₂ StandsEntry nodes entries) (known : Anchors) :
    Node.resolveEntries known nodes = .ok (nodes, known) := by
  induction h with
  | nil => rfl
  | @cons node _ _ _ hentry _ ih =>
    obtain ⟨key, value⟩ := node
    obtain ⟨s, -, -, rfl, hv⟩ := hentry
    have hkey : (Node.scalar {} true s.toList).resolve known =
        .ok (.scalar {} true s.toList, known) := rfl
    rw [Node.resolveEntries, hkey, ok_bind]
    dsimp only
    rw [hv.resolved, ok_bind]
    dsimp only
    rw [ih]
    rfl

theorem mergedEntries_eq (h : List.Forall₂ StandsEntry nodes entries) :
    Node.mergedEntries nodes = nodes := by
  induction h with
  | nil => rfl
  | @cons node _ _ _ hentry _ ih =>
    obtain ⟨key, value⟩ := node
    obtain ⟨s, -, -, rfl, hv⟩ := hentry
    rw [Node.mergedEntries, hv.unmerged, ih]
    rfl

/-- Where no key asks for a merge nothing is taken over. -/
theorem flatten_eq (h : List.Forall₂ StandsEntry nodes entries) : Node.flatten nodes = nodes := by
  have hnone : ∀ node ∈ nodes, node.1.isMergeMark = false := by
    induction h with
    | nil => simp
    | @cons node _ _ _ hentry _ ih =>
      obtain ⟨s, hs, -, hkey, -⟩ := hentry
      refine List.forall_mem_cons.2 ⟨?_, ih⟩
      simp [hkey, Node.isMergeMark, plainKind_key hs]
  have hmerges : (nodes.filter fun node => node.1.isMergeMark) = [] :=
    List.filter_eq_nil_iff.2 fun node hnode => by simp [hnone node hnode]
  have hown : (nodes.filter fun node => !node.1.isMergeMark) = nodes :=
    List.filter_eq_self.2 fun node hnode => by simp [hnone node hnode]
  simp only [Node.flatten, hmerges, hown]
  rfl

theorem entryPlans_cons (key value : Node) (rest : List (Node × Node)) :
    Node.entryPlans ((key, value) :: rest) =
      (key.plan true, value.plan false) :: Node.entryPlans rest :=
  rfl

theorem entryFaults_eq (h : List.Forall₂ StandsEntry nodes entries) (level : Nat) :
    Plan.entryFaults true level (Node.entryPlans nodes) = [] := by
  induction h with
  | nil => rfl
  | @cons node _ _ _ hentry _ ih =>
    obtain ⟨key, value⟩ := node
    obtain ⟨s, hs, -, rfl, hv⟩ := hentry
    rw [entryPlans_cons, Plan.entryFaults, stands_key hs, hv.faultless, ih]
    rfl

theorem entryValues_eq (h : List.Forall₂ StandsEntry nodes entries) :
    Plan.entryValues (Node.entryPlans nodes) = entries := by
  induction h with
  | nil => rfl
  | @cons node entry _ _ hentry _ ih =>
    obtain ⟨key, value⟩ := node
    obtain ⟨name, v⟩ := entry
    obtain ⟨s, hs, rfl, rfl, hv⟩ := hentry
    rw [entryPlans_cons, Plan.entryValues, stands_key hs, hv.value, ih]
    rfl

theorem stands_table (hkeyed : Keyed entries) (h : List.Forall₂ StandsEntry nodes entries) :
    Stands (.table {} nodes) (.table entries) := by
  have hplan : (Node.table {} nodes).plan false = .table (Node.entryPlans nodes) := rfl
  refine ⟨fun known => ?_, ?_, fun level => ?_, ?_⟩
  · rw [Node.resolve, resolveEntries_eq h]
    rfl
  · rw [Node.merged, mergedEntries_eq h, flatten_eq h]
  · rw [hplan, Plan.faults, entryFaults_eq h]
  · rw [hplan, Plan.value, entryValues_eq h, Table.ofList_eq_self hkeyed.worded]

end Tables

/-- A tree that stands for a value is turned into it. -/
theorem Stands.carryOut {node : Node} {v : Value} (h : Stands node v) :
    (node.plan false).carryOut = .ok v := by
  rw [Plan.carryOut, h.faultless, h.value]
  rfl

end ModelData.Yaml
