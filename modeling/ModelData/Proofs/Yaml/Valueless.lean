import ModelData.Proofs.Yaml.Codes
import ModelData.Proofs.Yaml.Nodes

/-!
Scalars without a value. A spelling may be that of a number, a day or a moment and stand for none,
and a tag may ask for a kind of value that a text does not spell. Of what a tree of nodes stands
for, that is all that can be wrong other than that the tree is malformed; and of several faults the
first of those nearest to the root counts.
-/

namespace ModelData.Yaml

/-- Whether the spelling of a scalar decides what it stands for. -/
def isSpelled (tag : Option Tag) (isPlain : Bool) : Bool :=
  match tag with
  | none => isPlain
  | some tag => tag = .bySpelling

/-- A scalar whose spelling or tag asks for a value that its text does not stand for. -/
inductive Valueless (tag : Option Tag) (isPlain : Bool) (text : List Char) (m : Misfit) : Prop where
  | int (spelled : isSpelled tag isPlain = true) (kind : plainKind text = .int)
      (fails : intValue text = .error m)
  | float (spelled : isSpelled tag isPlain = true) (kind : plainKind text = .float)
      (fails : floatValue text = .error m)
  | stamp (spelled : isSpelled tag isPlain = true)
      (kind : plainKind text = .date ∨ plainKind text = .moment)
      (fails : Yaml.taggedStamp text = .error m)
  | taggedFlag (asked : tag = some (.core "bool")) (fails : Yaml.taggedFlag text = .error m)
  | taggedInteger (asked : tag = some (.core "int")) (fails : Yaml.taggedInteger text = .error m)
  | taggedFloat (asked : tag = some (.core "float")) (fails : Yaml.taggedFloat text = .error m)
  | taggedStamp (asked : tag = some (.core "timestamp")) (fails : Yaml.taggedStamp text = .error m)

section Scalars

variable {isKey isPlain : Bool} {tag : Option Tag} {text : List Char} {m : Misfit}

theorem misfit_of_mapError {α : Type} {r : Except Misfit α}
    (h : r.mapError Fault.misfit = .error (.misfit m)) : r = .error m := by
  obtain ⟨m', hm', hmisfit⟩ := mapError_eq_error_iff.1 h
  exact Fault.misfit.inj hmisfit ▸ hm'

theorem misfit_of_map {α : Type} {r : Except Misfit α} {value : α → Value}
    (h : (r.map value).mapError Fault.misfit = .error (.misfit m)) : r = .error m :=
  map_eq_error_iff.1 (misfit_of_mapError h)

theorem valueless_of_spelledValue (spelled : isSpelled tag isPlain = true)
    (h : spelledValue isKey text = .error (.misfit m)) : Valueless tag isPlain text m := by
  unfold spelledValue at h
  split at h
  · cases h
  · cases h
  · next kind => exact .int spelled kind (misfit_of_map h)
  · next kind => exact .float spelled kind (misfit_of_map h)
  · next kind => exact .stamp spelled (.inl kind) (misfit_of_mapError h)
  · next kind => exact .stamp spelled (.inr kind) (misfit_of_mapError h)
  · cases h
  · split_ifs at h
    cases h
  · cases h

theorem valueless_of_taggedValue {name : String}
    (h : taggedValue isKey name text = .error (.misfit m)) :
    Valueless (some (.core name)) isPlain text m := by
  unfold taggedValue at h
  split at h
  · cases h
  · cases h
  · exact .taggedFlag rfl (misfit_of_map h)
  · exact .taggedInteger rfl (misfit_of_map h)
  · exact .taggedFloat rfl (misfit_of_map h)
  · exact .taggedStamp rfl (misfit_of_mapError h)
  · split at h <;> cases h
  · split_ifs at h
    cases h
  · cases h

theorem valueless_of_scalarValue (h : scalarValue isKey tag isPlain text = .error (.misfit m)) :
    Valueless tag isPlain text m := by
  unfold scalarValue at h
  split at h
  · split_ifs at h with hplain
    · exact valueless_of_spelledValue hplain h
  · exact valueless_of_spelledValue (by simp [isSpelled]) h
  · exact valueless_of_taggedValue h
  · cases h

end Scalars

namespace Node

/-- A tree in which a scalar has no value. A table with the tag of a scalar is one in the place of
its chief value. -/
inductive Lacks (m : Misfit) : Node → Prop where
  | scalar {marks : Marks} {isPlain : Bool} {text : List Char}
      (fails : Valueless marks.tag isPlain text m) : Lacks m (.scalar marks isPlain text)
  | chief {marks : Marks} {entries : List (Node × Node)} {text : List Char}
      (chief : chiefTextAmong? entries = some text) (fails : Valueless marks.tag true text m) :
      Lacks m (.table marks entries)
  | item {marks : Marks} {items : List Node} {n : Node} (mem : n ∈ items) (lacks : Lacks m n) :
      Lacks m (.list marks items)
  | key {marks : Marks} {entries : List (Node × Node)} {e : Node × Node} (mem : e ∈ entries)
      (lacks : Lacks m e.1) : Lacks m (.table marks entries)
  | value {marks : Marks} {entries : List (Node × Node)} {e : Node × Node} (mem : e ∈ entries)
      (lacks : Lacks m e.2) : Lacks m (.table marks entries)

section Faults

variable {m : Misfit} {level fault : Nat} {isKey areKeys : Bool}

theorem eq_of_mem_faults {r : Except Fault Value}
    (h : (fault, .misfit m) ∈ (Plan.leaf r).faults level) : r = .error (.misfit m) := by
  cases r with
  | ok v => simp [Plan.faults] at h
  | error f =>
    rw [Plan.faults, List.mem_singleton, Prod.mk.injEq] at h
    rw [h.2]

theorem lacks_of_scalarPlan {marks : Marks} {isPlain : Bool} {text : List Char}
    (h : (fault, .misfit m) ∈ (scalarPlan isKey marks.tag isPlain text).faults level) :
    Lacks m (.scalar marks isPlain text) := by
  unfold scalarPlan at h
  split at h
  · next name htag =>
    split_ifs at h with hkind
    · simp [Plan.faults] at h
    · exact .scalar (htag ▸ valueless_of_taggedValue (eq_of_mem_faults h))
  · exact .scalar (valueless_of_scalarValue (eq_of_mem_faults h))

theorem mem_entryFaults {key value : Plan} {rest : List (Plan × Plan)}
    (h : (fault, .misfit m) ∈ Plan.entryFaults areKeys level ((key, value) :: rest)) :
    (fault, .misfit m) ∈ key.faults level ∨ (fault, .misfit m) ∈ value.faults level ∨
      (fault, .misfit m) ∈ Plan.entryFaults areKeys level rest := by
  have hcollection : (fault, Fault.misfit m) ∉
      if areKeys && key.isCollection then [(level, Fault.malformed)] else [] := by
    split_ifs <;> simp
  simpa [Plan.entryFaults, hcollection] using h

end Faults

mutual

/-- What is wrong with a plan is what is wrong with a scalar in the tree. -/
theorem lacks_of_plan {m : Misfit} {fault : Nat} (isKey : Bool) (level : Nat) :
    ∀ n : Node, (fault, .misfit m) ∈ (plan isKey n).faults level → Lacks m n
  | .scalar marks isPlain text, h => by
    rw [plan] at h
    exact lacks_of_scalarPlan h
  | .list marks items, h => by
    rw [plan] at h
    split at h
    · obtain ⟨n, hn, hlacks⟩ := lacks_of_itemPlans (level + 1) items h
      exact .item hn hlacks
    · obtain ⟨n, hn, hlacks⟩ := lacks_of_pairPlans (level + 1) items h
      exact .item hn hlacks
    · simp [Plan.faults] at h
    · simp [Plan.malformed, Plan.faults] at h
  | .table marks entries, h => by
    rw [plan] at h
    have hentries (areKeys : Bool)
        (h : (fault, .misfit m) ∈ Plan.entryFaults areKeys (level + 1) (entryPlans entries)) :
        Lacks m (.table marks entries) := by
      obtain ⟨e, he, hkey | hvalue⟩ := lacks_of_entryPlans areKeys (level + 1) entries h
      · exact .key he hkey
      · exact .value he hvalue
    split at h
    · exact hentries true h
    · exact hentries true h
    · simp [Plan.faults] at h
    · unfold chiefPlan at h
      split at h
      · next text hchief =>
        exact .chief hchief (valueless_of_scalarValue (eq_of_mem_faults h))
      · simp [Plan.malformed, Plan.faults] at h
  | .alias _, h => by simp [plan, Plan.malformed, Plan.faults] at h

theorem lacks_of_itemPlans {m : Misfit} {fault : Nat} (level : Nat) :
    ∀ items : List Node, (fault, .misfit m) ∈ Plan.itemFaults level (itemPlans items) →
      ∃ n ∈ items, Lacks m n
  | [], h => by simp [itemPlans, Plan.itemFaults] at h
  | n :: rest, h => by
    rw [itemPlans_cons, Plan.itemFaults, List.mem_append] at h
    rcases h with h | h
    · exact ⟨n, List.mem_cons_self, lacks_of_plan false level n h⟩
    · obtain ⟨n', hn', hlacks⟩ := lacks_of_itemPlans level rest h
      exact ⟨n', List.mem_cons_of_mem n hn', hlacks⟩

theorem lacks_of_entryPlans {m : Misfit} {fault : Nat} (areKeys : Bool) (level : Nat) :
    ∀ entries : List (Node × Node),
      (fault, .misfit m) ∈ Plan.entryFaults areKeys level (entryPlans entries) →
        ∃ e ∈ entries, Lacks m e.1 ∨ Lacks m e.2
  | [], h => by simp [entryPlans, Plan.entryFaults] at h
  | (key, value) :: rest, h => by
    rw [entryPlans_cons] at h
    rcases mem_entryFaults h with h | h | h
    · exact ⟨(key, value), List.mem_cons_self, .inl (lacks_of_plan true level key h)⟩
    · exact ⟨(key, value), List.mem_cons_self, .inr (lacks_of_plan false level value h)⟩
    · obtain ⟨e, he, hlacks⟩ := lacks_of_entryPlans areKeys level rest h
      exact ⟨e, List.mem_cons_of_mem _ he, hlacks⟩

theorem lacks_of_pairPlans {m : Misfit} {fault : Nat} (level : Nat) :
    ∀ items : List Node, (fault, .misfit m) ∈ Plan.entryFaults false level (pairPlans items) →
      ∃ n ∈ items, Lacks m n
  | [], h => by simp [pairPlans, Plan.entryFaults] at h
  | .table marks [(key, value)] :: rest, h => by
    rw [pairPlans] at h
    rcases mem_entryFaults h with h | h | h
    · exact ⟨_, List.mem_cons_self, .key List.mem_cons_self (lacks_of_plan false level key h)⟩
    · exact ⟨_, List.mem_cons_self, .value List.mem_cons_self (lacks_of_plan false level value h)⟩
    · obtain ⟨n, hn, hlacks⟩ := lacks_of_pairPlans level rest h
      exact ⟨n, List.mem_cons_of_mem _ hn, hlacks⟩
  | .table _ [] :: _, h | .table _ (_ :: _ :: _) :: _, h | .scalar .. :: _, h | .list .. :: _, h
  | .alias _ :: _, h => by simp [pairPlans, Plan.entryFaults, Plan.malformed, Plan.faults] at h

end

end Node

/-! The fault that counts. -/

namespace Plan

/-- A fault of a plan counts if none is nearer to the root, and none of those before it as near. -/
def Counts (p : Plan) (f : Fault) : Prop :=
  ∃ level before after, p.faults 0 = before ++ (level, f) :: after ∧
    (∀ g ∈ before, level < g.1) ∧ ∀ g ∈ after, level ≤ g.1

theorem Counts.mem {p : Plan} {f : Fault} (h : p.Counts f) : ∃ level, (level, f) ∈ p.faults 0 := by
  obtain ⟨level, before, after, hfaults, -, -⟩ := h
  exact ⟨level, hfaults ▸ List.mem_append_right before List.mem_cons_self⟩

theorem nearest_eq_none_iff {faults : List (Nat × Fault)} :
    nearest faults = none ↔ faults = [] := by
  cases faults with
  | nil => simp [nearest]
  | cons f rest =>
    rw [nearest]
    split
    · simp
    · split_ifs <;> simp

theorem nearest_eq_some_iff {faults : List (Nat × Fault)} {g : Nat × Fault} :
    nearest faults = some g ↔ ∃ before after, faults = before ++ g :: after ∧
      (∀ h ∈ before, g.1 < h.1) ∧ ∀ h ∈ after, g.1 ≤ h.1 := by
  induction faults generalizing g with
  | nil => simp [nearest]
  | cons f rest ih =>
    constructor
    · intro h
      rw [nearest] at h
      cases hrest : nearest rest with
      | none =>
        obtain rfl := nearest_eq_none_iff.1 hrest
        obtain rfl : f = g := by simpa [hrest] using h
        exact ⟨[], [], rfl, by simp, by simp⟩
      | some g' =>
        obtain ⟨before, after, rfl, hbefore, hafter⟩ := ih.1 hrest
        simp only [hrest] at h
        split_ifs at h with hlt
        · obtain rfl := Option.some.inj h
          exact ⟨f :: before, after, rfl, List.forall_mem_cons.2 ⟨hlt, hbefore⟩, hafter⟩
        · obtain rfl := Option.some.inj h
          have hle : f.1 ≤ g'.1 := Nat.not_lt.1 hlt
          have hall : ∀ h ∈ before ++ g' :: after, f.1 ≤ h.1 := by
            refine List.forall_mem_append.2 ⟨?_, List.forall_mem_cons.2 ⟨hle, ?_⟩⟩
            · exact fun h hh => Nat.le_trans hle (Nat.le_of_lt (hbefore h hh))
            · exact fun h hh => Nat.le_trans hle (hafter h hh)
          exact ⟨[], _, rfl, by simp, hall⟩
    · rintro ⟨before, after, hfaults, hbefore, hafter⟩
      rw [nearest]
      cases before with
      | nil =>
        obtain ⟨rfl, rfl⟩ := List.cons.inj hfaults
        cases hrest : nearest rest with
        | none => rfl
        | some g' =>
          obtain ⟨_, _, hsplit, -⟩ := ih.1 hrest
          have hle := hafter g' (by simp [hsplit])
          exact if_neg (Nat.not_lt.2 hle)
      | cons f' before =>
        obtain ⟨rfl, rfl⟩ := List.cons.inj hfaults
        obtain ⟨hlt, hbefore⟩ := List.forall_mem_cons.1 hbefore
        rw [ih.2 ⟨before, after, rfl, hbefore, hafter⟩]
        exact if_pos hlt

theorem carryOut_eq_error_iff {p : Plan} {f : Fault} : p.carryOut = .error f ↔ p.Counts f := by
  have hcounts : p.Counts f ↔ ∃ level, nearest (p.faults 0) = some (level, f) :=
    exists_congr fun _ => nearest_eq_some_iff.symm
  rw [hcounts, carryOut]
  cases nearest (p.faults 0) with
  | none => simp
  | some g => simp [Prod.ext_iff, eq_comm]

end Plan

/-! Trees. -/

theorem add_noMisfit (known : Anchors) (marks : Marks) (n : Node) :
    NoMisfit (known.add marks n) := by
  rw [Anchors.add]
  split
  · exact .ok _
  · split_ifs
    · exact .malformed
    · exact .ok _

namespace Node

mutual

theorem resolve_noMisfit (known : Anchors) : ∀ n : Node, NoMisfit (resolve known n)
  | .alias name => by
    rw [resolve]
    split
    · exact .ok _
    · exact .malformed
  | .scalar marks isPlain text => add_noMisfit known marks _
  | .list marks items =>
    (resolveItems_noMisfit known items).bind fun _ => add_noMisfit _ marks _
  | .table marks entries =>
    (resolveEntries_noMisfit known entries).bind fun _ => add_noMisfit _ marks _

theorem resolveItems_noMisfit (known : Anchors) :
    ∀ items : List Node, NoMisfit (resolveItems known items)
  | [] => .ok _
  | n :: rest =>
    (resolve_noMisfit known n).bind fun _ => (resolveItems_noMisfit _ rest).bind fun _ => .ok _

theorem resolveEntries_noMisfit (known : Anchors) :
    ∀ entries : List (Node × Node), NoMisfit (resolveEntries known entries)
  | [] => .ok _
  | (key, value) :: rest =>
    (resolve_noMisfit known key).bind fun _ => (resolve_noMisfit _ value).bind fun _ =>
      (resolveEntries_noMisfit _ rest).bind fun _ => .ok _

end

end Node

/-- The tree of a text, in which aliases and merges have been made. -/
def tree (text : List Char) : Except Fault Node :=
  if text.all isReadable then do
    let node ← readDocument (uniformBreaks (withoutOrderMark text))
    let (node, _) ← node.resolve []
    return node.merged
  else .error .malformed

theorem read_eq (text : List Char) :
    read text = tree text >>= fun node => (node.plan false).carryOut := by
  rw [read, tree]
  split_ifs
  · simp only [bind_assoc, pure_bind]
  · rfl

theorem largeCode_of_tree {text : List Char} {m : Misfit} (h : tree text = .error (.misfit m)) :
    LargeCode text m := by
  rw [tree] at h
  split_ifs at h
  · rcases bind_eq_error_iff.1 h with hread | ⟨node, -, hrest⟩
    · exact (largeCode_of_readDocument hread).of_uniformBreaks
    · have hresolve := (Node.resolve_noMisfit [] node).bind fun a => NoMisfit.ok a.1.merged
      cases (hrest ▸ hresolve : NoMisfit (.error (.misfit m) : Except Fault Node))
  · cases h

end ModelData.Yaml
