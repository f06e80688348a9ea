import ModelData.Report
import ModelData.Proofs.Element.Tree

/-!
The extent of a tree. Its depth is the height of the tree and its node count the size, both of
which are told by going through all children, bare literals among them.
-/

namespace ModelData.Report

mutual

/-- The height of a tree; bare literals in a set are leaves. -/
def height : Element → Nat
  | .set members => memberHeights members + 1
  | .tuple items => itemHeights items + 1
  | .array entries => entryHeights entries + 1
  | _ => 1

def memberHeights : List Member → Nat
  | [] => 0
  | .element e :: rest => max (height e) (memberHeights rest)
  | _ :: rest => max 1 (memberHeights rest)

def itemHeights : List Element → Nat
  | [] => 0
  | e :: rest => max (height e) (itemHeights rest)

def entryHeights : List (Binding Value Element) → Nat
  | [] => 0
  | ⟨_, e⟩ :: rest => max (height e) (entryHeights rest)

end

mutual

/-- The number of elements and bare literals in a tree. -/
def nodes : Element → Nat
  | .set members => memberNodes members + 1
  | .tuple items => itemNodes items + 1
  | .array entries => entryNodes entries + 1
  | _ => 1

def memberNodes : List Member → Nat
  | [] => 0
  | .element e :: rest => nodes e + memberNodes rest
  | _ :: rest => memberNodes rest + 1

def itemNodes : List Element → Nat
  | [] => 0
  | e :: rest => nodes e + itemNodes rest

def entryNodes : List (Binding Value Element) → Nat
  | [] => 0
  | ⟨_, e⟩ :: rest => nodes e + entryNodes rest

end

namespace Extent

theorem beside_assoc (x y z : Extent) : (x.beside y).beside z = x.beside (y.beside z) := by
  simp only [beside, Nat.max_assoc, Nat.add_assoc]

theorem empty_beside (x : Extent) : ({} : Extent).beside x = x := by
  simp [beside]

end Extent

section Children

/-- The bare literals among members. -/
def literalsAmong (members : List Member) : Nat :=
  members.countP fun m => m.element?.isNone

theorem literalsAmong_cons {m : Member} {rest : List Member} (h : m.element? = none) :
    literalsAmong (m :: rest) = literalsAmong rest + 1 := by
  rw [literalsAmong, List.countP_cons, h]
  rfl

theorem length_sub_elementsAmong (members : List Member) :
    members.length - elementsAmong members = literalsAmong members := by
  induction members with
  | nil => rfl
  | cons m rest ih =>
    have hle : elementsAmong rest ≤ rest.length := List.countP_le_length
    cases m <;>
      simp only [elementsAmong, literalsAmong, Member.element?, List.length_cons, List.countP_cons,
        Option.isNone_none, Option.isNone_some, Bool.false_eq_true, if_true, if_false] at ih hle ⊢
    all_goals omega

theorem memberExtents_eq (before : Extent) (members : List Member) :
    memberExtents before members = itemExtents before (members.filterMap Member.element?) := by
  induction members generalizing before with
  | nil => rfl
  | cons m rest ih => cases m <;> exact ih _

theorem entryExtents_eq (before : Extent) (entries : List Named) :
    entryExtents before entries = itemExtents before (entries.map (·.element)) := by
  induction entries generalizing before with
  | nil => rfl
  | cons n rest ih => exact ih _

/-- Literals add one level to no elements, and none to some. -/
theorem memberHeights_eq (members : List Member) :
    memberHeights members =
      max (itemHeights (members.filterMap Member.element?))
        (if 0 < literalsAmong members then 1 else 0) := by
  induction members with
  | nil => rfl
  | cons m rest ih =>
    cases m with
    | element e =>
      have helements : (Member.element e :: rest).filterMap Member.element? =
        e :: rest.filterMap Member.element? := rfl
      rw [memberHeights, ih, helements, itemHeights, Nat.max_assoc]
      rfl
    | scalar | float =>
      rw [List.filterMap_cons_none rfl, literalsAmong_cons rfl, if_pos (Nat.succ_pos _)]
      simp only [memberHeights, ih]
      split <;> omega

theorem memberNodes_eq (members : List Member) :
    memberNodes members =
      itemNodes (members.filterMap Member.element?) + literalsAmong members := by
  induction members with
  | nil => rfl
  | cons m rest ih =>
    cases m with
    | element e =>
      have helements : (Member.element e :: rest).filterMap Member.element? =
        e :: rest.filterMap Member.element? := rfl
      rw [memberNodes, ih, helements, itemNodes, Nat.add_assoc]
      rfl
    | scalar | float =>
      rw [List.filterMap_cons_none rfl, literalsAmong_cons rfl]
      simp only [memberNodes, ih, Nat.add_assoc]

theorem entryHeights_eq (entries : List Named) :
    entryHeights entries = itemHeights (entries.map (·.element)) := by
  induction entries with
  | nil => rfl
  | cons n rest ih => rw [entryHeights, ih, List.map_cons, itemHeights]

theorem entryNodes_eq (entries : List Named) :
    entryNodes entries = itemNodes (entries.map (·.element)) := by
  induction entries with
  | nil => rfl
  | cons n rest ih => rw [entryNodes, ih, List.map_cons, itemNodes]

end Children

section Extents

/-- What is gathered from elements one by one, if it is right for each of them. -/
theorem itemExtents_eq {items : List Element} (h : ∀ e ∈ items, extent e = ⟨height e, nodes e⟩)
    (before : Extent) :
    itemExtents before items = before.beside ⟨itemHeights items, itemNodes items⟩ := by
  induction items generalizing before with
  | nil => simp [itemExtents, itemHeights, itemNodes, Extent.beside]
  | cons e rest ih =>
    rw [itemExtents, ih (fun d hd => h d (List.mem_cons_of_mem e hd)), h e List.mem_cons_self,
      Extent.beside_assoc]
    rfl

/-- The extent of a tree is its height and its size. -/
theorem extent_eq (e : Element) : extent e = ⟨height e, nodes e⟩ := by
  induction e using Element.childInduction with
  | step e ih =>
    have hchildren := itemExtents_eq ih {}
    rw [Extent.empty_beside] at hchildren
    cases e with
    | scalar | float | custom => rfl
    | set members =>
      rw [Element.children] at hchildren
      rw [extent, memberExtents_eq, length_sub_elementsAmong, hchildren, height, nodes,
        memberHeights_eq, memberNodes_eq, Extent.withLeaves, Extent.rooted]
      split <;> simp [Nat.add_comm]
    | tuple items =>
      rw [Element.children] at hchildren
      rw [extent, hchildren, height, nodes, Extent.rooted, Nat.add_comm 1, Nat.add_comm 1]
    | array entries =>
      rw [Element.children] at hchildren
      rw [extent, entryExtents_eq, hchildren, height, nodes, entryHeights_eq, entryNodes_eq,
        Extent.rooted, Nat.add_comm 1, Nat.add_comm 1]

theorem entryExtents_empty (entries : List Named) :
    entryExtents {} entries = ⟨entryHeights entries, entryNodes entries⟩ := by
  rw [entryExtents_eq, itemExtents_eq fun e _ => extent_eq e, Extent.empty_beside, entryHeights_eq,
    entryNodes_eq]

end Extents

end ModelData.Report
