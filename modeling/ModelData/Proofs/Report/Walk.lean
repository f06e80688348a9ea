import ModelData.Report
import ModelData.Proofs.Element.Tree

/-!
The walk through an element that finds what is wrong with its arrays. At each node it says what
is wrong there and then goes to the children, each with its own path, from left to right.
-/

namespace ModelData.Report

/-- The children of an element with their paths. -/
def places (path : List Char) : Element → List (List Char × Element)
  | .set members =>
    members.zipIdx.filterMap fun (m, i) => m.element?.map (path ++ setStep i, ·)
  | .tuple items => items.zipIdx.map fun (e, i) => (path ++ tupleStep i, e)
  | .array entries => entries.map fun n => (path ++ keyStep n.name, n.element)
  | _ => []

/-- What is wrong with a node itself. -/
def ownFindings (path : List Char) : Element → List Finding
  | .array entries => arrayFindings path entries
  | _ => []

/-- What is wrong with the kinds of an array says nothing about its keys. -/
theorem filterMap_kinds {β : Type} {part? : Finding → Option β} {path : List Char}
    (hmixed : part? (.mixedKinds path) = none) (hunequal : part? (.unequalTuples path) = none)
    (mixed unequal : Bool) :
    (if mixed then [Finding.mixedKinds path] else if unequal then [.unequalTuples path]
      else []).filterMap part? = [] := by
  cases mixed <;> cases unequal <;> simp [hmixed, hunequal]

section Findings

variable (path : List Char)

theorem memberFindings_eq (position : Nat) (members : List Member) :
    memberFindings path position members =
      ((members.zipIdx position).filterMap fun (m, i) =>
        m.element?.map (path ++ setStep i, ·)).flatMap fun p => findings p.1 p.2 := by
  induction members generalizing position with
  | nil => rfl
  | cons m rest ih =>
    cases m with
    | scalar | float => simpa [memberFindings, Member.element?] using ih (position + 1)
    | element e => simpa [memberFindings, Member.element?] using ih (position + 1)

theorem itemFindings_eq (position : Nat) (items : List Element) :
    itemFindings path position items =
      ((items.zipIdx position).map fun (e, i) => (path ++ tupleStep i, e)).flatMap
        fun p => findings p.1 p.2 := by
  induction items generalizing position with
  | nil => rfl
  | cons e rest ih => simpa [itemFindings] using ih (position + 1)

theorem entryFindings_eq (entries : List Named) :
    entryFindings path entries =
      (entries.map fun n => (path ++ keyStep n.name, n.element)).flatMap
        fun p => findings p.1 p.2 := by
  induction entries with
  | nil => rfl
  | cons n rest ih =>
    obtain ⟨name, e⟩ := n
    simpa [entryFindings] using ih

/-- A node comes before its children, and these come in order. -/
theorem findings_eq (e : Element) :
    findings path e =
      ownFindings path e ++ (places path e).flatMap fun p => findings p.1 p.2 := by
  cases e with
  | scalar | float | custom => rfl
  | set members => exact memberFindings_eq path 0 members
  | tuple items => exact itemFindings_eq path 0 items
  | array entries => rw [findings, entryFindings_eq]; rfl

theorem map_places (e : Element) : (places path e).map (·.2) = e.children := by
  cases e with
  | scalar | float | custom => rfl
  | set members =>
    have hfst (position : Nat) : ((members.zipIdx position).filterMap fun (m, i) =>
        m.element?.map (path ++ setStep i, ·)).map (·.2) = members.filterMap Member.element? := by
      induction members generalizing position with
      | nil => rfl
      | cons m rest ih =>
        cases m <;> simpa [Member.element?, List.filterMap_cons] using ih (position + 1)
    exact hfst 0
  | tuple items =>
    rw [places, List.map_map]
    exact List.zipIdx_map_fst 0 items
  | array entries =>
    rw [places, List.map_map]
    rfl

/-- What is found lies with a node. -/
theorem exists_node_of_mem_findings {p : Element → Prop} {e : Element} (h : e.Everywhere p)
    {path : List Char} {f : Finding} (hf : f ∈ findings path e) :
    ∃ place d, p d ∧ f ∈ ownFindings place d := by
  induction h generalizing path with
  | @intro e here _ ih =>
    rw [findings_eq, List.mem_append, List.mem_flatMap] at hf
    rcases hf with hf | ⟨place, hplace, hf⟩
    · exact ⟨path, e, here, hf⟩
    · apply ih place.2 _ hf
      rw [← map_places path]
      exact List.mem_map_of_mem hplace

end Findings

end ModelData.Report
