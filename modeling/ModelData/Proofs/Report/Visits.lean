import Mathlib.Data.List.Basic
import ModelData.Proofs.Report.Walk

/-!
The places in a document. The walk visits every node with its path, before anything that lies in
the node, and what it finds is what is wrong with the nodes that it visits.
-/

namespace ModelData.Report

variable {path : List Char} {e : Element}

theorem mem_children_of_mem_places {p : List Char × Element} (h : p ∈ places path e) :
    p.2 ∈ e.children :=
  map_places path e ▸ List.mem_map_of_mem h

/-- A node and all that lies in it, with the paths. -/
def visits (path : List Char) (e : Element) : List (List Char × Element) :=
  (path, e) :: (places path e).attach.flatMap fun p => visits p.1.1 p.1.2
termination_by sizeOf e
decreasing_by exact Element.sizeOf_lt_of_mem_children (mem_children_of_mem_places p.2)

theorem visits_eq (path : List Char) (e : Element) :
    visits path e = (path, e) :: (places path e).flatMap fun p => visits p.1 p.2 := by
  rw [visits, List.flatMap_subtype (g := fun p => visits p.1 p.2) fun _ _ => rfl,
    List.unattach_attach]

theorem visits_leaf (path : List Char) (h : e.children = []) : visits path e = [(path, e)] := by
  have hplaces : places path e = [] := by
    rw [← List.map_eq_nil_iff, map_places, h]
  rw [visits_eq, hplaces, List.flatMap_nil]

theorem mem_visits_self (path : List Char) (e : Element) : (path, e) ∈ visits path e :=
  visits_eq path e ▸ List.mem_cons_self

theorem mem_visits_of_mem_places {p q : List Char × Element} (hp : p ∈ places path e)
    (hq : q ∈ visits p.1 p.2) : q ∈ visits path e := by
  rw [visits_eq]
  exact List.mem_cons_of_mem _ (List.mem_flatMap.2 ⟨p, hp, hq⟩)

/-- No node is left out, and none is visited twice. -/
theorem map_visits (path : List Char) (e : Element) : (visits path e).map (·.2) = e.nodes := by
  induction e using Element.childInduction generalizing path with
  | step e ih =>
    rw [visits_eq, Element.nodes_eq, List.map_cons, List.map_flatMap, ← map_places path e,
      List.flatMap_map]
    congr 1
    exact List.flatMap_congr fun p hp => ih p.2 (mem_children_of_mem_places hp) p.1

theorem findings_eq_visits (path : List Char) (e : Element) :
    findings path e = (visits path e).flatMap fun p => ownFindings p.1 p.2 := by
  induction e using Element.childInduction generalizing path with
  | step e ih =>
    rw [findings_eq, visits_eq, List.flatMap_cons, List.flatMap_assoc]
    congr 1
    exact List.flatMap_congr fun p hp => ih p.2 (mem_children_of_mem_places hp) p.1

/-- All nodes of a document with their paths, in the order of the walk. -/
def visited (d : Document) : List (List Char × Element) :=
  d.elements.flatMap fun n => visits n.name.chars n.element

theorem documentFindings_eq (d : Document) :
    documentFindings d = (visited d).flatMap fun p => ownFindings p.1 p.2 := by
  rw [documentFindings, visited, List.flatMap_assoc]
  exact List.flatMap_congr fun n _ => findings_eq_visits n.name.chars n.element

/-- What holds everywhere in the elements holds of every node that is visited. -/
theorem of_mem_visited {d : Document} {p : Element → Prop}
    (h : ∀ n ∈ d.elements, n.element.Everywhere p) {q : List Char × Element}
    (hq : q ∈ visited d) : p q.2 := by
  obtain ⟨n, hn, hq⟩ := List.mem_flatMap.1 hq
  have hnodes : q.2 ∈ n.element.nodes := map_visits n.name.chars n.element ▸ List.mem_map_of_mem hq
  exact (h n hn).of_mem_nodes hnodes

end ModelData.Report
