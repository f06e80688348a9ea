import ModelData.Proofs.Record.Rearranging
import ModelData.Proofs.Value.Settled

/-!
Records with their tables in order. Putting tables in order rearranges them, so a record in order
is read as the element or the document with its names in order. These can be put in order before
the record is made or with it, which comes to the same.
-/

namespace ModelData

theorem rearranges_settled : Value.Rearranges Value.settled where
  hashable := Value.settled_of_hashable
  list := Value.settled_list
  table entries :=
    ⟨_, Value.settled_table entries, (Table.ordered_perm true entries).map _⟩

/-- A value in which everything stays in order that was put in order. -/
def Value.Settles (v : Value) : Prop :=
  v.settled.settled = v.settled

section Elements

/-- The names in an element stay in order once they are. -/
def Element.NamesSettle (e : Element) : Prop :=
  ∀ name ∈ e.keys, name.Settles

theorem settled_pair_congr {a b : String} {v v' w w' : Value} (hv : v.settled = v'.settled)
    (hw : w.settled = w'.settled) :
    (Value.table [(.text a, v), (.text b, w)]).settled =
      (Value.table [(.text a, v'), (.text b, w')]).settled := by
  simp only [Value.settled, Value.entriesSettled, hv, hw]

theorem settled_list_congr {items items' : List Value}
    (h : items.map Value.settled = items'.map Value.settled) :
    (Value.list items).settled = (Value.list items').settled := by
  rw [Value.settled_list, Value.settled_list, h]

theorem settled_named {n : Named} (hname : n.name.Settles)
    (helement : (n.element.rearranged Value.settled).record.settled = n.element.record.settled) :
    (n.rearranged Value.settled).record.settled = n.record.settled := by
  obtain ⟨name, e⟩ := n
  exact settled_pair_congr hname helement

/-- It makes no difference to a record in order whether the names were in order before. -/
theorem settled_record {e : Element} (h : e.Everywhere Element.NamesSettle) :
    (e.rearranged Value.settled).record.settled = e.record.settled := by
  induction h with
  | @intro e here _ ih =>
    cases e with
    | tuple items =>
      rw [Element.rearranged, Element.allRearranged_eq_map, Element.record, Element.record,
        Element.records_eq_map, Element.records_eq_map]
      refine settled_pair_congr rfl (settled_list_congr ?_)
      rw [List.map_map, List.map_map, List.map_map]
      exact List.map_congr_left ih
    | array entries =>
      rw [Element.rearranged, Binding.allRearranged_eq_map, Element.record, Element.record,
        Binding.records_eq_map, Binding.records_eq_map]
      refine settled_pair_congr rfl (settled_list_congr ?_)
      rw [List.map_map, List.map_map, List.map_map]
      exact List.map_congr_left fun n hn => settled_named (here n.name (List.mem_map_of_mem hn))
        (ih n.element (Element.mem_children_of_entry hn))
    | _ => rfl

end Elements

namespace Document

/-- The document with the tables among its names, its lines and its flag in order. -/
def settled (d : Document) : Document :=
  d.rearranged Value.settled

theorem settled_record {d : Document} (hnames : ∀ n ∈ d.elements, n.name.Settles)
    (helements : ∀ n ∈ d.elements, n.element.Everywhere Element.NamesSettle)
    (hlines : ∀ line ∈ d.headerLines, line.Settles) (hpretty : d.pretty.Settles) :
    d.settled.record.settled = d.record.settled := by
  have hrecords : (Value.list (Binding.records d.settled.elements)).settled =
      (Value.list (Binding.records d.elements)).settled := by
    rw [Binding.records_eq_map, Binding.records_eq_map]
    refine settled_list_congr ?_
    rw [settled, rearranged, List.map_map, List.map_map, List.map_map]
    exact List.map_congr_left fun n hn =>
      settled_named (hnames n hn) (ModelData.settled_record (helements n hn))
  have hheader : (Value.list d.settled.headerLines).settled =
      (Value.list d.headerLines).settled := by
    refine settled_list_congr ?_
    rw [settled, rearranged, List.map_map]
    exact List.map_congr_left hlines
  have hflag : d.settled.pretty.settled = d.pretty.settled := hpretty
  have hconfig : d.settled.config = d.config := rfl
  rw [record, record, Value.settled, Value.settled]
  simp only [Value.entriesSettled, hrecords, hheader, hflag, hconfig]

end Document

end ModelData
