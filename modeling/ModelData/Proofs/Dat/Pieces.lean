import ModelData.Dat.Layout
import ModelData.Proofs.Element.Tree

/-!
The text of an element as a list of pieces between two brackets. A piece is a text that is the
same in every layout, and the child that is written behind it, if there is one. All kinds of
elements are written by one rule over their pieces, a literal as a bracket with no pieces.
-/

namespace ModelData.Dat

structure Piece where
  lead : List Char
  element : Option Element

namespace Piece

def text (layout : Layout) (p : Piece) : List Char :=
  p.lead ++ p.element.elim [] (write layout)

def ofMember : Member → Piece
  | .scalar s => ⟨memberLiteral s, none⟩
  | .float x => ⟨floatLiteral x, none⟩
  | .element e => ⟨[], some e⟩

def ofEntry (n : Named) : Piece :=
  ⟨n.name.chars ++ [':', ' '], some n.element⟩

theorem text_ofMember (layout : Layout) (m : Member) :
    (ofMember m).text layout = writeMember layout m := by
  cases m <;> simp [ofMember, text, writeMember]

theorem text_ofEntry (layout : Layout) (n : Named) :
    (ofEntry n).text layout = writeEntry layout n := by
  obtain ⟨name, element⟩ := n
  simp [ofEntry, text, writeEntry]

end Piece

def pieces : Element → List Piece
  | .set members => members.map Piece.ofMember
  | .tuple items => items.map fun e => ⟨[], some e⟩
  | .array entries => entries.map Piece.ofEntry
  | _ => []

def opening : Element → List Char
  | .scalar s => scalarLiteral s
  | .float x => floatLiteral x
  | .set _ => ['\x7b']
  | .tuple _ => ['<']
  | .array _ => ['#', '[']
  | .custom _ _ => []

def closing : Element → List Char
  | .set _ => ['\x7d']
  | .tuple _ => ['>']
  | .array _ => [']', '#']
  | _ => []

theorem writeMembers_eq_map (layout : Layout) (members : List Member) :
    writeMembers layout members = members.map (writeMember layout) := by
  induction members with
  | nil => rfl
  | cons m rest ih => rw [writeMembers, ih, List.map_cons]

theorem writeItems_eq_map (layout : Layout) (items : List Element) :
    writeItems layout items = items.map (write layout) := by
  induction items with
  | nil => rfl
  | cons e rest ih => rw [writeItems, ih, List.map_cons]

theorem writeEntries_eq_map (layout : Layout) (entries : List Named) :
    writeEntries layout entries = entries.map (writeEntry layout) := by
  induction entries with
  | nil => rfl
  | cons n rest ih => rw [writeEntries, ih, List.map_cons]

theorem write_eq_wrap (layout : Layout) (e : Element) :
    write layout e =
      layout.wrap (opening e) (closing e) ((pieces e).map (Piece.text layout.inner)) := by
  cases e with
  | scalar | float | custom => simp [write, pieces, opening, closing, Layout.wrap]
  | set members =>
    have htexts : members.map (writeMember layout.inner)
        = members.map (Piece.text layout.inner ∘ Piece.ofMember) :=
      List.map_congr_left fun m _ => (Piece.text_ofMember layout.inner m).symm
    rw [write, writeMembers_eq_map, pieces, List.map_map, htexts]
    rfl
  | tuple items =>
    rw [write, writeItems_eq_map, pieces, List.map_map]
    rfl
  | array entries =>
    have htexts : entries.map (writeEntry layout.inner)
        = entries.map (Piece.text layout.inner ∘ Piece.ofEntry) :=
      List.map_congr_left fun n _ => (Piece.text_ofEntry layout.inner n).symm
    rw [write, writeEntries_eq_map, pieces, List.map_map, htexts]
    rfl

/-- The children of an element are what its pieces hold. -/
theorem children_eq_pieces (e : Element) :
    e.children = (pieces e).filterMap Piece.element := by
  cases e with
  | scalar | float | custom => rfl
  | set members =>
    have hpiece : Piece.element ∘ Piece.ofMember = Member.element? := by
      funext m
      cases m <;> rfl
    rw [Element.children, pieces, List.filterMap_map, hpiece]
  | tuple items =>
    rw [Element.children, pieces, List.filterMap_map]
    exact List.filterMap_some.symm
  | array entries =>
    rw [Element.children, pieces, List.filterMap_map]
    exact (congrFun List.filterMap_eq_map entries).symm

theorem mem_children_of_mem_pieces {e d : Element} {p : Piece} (hp : p ∈ pieces e)
    (hd : p.element = some d) : d ∈ e.children := by
  rw [children_eq_pieces]
  exact List.mem_filterMap.2 ⟨p, hp, hd⟩

end ModelData.Dat
