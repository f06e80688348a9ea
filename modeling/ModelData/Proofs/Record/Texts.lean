import ModelData.Proofs.Record.Documents

/-!
The texts of an element with the indentations at which its record holds them. A sound element
is read as itself just when the format changes none of these texts: a set cannot stay the same
while a changed member is dropped from it, because then it has fewer members.
-/

namespace ModelData

def Scalar.texts (indent : Nat) : Scalar → List (Nat × String)
  | .text s => [(indent, s)]
  | _ => []

mutual

/-- The texts of an element whose record starts at an indentation. -/
def Element.texts (indent : Nat) : Element → List (Nat × String)
  | .scalar s => s.texts (indent + 2)
  | .set members => Member.allTexts (indent + 2) members
  | .tuple items => Element.allTexts (indent + 2) items
  | .array entries => Binding.allTexts (indent + 2) entries
  | .float _ | .custom _ _ => []

def Element.allTexts (indent : Nat) : List Element → List (Nat × String)
  | [] => []
  | e :: rest => Element.texts indent e ++ Element.allTexts indent rest

def Member.texts (indent : Nat) : Member → List (Nat × String)
  | .scalar s => s.texts indent
  | .float _ => []
  | .element e => Element.texts indent e

def Member.allTexts (indent : Nat) : List Member → List (Nat × String)
  | [] => []
  | m :: rest => Member.texts indent m ++ Member.allTexts indent rest

def Binding.texts (indent : Nat) : Binding Value Element → List (Nat × String)
  | ⟨.text s, element⟩ => (indent + 2, s) :: Element.texts (indent + 2) element
  | ⟨_, element⟩ => Element.texts (indent + 2) element

def Binding.allTexts (indent : Nat) : List (Binding Value Element) → List (Nat × String)
  | [] => []
  | n :: rest => Binding.texts indent n ++ Binding.allTexts indent rest

end

/-- The texts in the elements of a document. -/
def Document.texts (d : Document) : List (Nat × String) :=
  Binding.allTexts 2 d.elements

theorem Element.mem_allTexts {indent : Nat} {items : List Element} {t : Nat × String} :
    t ∈ Element.allTexts indent items ↔ ∃ e ∈ items, t ∈ e.texts indent := by
  induction items with
  | nil => simp [Element.allTexts]
  | cons e rest ih => simp [Element.allTexts, ih]

theorem Member.mem_allTexts {indent : Nat} {members : List Member} {t : Nat × String} :
    t ∈ Member.allTexts indent members ↔ ∃ m ∈ members, t ∈ m.texts indent := by
  induction members with
  | nil => simp [Member.allTexts]
  | cons m rest ih => simp [Member.allTexts, ih]

theorem Binding.mem_allTexts {indent : Nat} {entries : List Named} {t : Nat × String} :
    t ∈ Binding.allTexts indent entries ↔ ∃ n ∈ entries, t ∈ n.texts indent := by
  induction entries with
  | nil => simp [Binding.allTexts]
  | cons n rest ih => simp [Binding.allTexts, ih]

section Fixed

variable {change : Nat → List Char → List Char}

/-- The format leaves a text alone at its indentation. -/
def Keeps (change : Nat → List Char → List Char) (t : Nat × String) : Prop :=
  change t.1 t.2.toList = t.2.toList

theorem ofList_eq_iff {cs : List Char} {s : String} : String.ofList cs = s ↔ cs = s.toList := by
  constructor
  · rintro rfl
    exact String.toList_ofList.symm
  · rintro rfl
    exact String.ofList_toList

theorem Scalar.reread_eq_self_iff (s : Scalar) (indent : Nat) :
    s.reread change indent = s ↔ ∀ t ∈ s.texts indent, Keeps change t := by
  cases s <;> simp [Scalar.reread, Scalar.texts, Keeps, ofList_eq_iff]

theorem Binding.reread_eq_self_iff {n : Named} (h : ∃ s, n.name = .text s) (indent : Nat)
    (helement : n.element.reread change (indent + 2) = n.element ↔
      ∀ t ∈ n.element.texts (indent + 2), Keeps change t) :
    n.reread change indent = n ↔ ∀ t ∈ n.texts indent, Keeps change t := by
  obtain ⟨s, hs⟩ := h
  obtain ⟨name, e⟩ := n
  obtain rfl : name = .text s := hs
  simp only [Binding.reread, Binding.texts, Binding.mk.injEq, Value.text.injEq, ofList_eq_iff,
    helement, List.forall_mem_cons]
  rfl

theorem forall_texts_iff {α : Type} {f : α → α} {texts : α → List (Nat × String)} {xs : List α}
    (h : ∀ x ∈ xs, f x = x ↔ ∀ t ∈ texts x, Keeps change t) :
    (∀ x ∈ xs, f x = x) ↔ ∀ t, (∃ x ∈ xs, t ∈ texts x) → Keeps change t := by
  constructor
  · rintro hfixed t ⟨x, hx, ht⟩
    exact (h x hx).1 (hfixed x hx) t ht
  · exact fun hkeeps x hx => (h x hx).2 fun t ht => hkeeps t ⟨x, hx, ht⟩

theorem Element.reread_eq_self_iff {e : Element} (h : e.Everywhere Sound) (indent : Nat) :
    e.reread change indent = e ↔ ∀ t ∈ e.texts indent, Keeps change t := by
  induction h generalizing indent with
  | @intro e here _ ih =>
    cases e with
    | scalar s => simpa [Element.reread, Element.texts] using s.reread_eq_self_iff (indent + 2)
    | float | custom => simp [Element.reread, Element.texts]
    | set members =>
      obtain ⟨items, hbuilt⟩ := here.built members rfl
      obtain ⟨-, hdistinct⟩ := compatible_of_makeSet hbuilt
      simp only [Element.reread, Element.texts, Element.set.injEq, Member.rereads_eq_map,
        distinct_map_eq_self_iff hdistinct, Member.mem_allTexts]
      refine forall_texts_iff fun m hm => ?_
      cases m with
      | scalar s => simpa [Member.reread, Member.texts] using s.reread_eq_self_iff (indent + 2)
      | float => simp [Member.reread, Member.texts]
      | element d =>
        simpa [Member.reread, Member.texts] using
          ih d (Element.mem_children_of_member hm) (indent + 2)
    | tuple items =>
      simp only [Element.reread, Element.texts, Element.tuple.injEq, Element.rereads_eq_map,
        map_eq_self_iff, Element.mem_allTexts]
      exact forall_texts_iff fun d hd => ih d hd (indent + 2)
    | array entries =>
      simp only [Element.reread, Element.texts, Element.array.injEq, Binding.rereads_eq_map,
        map_eq_self_iff, Binding.mem_allTexts]
      refine forall_texts_iff fun n hn => ?_
      exact Binding.reread_eq_self_iff (here.names n.name (List.mem_map_of_mem hn)) _
        (ih n.element (Element.mem_children_of_entry hn) _)

theorem Document.reread_eq_self_iff {d : Document} (h : d.Sound) :
    d.reread change = d ↔ ∀ t ∈ d.texts, Keeps change t := by
  have helements : d.reread change = d ↔ Binding.rereads change 2 d.elements = d.elements := by
    obtain ⟨elements, lines, pretty, config⟩ := d
    simp [Document.reread]
  rw [helements, Binding.rereads_eq_map, map_eq_self_iff]
  simp only [Document.texts, Binding.mem_allTexts]
  exact forall_texts_iff fun n hn => Binding.reread_eq_self_iff (h.names n hn) 2
    (Element.reread_eq_self_iff (h.elements n hn) _)

end Fixed

end ModelData
