import ModelData.Record
import ModelData.Proofs.Element.Tree
import ModelData.Proofs.Value.Stored
import ModelData.Proofs.Value.Traverse

/-!
Elements and their records. The record of a sound element, in which sets were built from items
and the names of arrays are texts, can be stored; and from what is read for it the element is
built again, with its texts changed as the format changes them. A set then keeps what is
distinct among its changed members.
-/

namespace ModelData

open Record

mutual

/-- The record of an element of a known kind. -/
def Element.record : Element → Value
  | .scalar s => typed "scalar" "value" s.toValue
  | .float x => typed "float" "value" (.float (.finite x))
  | .set members => typed "set" "items" (.list (Member.records members))
  | .tuple items => typed "tuple" "items" (.list (Element.records items))
  | .array entries => typed "array" "items" (.list (Binding.records entries))
  | .custom _ _ => .null

def Element.records : List Element → List Value
  | [] => []
  | e :: rest => Element.record e :: Element.records rest

def Member.record : Member → Value
  | .scalar s => s.toValue
  | .float x => .float (.finite x)
  | .element e => Element.record e

def Member.records : List Member → List Value
  | [] => []
  | m :: rest => Member.record m :: Member.records rest

def Binding.record : Binding Value Element → Value
  | ⟨name, element⟩ => .table [(.text "name", name), (.text "element", Element.record element)]

def Binding.records : List (Binding Value Element) → List Value
  | [] => []
  | n :: rest => Binding.record n :: Binding.records rest

end

theorem Element.records_eq_map (items : List Element) :
    Element.records items = items.map Element.record := by
  induction items with
  | nil => rfl
  | cons e rest ih => rw [Element.records, ih, List.map_cons]

theorem Member.records_eq_map (members : List Member) :
    Member.records members = members.map Member.record := by
  induction members with
  | nil => rfl
  | cons m rest ih => rw [Member.records, ih, List.map_cons]

theorem Binding.records_eq_map (entries : List Named) :
    Binding.records entries = entries.map Binding.record := by
  induction entries with
  | nil => rfl
  | cons n rest ih => rw [Binding.records, ih, List.map_cons]

theorem record_mem_items {items : List Element} {e : Element} (h : e ∈ items) :
    e.record ∈ Element.records items := by
  rw [Element.records_eq_map]
  exact List.mem_map_of_mem h

theorem record_mem_entries {entries : List Named} {n : Named} (h : n ∈ entries) :
    n.record ∈ Binding.records entries := by
  rw [Binding.records_eq_map]
  exact List.mem_map_of_mem h

section Writing

theorem ofMembers_eq_mapM (members : List Member) : ofMembers members = members.mapM ofMember := by
  induction members with
  | nil => rfl
  | cons m rest ih => rw [ofMembers, List.mapM_cons, ih]

theorem ofItems_eq_mapM (items : List Element) : ofItems items = items.mapM ofElement := by
  induction items with
  | nil => rfl
  | cons e rest ih => rw [ofItems, List.mapM_cons, ih]

theorem ofEntries_eq_mapM (entries : List Named) : ofEntries entries = entries.mapM ofNamed := by
  induction entries with
  | nil => rfl
  | cons n rest ih => rw [ofEntries, List.mapM_cons, ih]

/-- Why an element has no record: the first element of a foreign kind. -/
def foreignFault? (e : Element) : Option RecordFault :=
  e.firstForeign?.map fun d => .unsupportedElement (.element d.kind)

theorem foreignFault?_of_known {e : Element} (h : e.isForeign = false) :
    foreignFault? e = e.children.findSome? foreignFault? := by
  rw [foreignFault?, Element.firstForeign?_of_known h, List.map_findSome?]
  rfl

theorem findSome?_element? (members : List Member) :
    members.findSome? (fun m => m.element?.bind foreignFault?) =
      (Element.set members).children.findSome? foreignFault? := by
  rw [← List.head?_filterMap, ← List.head?_filterMap, Element.children, List.filterMap_filterMap]

theorem ofNamed_eq {n : Named}
    (h : ofElement n.element = unlessFault (foreignFault? n.element) n.element.record) :
    ofNamed n = unlessFault (foreignFault? n.element) n.record := by
  obtain ⟨name, e⟩ := n
  rw [ofNamed, h]
  exact unlessFault_map _ _ _

/-- An element has its record, or the first element of a foreign kind in it is the fault. -/
theorem ofElement_eq_unlessFault (e : Element) :
    ofElement e = unlessFault (foreignFault? e) e.record := by
  induction e using Element.childInduction with | step e ih
  cases e with
  | scalar | float =>
    rw [foreignFault?_of_known rfl]
    rfl
  | set members =>
    have hmembers : ∀ m ∈ members,
        ofMember m = unlessFault (m.element?.bind foreignFault?) m.record := by
      intro m hm
      cases m with
      | scalar | float => rfl
      | element d => exact ih d (Element.mem_children_of_member hm)
    rw [ofElement, ofMembers_eq_mapM, mapM_unlessFault hmembers, findSome?_element?,
      ← Member.records_eq_map, foreignFault?_of_known rfl]
    exact unlessFault_map _ _ _
  | tuple items =>
    have hitems : ∀ d ∈ items, ofElement d = unlessFault (foreignFault? d) d.record := ih
    rw [ofElement, ofItems_eq_mapM, mapM_unlessFault hitems, ← Element.records_eq_map,
      foreignFault?_of_known rfl]
    exact unlessFault_map _ _ _
  | array entries =>
    have hentries : ∀ n ∈ entries,
        ofNamed n = unlessFault (foreignFault? n.element) n.record :=
      fun n hn => ofNamed_eq (ih _ (Element.mem_children_of_entry hn))
    rw [ofElement, ofEntries_eq_mapM, mapM_unlessFault hentries, ← Binding.records_eq_map,
      foreignFault?_of_known rfl, Element.children, List.findSome?_map]
    exact unlessFault_map _ _ _
  | custom kind label =>
    rw [foreignFault?, Element.firstForeign?_of_foreign rfl]
    rfl

theorem ofElement_eq {e : Element} (h : e.Everywhere (·.isForeign = false)) :
    ofElement e = .ok e.record := by
  rw [ofElement_eq_unlessFault, foreignFault?, Element.firstForeign?_eq_none_iff.2 h]
  rfl

theorem ofEntries_eq {entries : List Named}
    (h : ∀ n ∈ entries, n.element.Everywhere (·.isForeign = false)) :
    ofEntries entries = .ok (Binding.records entries) := by
  have hentries : ∀ n ∈ entries, ofNamed n = .ok n.record := by
    intro n hn
    rw [ofNamed_eq (ofElement_eq_unlessFault _), foreignFault?,
      Element.firstForeign?_eq_none_iff.2 (h n hn)]
    rfl
  rw [ofEntries_eq_mapM, mapM_eq_map hentries, Binding.records_eq_map]

end Writing

/-- A node of a known kind; the names in an array are texts, and a set was built from items. -/
structure Sound (e : Element) : Prop where
  known : e.isForeign = false
  names : ∀ name ∈ e.keys, ∃ s, name = .text s
  built : ∀ members, e = .set members → ∃ items, Element.makeSet (.list items) = .ok e

section Soundness

theorem sound_scalar (s : Scalar) : (Element.scalar s).Everywhere Sound :=
  .leaf ⟨rfl, by simp [Element.keys, Element.keys?], by simp⟩ rfl

theorem sound_float (x : Binary64.Finite) : (Element.float x).Everywhere Sound :=
  .leaf ⟨rfl, by simp [Element.keys, Element.keys?], by simp⟩ rfl

theorem sound_set {items : List Value} {members : List Member}
    (hbuilt : Element.makeSet (.list items) = .ok (.set members))
    (h : ∀ e, Member.element e ∈ members → e.Everywhere Sound) :
    (Element.set members).Everywhere Sound := by
  refine .intro ⟨rfl, by simp [Element.keys, Element.keys?], fun _ _ => ⟨items, hbuilt⟩⟩ ?_
  intro d hd
  obtain ⟨m, hm, hd⟩ := List.mem_filterMap.1 hd
  cases m with
  | scalar | float => simp [Member.element?] at hd
  | element e =>
    obtain rfl : e = d := by simpa [Member.element?] using hd
    exact h e hm

theorem sound_tuple {items : List Element} (h : ∀ e ∈ items, e.Everywhere Sound) :
    (Element.tuple items).Everywhere Sound :=
  .intro ⟨rfl, by simp [Element.keys, Element.keys?], by simp⟩ h

theorem sound_array {entries : List Named} (hnames : ∀ n ∈ entries, ∃ s, n.name = .text s)
    (h : ∀ n ∈ entries, n.element.Everywhere Sound) :
    (Element.array entries).Everywhere Sound := by
  refine .intro ⟨rfl, fun name hname => ?_, by simp⟩ fun d hd => ?_
  · obtain ⟨n, hn, rfl⟩ := List.mem_map.1 (show name ∈ entries.map (·.name) from hname)
    exact hnames n hn
  · obtain ⟨n, hn, rfl⟩ := List.mem_map.1 hd
    exact h n hn

end Soundness

section Storing

theorem keyed_pair {a b : String} (ha : isKey a = true) (hb : isKey b = true) (hne : a ≠ b)
    (v w : Value) : Keyed [(.text a, v), (.text b, w)] := by
  refine ⟨fun e he => ?_, by simpa using hne⟩
  rcases List.mem_cons.1 he with rfl | he
  · exact ⟨a, rfl, ha⟩
  · obtain rfl := List.mem_singleton.1 he
    exact ⟨b, rfl, hb⟩

/-- A property that a record has as soon as all that it is made of has it. -/
structure Value.Gathered (p : Value → Prop) : Prop where
  flag (b : Bool) : p (.flag b)
  int (i : Int) : p (.int i)
  float (x : Binary64.Finite) : p (.float (.finite x))
  text (s : String) : p (.text s)
  list {items : List Value} (inside : ∀ v ∈ items, p v) : p (.list items)
  table {entries : List (Value × Value)} (filled : entries ≠ []) (keyed : Keyed entries)
    (inside : ∀ e ∈ entries, p e.2) : p (.table entries)

namespace Value.Gathered

variable {p : Value → Prop} {e : Element} {n : Named}

theorem pair (hp : Gathered p) {a b : String} (ha : isKey a = true) (hb : isKey b = true)
    (hne : a ≠ b) {v w : Value} (hv : p v) (hw : p w) :
    p (.table [(.text a, v), (.text b, w)]) := by
  refine hp.table (by simp) (keyed_pair ha hb hne v w) fun e he => ?_
  rcases List.mem_cons.1 he with rfl | he
  · exact hv
  · obtain rfl := List.mem_singleton.1 he
    exact hw

theorem scalar (hp : Gathered p) (s : Scalar) : p s.toValue := by
  cases s with
  | text s => exact hp.text s
  | int i => exact hp.int i
  | flag b => exact hp.flag b

theorem items (hp : Gathered p) {type : String} {records : List Value}
    (inside : ∀ v ∈ records, p v) : p (typed type "items" (.list records)) :=
  hp.pair (by decide) (by decide) (by decide) (hp.text type) (hp.list inside)

theorem named (hp : Gathered p) (hname : p n.name) (helement : p n.element.record) :
    p n.record := by
  obtain ⟨name, d⟩ := n
  exact hp.pair (by decide) (by decide) (by decide) hname helement

theorem record (hp : Gathered p)
    (h : e.Everywhere fun d => d.isForeign = false ∧ ∀ name ∈ d.keys, p name) : p e.record := by
  induction h with
  | @intro e here _ ih =>
    cases e with
    | scalar s =>
      exact hp.pair (by decide) (by decide) (by decide) (hp.text _) (hp.scalar s)
    | float x => exact hp.pair (by decide) (by decide) (by decide) (hp.text _) (hp.float x)
    | set members =>
      refine hp.items fun v hv => ?_
      rw [Member.records_eq_map] at hv
      obtain ⟨m, hm, rfl⟩ := List.mem_map.1 hv
      cases m with
      | scalar s => exact hp.scalar s
      | float x => exact hp.float x
      | element d => exact ih d (Element.mem_children_of_member hm)
    | tuple items =>
      refine hp.items fun v hv => ?_
      rw [Element.records_eq_map] at hv
      obtain ⟨d, hd, rfl⟩ := List.mem_map.1 hv
      exact ih d hd
    | array entries =>
      refine hp.items fun v hv => ?_
      rw [Binding.records_eq_map] at hv
      obtain ⟨n, hn, rfl⟩ := List.mem_map.1 hv
      exact hp.named (here.2 n.name (List.mem_map_of_mem hn))
        (ih n.element (Element.mem_children_of_entry hn))
    | custom => exact absurd here.1 (by simp [Element.isForeign])

end Value.Gathered

theorem Storable.gathered : Value.Gathered Storable :=
  ⟨.flag, .int, .float, .text, .list, .table⟩

end Storing

end ModelData
