import ModelData.Proofs.Dat.Reader
import ModelData.Proofs.Dat.Spacing
import ModelData.Proofs.Dat.Telling
import ModelData.Proofs.Element.Sets
import ModelData.Proofs.Value.Forms

/-!
What a set loses when it drops an item that equals an earlier one. Of the literals of one set
those that are equal are written alike, for they are of one sort. In a set inside a set the sorts
may differ, and then an integer equals a float that is written otherwise: an item is dropped
without loss just when its normal form equals that of the item that is kept.
-/

namespace ModelData

mutual

/-- The element with zeros that have no sign. -/
def Element.unsigned : Element → Element
  | .scalar s => .scalar s
  | .float x => .float x.unsigned
  | .set members => .set (Member.unsigneds members)
  | .tuple items => .tuple (Element.unsigneds items)
  | .array entries => .array (Binding.unsigneds entries)
  | .custom kind label => .custom kind label

def Element.unsigneds : List Element → List Element
  | [] => []
  | e :: rest => Element.unsigned e :: Element.unsigneds rest

def Member.unsigned : Member → Member
  | .scalar s => .scalar s
  | .float x => .float x.unsigned
  | .element e => .element (Element.unsigned e)

def Member.unsigneds : List Member → List Member
  | [] => []
  | m :: rest => Member.unsigned m :: Member.unsigneds rest

def Binding.unsigned : Binding Value Element → Binding Value Element
  | ⟨name, element⟩ => ⟨name, Element.unsigned element⟩

def Binding.unsigneds : List (Binding Value Element) → List (Binding Value Element)
  | [] => []
  | n :: rest => Binding.unsigned n :: Binding.unsigneds rest

end

theorem Element.unsigneds_eq_map (items : List Element) :
    Element.unsigneds items = items.map Element.unsigned := by
  induction items with
  | nil => rfl
  | cons e rest ih => rw [Element.unsigneds, ih, List.map_cons]

theorem Member.unsigneds_eq_map (members : List Member) :
    Member.unsigneds members = members.map Member.unsigned := by
  induction members with
  | nil => rfl
  | cons m rest ih => rw [Member.unsigneds, ih, List.map_cons]

theorem Binding.unsigneds_eq_map (entries : List Named) :
    Binding.unsigneds entries = entries.map Binding.unsigned := by
  induction entries with
  | nil => rfl
  | cons n rest ih => rw [Binding.unsigneds, ih, List.map_cons]

section Literals

/-- A truth value equals the integer that it is written as. -/
theorem Scalar.form_norm (a : Scalar) : a.norm.form = a.form := by
  cases a <;> rfl

theorem Scalar.norm_eq_of_form {a b : Scalar} (h : a.form = b.form) : a.norm = b.norm := by
  rw [← a.form_norm, ← b.form_norm] at h
  cases a <;> cases b <;> simp_all [Scalar.norm, Scalar.form]

/-- Only an integer or a truth value equals a float. -/
theorem Scalar.norm_eq_int {a : Scalar} {x : Binary64.Finite}
    (h : a.form = (Binary64.finite x).form) : ∃ i, a.norm = .int i := by
  cases a with
  | text s =>
    rw [Binary64.form] at h
    split at h <;> cases h
  | int i => exact ⟨i, rfl⟩
  | flag b => exact ⟨Dat.flagInt b, rfl⟩

end Literals

namespace Dat

theorem scalarLiteral_norm (a : Scalar) : scalarLiteral a.norm = scalarLiteral a := by
  cases a <;> rfl

theorem memberLiteral_norm (a : Scalar) : memberLiteral a.norm = memberLiteral a := by
  cases a <;> rfl

/-- The normal form of a literal in a set. -/
theorem norm_scalar (a : Scalar) : (Member.scalar a).norm = (Member.scalar a.norm).norm := by
  cases a <;> rfl

/-- An integer is never written like a float. -/
theorem tells_int_float (i : Int) (x : Binary64.Finite) :
    Tells False (intLiteral i) (floatLiteral x) where
  same := False.elim
  only s t hs ht heq := by
    have hread := congrArg Json.readAtom? heq
    rw [intLiteral, floatLiteral, Json.readAtom?_int i hs, Json.readAtom?_float _ x ht] at hread
    cases hread

/-- In a set an integer and a float can be told apart though they are equal. -/
theorem tells_scalar_float {a : Scalar} {x : Binary64.Finite}
    (h : a.form = (Binary64.finite x).form) (y : Binary64.Finite) :
    Tells ((Member.scalar a).norm.form = (Member.float x).norm.form) (memberLiteral a)
      (floatLiteral y) := by
  obtain ⟨i, hi⟩ := Scalar.norm_eq_int h
  have hforms : (Member.scalar a).norm.form ≠ (Member.float x).norm.form := by
    rw [norm_scalar, hi]
    simp [Member.norm, Member.form, Element.form]
  rw [← memberLiteral_norm, hi]
  exact (tells_int_float i y).congr (iff_of_false not_false hforms)

section Telling

variable {layout : Layout}

/-- Equal members of a set can be told apart if elements can. -/
theorem tells_member {m n : Member} (h : m.form = n.form)
    (helements : ∀ e, m = .element e → ∀ d : Element, e.form = d.form →
      Tells (e.norm.form = d.norm.form) (write layout e.unsigned) (write layout d.unsigned)) :
    Tells (m.norm.form = n.norm.form) (writeMember layout m.unsigned)
      (writeMember layout n.unsigned) := by
  cases m with
  | element e =>
    cases n with
    | element d => exact helements e rfl d h
    | scalar | float => exact absurd h (e.form_ne_literal rfl)
  | scalar a =>
    cases n with
    | element d => exact absurd h.symm (d.form_ne_literal rfl)
    | float y => exact tells_scalar_float h y.unsigned
    | scalar b =>
      have hnorm := Scalar.norm_eq_of_form h
      apply Tells.of_eq
      · rw [norm_scalar, hnorm, ← norm_scalar]
      · rw [Member.unsigned, Member.unsigned, writeMember, writeMember, ← memberLiteral_norm,
          hnorm, memberLiteral_norm]
  | float x =>
    cases n with
    | element d => exact absurd h.symm (d.form_ne_literal rfl)
    | scalar b => exact ((tells_scalar_float h.symm x.unsigned).congr eq_comm).symm
    | float y =>
      have hunsigned := unsigned_eq_of_form h
      have hform : (Binary64.finite x).form = (Binary64.finite y).form := h
      apply Tells.of_eq
      · simp only [Member.norm, Member.form, Element.form, hform]
      · rw [Member.unsigned, Member.unsigned, hunsigned]

/-- A node of a known kind in which children are named by texts. -/
structure Plain (e : Element) : Prop where
  known : e.isForeign = false
  keys : e.KeyedByTexts

theorem norm_set_iff {members members' : List Member} :
    (Element.set members).norm.form = (Element.set members').norm.form ↔
      List.Forall₂ (fun m n => m.norm.form = n.norm.form) members members' := by
  simp [Element.norm_set, Element.form, Member.forms_eq_map, forall₂_iff_map_eq, Function.comp_def]

theorem norm_tuple_iff {items items' : List Element} :
    (Element.tuple items).norm.form = (Element.tuple items').norm.form ↔
      List.Forall₂ (fun e d => e.norm.form = d.norm.form) items items' := by
  simp [Element.norm_tuple, Element.form, Element.forms_eq_map, forall₂_iff_map_eq,
    Function.comp_def]

theorem norm_array_iff {entries entries' : List Named} :
    (Element.array entries).norm.form = (Element.array entries').norm.form ↔
      List.Forall₂ (fun m n => m.norm.form = n.norm.form) entries entries' := by
  simp [Element.norm_array, Element.form, Binding.forms_eq_map, forall₂_iff_map_eq,
    Function.comp_def]

/-- Equal entries under a text can be told apart if elements can. -/
theorem tells_entry {m n : Named} (h : m.form = n.form) (hname : ∃ s, m.name = .text s)
    (helements : ∀ d : Element, m.element.form = d.form →
      Tells (m.element.norm.form = d.norm.form) (write layout m.element.unsigned)
        (write layout d.unsigned)) :
    Tells (m.norm.form = n.norm.form) (writeEntry layout m.unsigned)
      (writeEntry layout n.unsigned) := by
  obtain ⟨name, e⟩ := m
  obtain ⟨name', d⟩ := n
  obtain ⟨s, rfl⟩ : ∃ s, name = .text s := hname
  simp only [Binding.form, Form.node.injEq, List.cons.injEq, and_true, true_and] at h
  obtain rfl := Value.eq_text_of_form h.1.symm
  have htold := (helements d h.2).after ((Value.text s).chars ++ [':', ' '])
  simpa [Binding.unsigned, Binding.norm, Binding.form, writeEntry] using htold

/-- Whether the normal forms of equal elements are equal can be told from their texts, in any
layout. -/
theorem tells_write {e : Element} (h : e.Everywhere Plain) (layout : Layout) (d : Element)
    (hform : e.form = d.form) :
    Tells (e.norm.form = d.norm.form) (write layout e.unsigned) (write layout d.unsigned) := by
  induction h generalizing layout d with
  | @intro e here _ ih =>
    cases Element.alike_of_form hform here.known with
    | scalar hliteral =>
      have hnorm := Scalar.norm_eq_of_form hliteral
      apply Tells.of_eq
      · rw [Element.norm, hnorm, ← Element.norm]
      · rw [Element.unsigned, Element.unsigned, write, write, ← scalarLiteral_norm, hnorm,
          scalarLiteral_norm]
    | float hfloat =>
      apply Tells.of_eq
      · simp only [Element.norm, Element.form, hfloat]
      · rw [Element.unsigned, Element.unsigned, unsigned_eq_of_form hfloat]
    | set hmembers =>
      have hclosing : Delimits ['\x7d'] := delimits_of_head (by decide)
      have htold := forall₂_mem hmembers fun m hm n hmn => tells_member hmn fun e he d hed =>
        ih e (Element.mem_children_of_member (he ▸ hm)) layout.inner d hed
      simp only [Element.unsigned, write, writeMembers_eq_map, Member.unsigneds_eq_map,
        List.map_map]
      exact (Tells.wrap layout ['\x7b'] hclosing htold).congr norm_set_iff.symm
    | tuple hitems =>
      have hclosing : Delimits ['>'] := delimits_of_head (by decide)
      have htold := forall₂_mem hitems fun e he d hed => ih e he layout.inner d hed
      simp only [Element.unsigned, write, writeItems_eq_map, Element.unsigneds_eq_map,
        List.map_map]
      exact (Tells.wrap layout ['<'] hclosing htold).congr norm_tuple_iff.symm
    | array hentries =>
      have hclosing : Delimits [']', '#'] := delimits_of_head (by decide)
      have htold := forall₂_mem hentries fun m hm n hmn =>
        tells_entry hmn (here.keys m.name (List.mem_map_of_mem hm))
          (ih m.element (Element.mem_children_of_entry hm) layout.inner)
      simp only [Element.unsigned, write, writeEntries_eq_map, Binding.unsigneds_eq_map,
        List.map_map]
      exact (Tells.wrap layout ['#', '['] hclosing htold).congr norm_array_iff.symm

end Telling

section Obstacles

/-- Equal elements can or cannot be written for the same reason. -/
theorem obstacle?_eq_of_form {e : Element} (h : e.Everywhere Plain) (layout : Layout)
    (d : Element) (hform : e.form = d.form) : obstacle? layout e = obstacle? layout d := by
  induction h generalizing layout d with
  | @intro e here _ ih =>
    have halike := Element.alike_of_form hform here.known
    have hchildren := forall₂_mem halike.children fun c hc => ih c hc layout.inner
    rw [obstacle?_eq layout here.known, obstacle?_eq layout halike.known,
      findSome?_eq_of_forall₂ hchildren, halike.isFilled]

theorem memberObstacle?_eq_of_form {m n : Member} (h : m.form = n.form) (layout : Layout)
    (hplain : ∀ e, m = .element e → e.Everywhere Plain) :
    memberObstacle? layout m = memberObstacle? layout n := by
  cases m with
  | element e =>
    cases n with
    | element d => exact obstacle?_eq_of_form (hplain e rfl) layout d h
    | scalar | float => exact absurd h (e.form_ne_literal rfl)
  | scalar | float =>
    cases n with
    | element d => exact absurd h.symm (d.form_ne_literal rfl)
    | scalar | float => rfl

end Obstacles

/-- A scalar that equals a float cannot stand in a set with it. -/
theorem scalar_ne_float {members : List Member} (h : Compatible members) {a : Scalar}
    {x : Binary64.Finite} (ha : .scalar a ∈ members) (hx : .float x ∈ members) :
    a.form ≠ (Binary64.finite x).form := by
  intro hform
  obtain ⟨i, hi⟩ := Scalar.norm_eq_int hform
  have hint : (Member.scalar a).literalName? = some "int" := by
    cases a with
    | text => cases hi
    | int | flag => rfl
  exact absurd (h.literalName_eq ha hx hint rfl) (by decide)

/-- Equal literals of one set have one normal form, for they are of one sort. -/
theorem norm_form_eq_of_literal {members : List Member} (h : Compatible members) {m n : Member}
    (hm : m ∈ members) (hn : n ∈ members) (hform : m.form = n.form) (hbare : m.element? = none) :
    m.norm.form = n.norm.form := by
  cases n with
  | element d => exact absurd hform.symm (d.form_ne_literal hbare)
  | scalar b =>
    cases m with
    | element => cases hbare
    | scalar a => rw [norm_scalar, Scalar.norm_eq_of_form hform, ← norm_scalar]
    | float x => exact absurd hform.symm (scalar_ne_float h hn hm)
  | float y =>
    cases m with
    | element => cases hbare
    | scalar a => exact absurd hform (scalar_ne_float h hm hn)
    | float x =>
      have hfloat : (Binary64.finite x).form = (Binary64.finite y).form := hform
      simp only [Member.norm, Member.form, Element.form, hfloat]

/-- A set keeps one of every equal items. Where the normal forms of the two are equal they are
written alike in every layout, up to the sign of zero, and this is so for bare literals; where
the normal forms differ, what was written for the item is lost. -/
theorem makeSet_keeps {items : Value} {values : List Value} {kept : List Member}
    (hitems : items.itemsFor .set = .ok values) (hset : Element.makeSet items = .ok (.set kept))
    (hplain : ∀ e, Value.element e ∈ values → e.Everywhere Plain) :
    ∀ v ∈ values, ∃ m k, m.toValue = v ∧ k ∈ kept ∧ m.form = k.form ∧
      (m.element? = none → m.norm.form = k.norm.form) ∧
      ∀ layout, memberObstacle? layout m = memberObstacle? layout k ∧
        (writeMember layout m.unsigned = writeMember layout k.unsigned ↔
          m.norm.form = k.norm.form) := by
  obtain ⟨made, hmade, hcompatible, rfl⟩ := exists_members hitems hset
  intro v hv
  rw [← hmade] at hv
  obtain ⟨m, hm, rfl⟩ := List.mem_map.1 hv
  obtain ⟨k, hk, hform⟩ : ∃ k ∈ distinct Member.form made, k.form = m.form :=
    exists_mem_distinct hm
  have hinside : ∀ e, m = .element e → e.Everywhere Plain := by
    rintro e rfl
    exact hplain e (hmade ▸ List.mem_map_of_mem hm)
  refine ⟨m, k, rfl, hk, hform.symm, ?_, fun layout => ⟨?_, ?_⟩⟩
  · exact norm_form_eq_of_literal hcompatible hm (mem_of_mem_distinct hk) hform.symm
  · exact memberObstacle?_eq_of_form hform.symm layout hinside
  · apply Tells.eq_iff
    exact tells_member hform.symm fun e he d => tells_write (hinside e he) layout d

/-- The float one. -/
def oneFloat : Binary64.Finite :=
  ⟨false, 1023 * Binary64.binade, by decide⟩

theorem form_oneFloat : (Binary64.finite oneFloat).form = .atom (.int 1) := by
  have hwhole : oneFloat.toInt? = some 1 := by decide +kernel
  simp only [Binary64.form, hwhole]

/-- A set with the integer one, and a set with the float one. -/
def ones : List Member :=
  [.element (.set [.scalar (.int 1)]), .element (.set [.float oneFloat])]

theorem makeSet_ones : Element.makeSet (.list (ones.map Member.toValue)) =
    .ok (.set [.element (.set [.scalar (.int 1)])]) := by
  have hcompatible : Compatible ones :=
    { sorts := by simp [Member.literalNames, Member.literalName?, ones]
      hashable := by
        simp [ones, Member.unhashable?, Element.unhashable?, Member.anyUnhashable?] }
  rw [makeSet_toValue hcompatible]
  simp [ones, distinct, distinctFrom, Member.form, Element.form, Member.forms, form_oneFloat,
    Scalar.form]

theorem makeSet_keeps_ones :
    Element.makeSet (.list (ones.map Member.toValue)) =
        .ok (.set [.element (.set [.scalar (.int 1)])]) ∧
      ∀ layout, write layout (Element.set [.float oneFloat]).unsigned ≠
        write layout (Element.set [.scalar (.int 1)]).unsigned := by
  have hplain : ∀ e, Value.element e ∈ ones.map Member.toValue → e.Everywhere Plain := by
    intro e he
    have hbare : e.children = [] ∧ e.isForeign = false ∧ e.keys = [] := by
      rcases List.mem_pair.1 he with h | h <;> cases h <;> exact ⟨rfl, rfl, rfl⟩
    exact .leaf ⟨hbare.2.1, by simp [Element.KeyedByTexts, hbare]⟩ hbare.1
  have hkeeps := makeSet_keeps rfl makeSet_ones hplain
  obtain ⟨m, k, hm, hk, -, -, htexts⟩ := hkeeps (.element (.set [.float oneFloat]))
    (List.mem_cons_of_mem _ List.mem_cons_self)
  cases m with
  | scalar s => cases s <;> cases hm
  | float => cases hm
  | element e =>
    cases hm
    cases List.mem_singleton.1 hk
    refine ⟨makeSet_ones, fun layout heq => ?_⟩
    have hnorm := (htexts layout).2.1 heq
    simp [Member.norm, Element.norm, Member.norms, Member.form, Element.form, Member.forms] at hnorm

end Dat

end ModelData
