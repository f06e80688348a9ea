import Mathlib.Data.List.Nodup
import ModelData.Proofs.Element.Sets

/-!
Which collections become sets. The items are looked at one by one, then their sorts, and last
whether they can be looked up. The fault that is reported is the first in this order, and a
collection without a fault becomes a set of the first of each of its equal items.
-/

namespace ModelData

/-- An element, or a value that a set holds without an element around it. -/
inductive FitsSet : Value → Prop where
  | text (s : String) : FitsSet (.text s)
  | int (i : Int) : FitsSet (.int i)
  | flag (b : Bool) : FitsSet (.flag b)
  | float (x : Binary64.Finite) : FitsSet (.float (.finite x))
  | element (e : Element) : FitsSet (.element e)

/-- What is wrong with a value that does not fit: the value of a float, the kind of all else. -/
def Value.memberFault : Value → Misfit
  | .float x => .memberNotFinite (Value.float x).quoted
  | v => .memberOf v.kind

/-- The sort of a literal; a truth value is an integer. -/
def Value.sort? : Value → Option String
  | .text _ => some "str"
  | .int _ | .flag _ => some "int"
  | .float _ => some "float"
  | _ => none

/-- The sorts of the literals among some values, in alphabetical order. -/
def sortsOf (values : List Value) : List String :=
  ["float", "int", "str"].filter fun name => values.any fun v => v.sort? = some name

/-- The literals are all texts, all integers or all floats. -/
def OneSort (values : List Value) : Prop :=
  ∃ name, ∀ v ∈ values, ∀ sort ∈ v.sort?, sort = name

/-- No name inside an element is a value that cannot be looked up. -/
def LookedUp (values : List Value) : Prop :=
  ∀ e, .element e ∈ values → e.Everywhere fun d => ∀ name ∈ d.keys, name.unhashable? = none

/-- What a collection has to be to become a set. -/
structure SetItems (values : List Value) : Prop where
  fit : ∀ v ∈ values, FitsSet v
  oneSort : OneSort values
  lookedUp : LookedUp values

/-- The first fault of a collection that does not become a set. -/
inductive SetFault : List Value → Misfit → Prop where
  | item {before after : List Value} {v : Value} (hbefore : ∀ w ∈ before, FitsSet w)
      (h : ¬ FitsSet v) : SetFault (before ++ v :: after) v.memberFault
  | sorts {values : List Value} (hfit : ∀ v ∈ values, FitsSet v) (h : ¬ OneSort values) :
      SetFault values (.mixedMembers (sortsOf values))
  | unhashable {values : List Value} (hfit : ∀ v ∈ values, FitsSet v) (hsort : OneSort values)
      {k : Kind} (h : values.findSome? Value.unhashable? = some k) :
      SetFault values (.unhashable k)

/-- The members of a set are the first of the equal items that it is made from. -/
structure KeepsFirst (values : List Value) (kept : List Member) : Prop where
  sublist : (kept.map Member.toValue).Sublist values
  apart : kept.Pairwise fun m n => m.toValue.equals n.toValue = false
  first : ∀ v ∈ values, ∃ m ∈ kept, values.find? (·.equals v) = some m.toValue ∧
    ∀ n ∈ kept, n.toValue.equals v = true → n = m
  again : ∀ items, items.itemsFor .set = .ok (kept.map Member.toValue) →
    Element.makeSet items = .ok (.set kept)

section Items

variable {v : Value} {values : List Value} {made : List Member}

theorem fitsSet_toValue (m : Member) : FitsSet m.toValue := by
  cases m with
  | scalar s =>
    cases s with
    | text s => exact .text s
    | int i => exact .int i
    | flag b => exact .flag b
  | float x => exact .float x
  | element e => exact .element e

theorem exists_toValue (h : FitsSet v) : ∃ m : Member, m.toValue = v := by
  cases h with
  | text s => exact ⟨.scalar (.text s), rfl⟩
  | int i => exact ⟨.scalar (.int i), rfl⟩
  | flag b => exact ⟨.scalar (.flag b), rfl⟩
  | float x => exact ⟨.float x, rfl⟩
  | element e => exact ⟨.element e, rfl⟩

theorem exists_members_of_fit (h : ∀ v ∈ values, FitsSet v) :
    ∃ made : List Member, made.map Member.toValue = values := by
  induction values with
  | nil => exact ⟨[], rfl⟩
  | cons v rest ih =>
    obtain ⟨m, rfl⟩ := exists_toValue (h v List.mem_cons_self)
    obtain ⟨made, rfl⟩ := ih fun w hw => h w (List.mem_cons_of_mem _ hw)
    exact ⟨m :: made, rfl⟩

theorem make_memberFault (h : ¬ FitsSet v) : Member.make v = .error v.memberFault := by
  cases v with
  | float x =>
    cases x with
    | finite x => exact absurd (.float x) h
    | infinite | nan => rfl
  | text s => exact absurd (.text s) h
  | int i => exact absurd (.int i) h
  | flag b => exact absurd (.flag b) h
  | element e => exact absurd (.element e) h
  | _ => rfl

theorem sort?_toValue (m : Member) : m.toValue.sort? = m.literalName? := by
  cases m with
  | scalar s => cases s <;> rfl
  | float | element => rfl

theorem sortsOf_toValue (made : List Member) :
    sortsOf (made.map Member.toValue) = Member.literalNames made := by
  simp only [sortsOf, Member.literalNames, List.any_map, Function.comp_def, sort?_toValue]

/-- The literals are of one sort just when there is at most one sort among them. -/
theorem oneSort_iff : OneSort (made.map Member.toValue) ↔ (Member.literalNames made).length ≤ 1 := by
  constructor
  · rintro ⟨name, hname⟩
    have hsame : ∀ sort ∈ Member.literalNames made, sort = name := by
      intro sort hsort
      obtain ⟨-, hany⟩ := List.mem_filter.1 hsort
      obtain ⟨m, hm, hliteral⟩ := List.any_eq_true.1 hany
      exact hname m.toValue (List.mem_map_of_mem hm) sort
        ((sort?_toValue m).trans (of_decide_eq_true hliteral))
    have hnodup : (Member.literalNames made).Nodup := List.Nodup.filter _ (by decide)
    rw [List.eq_replicate_of_mem hsame] at hnodup
    exact List.nodup_replicate.1 hnodup
  · intro hlength
    refine ⟨(Member.literalNames made).headD "", fun v hv sort hsort => ?_⟩
    obtain ⟨m, hm, rfl⟩ := List.mem_map.1 hv
    exact eq_headD_of_mem hlength (mem_literalNames hm ((sort?_toValue m).symm.trans hsort))

theorem unhashable?_toValue (m : Member) : m.toValue.unhashable? = m.unhashable? := by
  cases m with
  | scalar s => cases s <;> rfl
  | float | element => rfl

theorem findSome?_toValue (made : List Member) :
    (made.map Member.toValue).findSome? Value.unhashable? = Member.anyUnhashable? made := by
  induction made with
  | nil => rfl
  | cons m rest ih =>
    rw [List.map_cons, List.findSome?_cons, ih, unhashable?_toValue, Member.anyUnhashable?]
    cases m.unhashable? <;> rfl

/-- An element in which all names can be looked up can be looked up itself. -/
theorem unhashable?_of_names {e : Element}
    (h : e.Everywhere fun d => ∀ name ∈ d.keys, name.unhashable? = none) :
    e.unhashable? = none := by
  induction h with
  | @intro e here _ ih =>
    cases e with
    | scalar | float | custom => rfl
    | set members =>
      refine anyUnhashable?_eq_none_iff.2 fun m hm => ?_
      cases m with
      | scalar | float => rfl
      | element d => exact ih d (Element.mem_children_of_member hm)
    | tuple items => exact anyUnhashable?_items_iff.2 ih
    | array entries =>
      refine anyUnhashable?_entries_iff.2 fun n hn => unhashable?_named_iff.2 ⟨?_, ?_⟩
      · exact here n.name (List.mem_map_of_mem hn)
      · exact ih n.element (Element.mem_children_of_entry hn)

theorem lookedUp_iff : LookedUp (made.map Member.toValue) ↔ ∀ m ∈ made, m.unhashable? = none := by
  constructor
  · intro h m hm
    cases m with
    | scalar | float => rfl
    | element e => exact unhashable?_of_names (h e (List.mem_map_of_mem hm))
  · intro h e he
    obtain ⟨m, hm, hvalue⟩ := List.mem_map.1 he
    cases m with
    | scalar s => cases s <;> cases hvalue
    | float => cases hvalue
    | element d =>
      cases hvalue
      exact e.hashable_names (h _ hm)

theorem setItems_iff : SetItems (made.map Member.toValue) ↔ Compatible made := by
  constructor
  · exact fun h => ⟨oneSort_iff.1 h.oneSort, lookedUp_iff.1 h.lookedUp⟩
  · refine fun h => ⟨fun v hv => ?_, oneSort_iff.2 h.sorts, lookedUp_iff.2 h.hashable⟩
    obtain ⟨m, -, rfl⟩ := List.mem_map.1 hv
    exact fitsSet_toValue m

end Items

section Faults

variable {items : Value} {values : List Value} {m : Misfit}

/-- Only the items decide what becomes of a collection. -/
theorem makeSet_eq_list (hitems : items.itemsFor .set = .ok values) :
    Element.makeSet items = Element.makeSet (.list values) := by
  rw [Element.makeSet, Element.makeSet, hitems]
  rfl

theorem SetFault.makeSet (h : SetFault values m) : Element.makeSet (.list values) = .error m := by
  cases h with
  | @item before after v hbefore hv =>
    have hmake : (before ++ v :: after).mapM Member.make = .error v.memberFault := by
      refine mapM_eq_error_iff.2 ⟨before, v, after, rfl, fun w hw => ?_, make_memberFault hv⟩
      obtain ⟨m, rfl⟩ := exists_toValue (hbefore w hw)
      exact ⟨m, make_toValue m⟩
    simp only [Element.makeSet, Value.itemsFor, Value.items, ok_bind, hmake]
    rfl
  | sorts hfit h =>
    obtain ⟨made, rfl⟩ := exists_members_of_fit hfit
    rw [oneSort_iff, Nat.not_le] at h
    rw [makeSet_of_members, if_pos h, sortsOf_toValue]
  | unhashable hfit hsort h =>
    obtain ⟨made, rfl⟩ := exists_members_of_fit hfit
    rw [oneSort_iff, ← Nat.not_lt] at hsort
    rw [findSome?_toValue] at h
    rw [makeSet_of_members, if_neg hsort, h, Option.elim_some]

/-- A collection becomes a set or has a first fault. -/
theorem setItems_or_fault (values : List Value) :
    SetItems values ∨ ∃ m, SetFault values m := by
  cases hmake : values.mapM Member.make with
  | error m =>
    obtain ⟨before, v, after, rfl, hbefore, hv⟩ := mapM_eq_error_iff.1 hmake
    refine .inr ⟨_, .item (fun w hw => ?_) fun hfit => ?_⟩
    · obtain ⟨z, hz⟩ := hbefore w hw
      exact toValue_of_make hz ▸ fitsSet_toValue z
    · obtain ⟨z, rfl⟩ := exists_toValue hfit
      rw [make_toValue] at hv
      cases hv
  | ok made =>
    obtain rfl : made.map Member.toValue = values :=
      map_eq_of_mapM hmake fun v _ m => toValue_of_make
    have hfit : ∀ v ∈ made.map Member.toValue, FitsSet v := by
      intro v hv
      obtain ⟨m, -, rfl⟩ := List.mem_map.1 hv
      exact fitsSet_toValue m
    by_cases hsort : OneSort (made.map Member.toValue)
    · cases hnames : (made.map Member.toValue).findSome? Value.unhashable? with
      | some k => exact .inr ⟨_, .unhashable hfit hsort hnames⟩
      | none =>
        rw [findSome?_toValue, anyUnhashable?_eq_none_iff] at hnames
        exact .inl ⟨hfit, hsort, lookedUp_iff.2 hnames⟩
    · exact .inr ⟨_, .sorts hfit hsort⟩

/-- The fault is the value of an item, and not a kind, just when the first item that does not fit
is a float. -/
theorem SetFault.notFinite_iff (h : SetFault values m) :
    (∃ source, m = .memberNotFinite source) ↔ ∃ before x after,
      values = before ++ .float x :: after ∧ (∀ w ∈ before, FitsSet w) ∧ ¬ FitsSet (.float x) := by
  constructor
  · rintro ⟨source, rfl⟩
    generalize hm : Misfit.memberNotFinite source = m at h
    cases h with
    | @item before after v hbefore hv =>
      cases v with
      | float x => exact ⟨before, x, after, rfl, hbefore, hv⟩
      | _ => cases hm
    | sorts | unhashable => cases hm
  · rintro ⟨before, x, after, rfl, hbefore, hx⟩
    have hfault := h.makeSet.symm.trans (SetFault.item hbefore hx).makeSet
    exact ⟨_, Except.error.inj hfault⟩

end Faults

section Keeping

variable {values : List Value} {kept made : List Member}

theorem form_toValue (m : Member) : m.toValue.form = m.form := by
  cases m with
  | scalar s => cases s <;> rfl
  | float | element => rfl

theorem equals_toValue (m n : Member) : m.toValue.equals n.toValue = true ↔ m.form = n.form := by
  rw [Value.equals, decide_eq_true_eq, form_toValue, form_toValue]

theorem keepsFirst_distinct (h : Compatible made) :
    KeepsFirst (made.map Member.toValue) (distinct Member.form made) := by
  have hnodup : ((distinct Member.form made).map Member.form).Nodup := nodup_distinctFrom [] made
  obtain ⟨hcompatible, hdistinct⟩ := compatible_of_makeSet (makeSet_toValue h)
  refine ⟨(distinctFrom_sublist _ [] made).map _, ?_, fun v hv => ?_, fun items hitems => ?_⟩
  · rw [List.Nodup, List.pairwise_map] at hnodup
    exact hnodup.imp fun hne => Bool.eq_false_iff.2 fun heq => hne ((equals_toValue _ _).1 heq)
  · obtain ⟨m, hm, rfl⟩ := List.mem_map.1 hv
    obtain ⟨k, hk, hfirst⟩ : ∃ k ∈ distinct Member.form made,
        made.find? (fun z => z.form = m.form) = some k :=
      find?_of_mem_distinctFrom hm List.not_mem_nil
    have hform : k.form = m.form := by simpa using List.find?_some hfirst
    refine ⟨k, hk, ?_, fun n hn hequal => ?_⟩
    · have hequals : ((·.equals m.toValue) ∘ Member.toValue) = fun z : Member =>
          decide (z.form = m.form) := by
        funext z
        simp only [Function.comp_apply, Value.equals, form_toValue]
      rw [List.find?_map, hequals, hfirst, Option.map_some]
    · exact List.inj_on_of_nodup_map hnodup hn hk (((equals_toValue n m).1 hequal).trans hform.symm)
  · rw [makeSet_eq_list hitems, makeSet_toValue hcompatible, hdistinct]

end Keeping

section Accepting

variable {items : Value} {values : List Value}

theorem itemsFor_eq (hitems : items.items = .ok values) (e : ElementKind)
    (h : ∀ s, items ≠ .text s) : items.itemsFor e = .ok values := by
  cases items with
  | text s => exact absurd rfl (h s)
  | _ => exact hitems

theorem SetItems.makeSet (h : SetItems values) :
    ∃ kept, Element.makeSet (.list values) = .ok (.set kept) ∧ KeepsFirst values kept := by
  obtain ⟨made, rfl⟩ := exists_members_of_fit h.fit
  have hcompatible := setItems_iff.1 h
  exact ⟨_, makeSet_toValue hcompatible, keepsFirst_distinct hcompatible⟩

/-- A single text is no collection; all else fails as its items do. -/
theorem makeSet_eq_error_iff (hitems : items.items = .ok values) {m : Misfit} :
    Element.makeSet items = .error m ↔ (∃ s, items = .text s ∧ m = .textAsItems .set) ∨
      (∀ s, items ≠ .text s) ∧ SetFault values m := by
  constructor
  · intro h
    by_cases htext : ∃ s, items = .text s
    · obtain ⟨s, rfl⟩ := htext
      cases h
      exact .inl ⟨s, rfl, rfl⟩
    · have hbare := not_exists.1 htext
      rw [makeSet_eq_list (itemsFor_eq hitems .set hbare)] at h
      refine .inr ⟨hbare, ?_⟩
      rcases setItems_or_fault values with hset | ⟨m', hfault⟩
      · obtain ⟨kept, hkept, -⟩ := hset.makeSet
        cases h.symm.trans hkept
      · cases h.symm.trans hfault.makeSet
        exact hfault
  · rintro (⟨s, rfl, rfl⟩ | ⟨hbare, hfault⟩)
    · rfl
    · rw [makeSet_eq_list (itemsFor_eq hitems .set hbare), hfault.makeSet]

theorem makeSet_eq_ok_iff (hitems : items.items = .ok values) :
    (∃ e, Element.makeSet items = .ok e) ↔ (∀ s, items ≠ .text s) ∧ SetItems values := by
  constructor
  · rintro ⟨e, he⟩
    have hnone : ∀ m, Element.makeSet items ≠ .error m := by simp [he]
    have hbare : ∀ s, items ≠ .text s := fun s hs =>
      hnone _ ((makeSet_eq_error_iff hitems).2 (.inl ⟨s, hs, rfl⟩))
    refine ⟨hbare, (setItems_or_fault values).resolve_right ?_⟩
    rintro ⟨m, hfault⟩
    exact hnone m ((makeSet_eq_error_iff hitems).2 (.inr ⟨hbare, hfault⟩))
  · rintro ⟨hbare, hset⟩
    obtain ⟨kept, hkept, -⟩ := hset.makeSet
    exact ⟨.set kept, (makeSet_eq_list (itemsFor_eq hitems .set hbare)).trans hkept⟩

/-- A collection becomes a set just when it is no text and its items fit together. Otherwise its
first fault is reported, which is a number that is not finite just when that is the first item
that does not fit. A set keeps the first of each of the equal items, and is made again from what
it keeps. -/
theorem makeSet_accepts (hitems : items.items = .ok values) :
    ((∃ e, Element.makeSet items = .ok e) ↔ (∀ s, items ≠ .text s) ∧ SetItems values) ∧
    (∀ m, Element.makeSet items = .error m ↔ (∃ s, items = .text s ∧ m = .textAsItems .set) ∨
      (∀ s, items ≠ .text s) ∧ SetFault values m) ∧
    (∀ m, Element.makeSet items = .error m →
      ((∃ source, m = .memberNotFinite source) ↔ ∃ before x after,
        values = before ++ .float x :: after ∧ (∀ w ∈ before, FitsSet w) ∧
          ¬ FitsSet (.float x))) ∧
    ∀ e, Element.makeSet items = .ok e → ∃ kept, e = .set kept ∧ KeepsFirst values kept := by
  refine ⟨makeSet_eq_ok_iff hitems, fun m => makeSet_eq_error_iff hitems, fun m hm => ?_,
    fun e he => ?_⟩
  · rcases (makeSet_eq_error_iff hitems).1 hm with ⟨s, rfl, rfl⟩ | ⟨-, hfault⟩
    · cases hitems
      refine iff_of_false (by simp) ?_
      rintro ⟨before, x, after, hvalues, -⟩
      have hmem : Value.float x ∈ s.toList.map fun c => Value.text (String.singleton c) :=
        hvalues ▸ List.mem_append_right before List.mem_cons_self
      simp at hmem
    · exact hfault.notFinite_iff
  · obtain ⟨hbare, hset⟩ := (makeSet_eq_ok_iff hitems).1 ⟨e, he⟩
    obtain ⟨kept, hkept, hkeeps⟩ := hset.makeSet
    rw [makeSet_eq_list (itemsFor_eq hitems .set hbare), hkept] at he
    cases he
    exact ⟨kept, rfl, hkeeps⟩

/-- A truth value, the integer that it equals, the same integer as an element, and another. -/
def mixture : List Value :=
  [.flag true, .int 1, .element (.scalar (.int 1)), .int 2]

/-- A number that is not finite, with no member behind it. -/
def unfit : List Value :=
  [.text "a", .float (.infinite false), .null]

theorem makeSet_accepts_mixture :
    Element.makeSet (.tuple mixture) =
        .ok (.set [.scalar (.flag true), .element (.scalar (.int 1)), .scalar (.int 2)]) ∧
      KeepsFirst mixture [.scalar (.flag true), .element (.scalar (.int 1)), .scalar (.int 2)] ∧
      Element.makeSet (.list unfit) =
        .error (.memberNotFinite (Value.float (.infinite false)).quoted) := by
  have hmade : Element.makeSet (.tuple mixture) =
      .ok (.set [.scalar (.flag true), .element (.scalar (.int 1)), .scalar (.int 2)]) := rfl
  have hitems : (Value.tuple mixture).items = .ok mixture := rfl
  obtain ⟨-, -, -, hkeeps⟩ := makeSet_accepts hitems
  obtain ⟨kept, hset, hkept⟩ := hkeeps _ hmade
  cases hset
  have hunfit : (Value.list unfit).items = .ok unfit := rfl
  obtain ⟨-, hfaults, -⟩ := makeSet_accepts hunfit
  have hfault : SetFault ([.text "a"] ++ .float (.infinite false) :: [.null])
      (Value.float (.infinite false)).memberFault := by
    refine .item (fun w hw => ?_) fun hfits => by cases hfits
    obtain rfl := List.mem_singleton.1 hw
    exact .text "a"
  exact ⟨hmade, hkept, (hfaults _).2 (.inr ⟨by simp, hfault⟩)⟩

end Accepting

end ModelData
