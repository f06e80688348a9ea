import ModelData.Proofs.Dat.Bodies
import ModelData.Proofs.Dat.Collapsing

/-!
Which members of a set read the same. Where all words are identifiers two members have the same
text, in any layout, just when they have the same normal form. A set keeps no two equal members,
but a bare number is not equal to the same number as an element, and both are written alike. So
the texts of the members differ if a set and all that it holds have their numbers in one of the
two spellings.
-/

namespace ModelData

/-- Whether a number stands in a set as an element, for a member that is a number. -/
def Member.boxed? : Member → Option Bool
  | .scalar (.text _) | .element (.scalar (.text _)) => none
  | .scalar _ | .float _ => some false
  | .element (.scalar _) | .element (.float _) => some true
  | .element _ => none

/-- All numbers in the node, if it is a set, stand there as elements, or none of them does. -/
def Element.SpelledAlike (boxed : Bool) (e : Element) : Prop :=
  ∀ members, e = .set members → ∀ m ∈ members, ∀ b ∈ m.boxed?, b = boxed

namespace Dat

section Norms

theorem writeMember_norm {layout : Layout} {m : Member}
    (h : ∀ e, m = .element e → write layout e.norm = write layout e) :
    writeMember layout m.norm = writeMember layout m := by
  cases m with
  | scalar s => cases s <;> rfl
  | float => rfl
  | element e => exact h e rfl

/-- An element is written like its normal form. -/
theorem write_norm (layout : Layout) (e : Element) : write layout e.norm = write layout e := by
  induction e using Element.childInduction generalizing layout with
  | step e ih =>
    cases e with
    | scalar s => exact scalarLiteral_norm s
    | float | custom => rfl
    | set members =>
      rw [Element.norm_set, write, write, writeMembers_eq_map, writeMembers_eq_map, List.map_map]
      refine congrArg _ (List.map_congr_left fun m hm => writeMember_norm ?_)
      rintro e rfl
      exact ih e (Element.mem_children_of_member hm) layout.inner
    | tuple items =>
      rw [Element.norm_tuple, write, write, writeItems_eq_map, writeItems_eq_map, List.map_map]
      exact congrArg _ (List.map_congr_left fun e he => ih e he layout.inner)
    | array entries =>
      rw [Element.norm_array, write, write, writeEntries_eq_map, writeEntries_eq_map,
        List.map_map]
      refine congrArg _ (List.map_congr_left fun n hn => ?_)
      have helement := ih n.element (Element.mem_children_of_entry hn) layout.inner
      obtain ⟨name, e⟩ := n
      exact congrArg (name.chars ++ ':' :: ' ' :: ·) helement

/-- Without counts of spaces everything stands on one line. -/
theorem write_broken (width level : Value) (e : Element) :
    write (.broken width level) e = write .compact e := by
  induction e using Element.childInduction generalizing level with
  | step e ih =>
    have htexts : (pieces e).map (Piece.text (Layout.broken width level).inner) =
        (pieces e).map (Piece.text Layout.compact.inner) := by
      refine List.map_congr_left fun p hp => ?_
      cases hd : p.element with
      | none => simp [Piece.text, hd]
      | some d =>
        have hchild := ih d (mem_children_of_mem_pieces hp hd) (levelAfter level)
        simp only [Piece.text, hd, Option.elim, Layout.inner, hchild]
    rw [write_eq_wrap, write_eq_wrap, htexts]
    cases (pieces e).map (Piece.text Layout.compact.inner) <;> rfl

end Norms

section Texts

variable {layout : Layout} {members : List Member} {m n : Member}

theorem joined_layout (layout : Layout) {e : Element} (h : e.Everywhere KeepsLines) :
    joined (write layout e) = write .compact e := by
  have hline : joined (write .compact e) = write .compact e := by
    simpa [joined_nil] using joined_compact h []
  cases layout with
  | compact => exact hline
  | pretty width level => simpa [joined_nil] using joined_write width level h []
  | broken width level => rw [write_broken, hline]

/-- Without line breaks a member has its text on one line. -/
theorem joined_member (layout : Layout) (h : (Element.set members).Everywhere KeepsLines)
    (hm : m ∈ members) : joined (writeMember layout m) = writeMember .compact m := by
  cases m with
  | element e => exact joined_layout layout (h.inside (Element.mem_children_of_member hm))
  | scalar | float =>
    have hlead := h.here.lead (List.mem_map_of_mem hm)
    have hjoined := joined_line hlead.1 []
    rw [List.append_nil, joined_nil, List.append_nil] at hjoined
    exact hjoined

theorem ends_nil : Ends [] := by
  simp [Ends]

/-- The normal form of a member can be read from its text on one line. -/
theorem read_legible (h : (Element.set members).Everywhere Legible) (hm : m ∈ members) :
    read ((write .compact (.set members)).length + 1) (writeMember .compact m) =
      some (m.norm, []) := by
  have hread := read_member h.here (fun d hd rest hrest =>
    read_write (h.inside hd) (Nat.lt_succ_of_lt (length_write_child hd)) hrest) hm ends_nil
  rwa [List.append_nil] at hread

/-- Two members read the same, in any layout, just when they have the same normal form. -/
theorem writeMember_eq_iff (h : (Element.set members).Everywhere Legible) (hm : m ∈ members)
    (hn : n ∈ members) : writeMember layout m = writeMember layout n ↔ m.norm = n.norm := by
  constructor
  · intro htexts
    have hlines := h.mono fun _ => Legible.keepsLines
    have hline := congrArg joined htexts
    rw [joined_member layout hlines hm, joined_member layout hlines hn] at hline
    have hread := read_legible h hm
    rw [hline, read_legible h hn] at hread
    exact (Prod.mk.inj (Option.some.inj hread)).1.symm
  · intro hnorm
    rw [← writeMember_norm fun e _ => write_norm layout e, hnorm,
      writeMember_norm fun e _ => write_norm layout e]

end Texts

section Spelling

open Element (SpelledAlike)

variable {boxed : Bool} {m n : Member}

/-- Bare literals with one normal form are equal. -/
theorem form_eq_of_bare (hm : m.element? = none) (hn : n.element? = none)
    (h : m.norm = n.norm) : m.form = n.form := by
  cases m with
  | element => cases hm
  | scalar a =>
    cases n with
    | element => cases hn
    | float => cases a <;> cases h
    | scalar b =>
      cases a <;> cases b <;> simp_all [Member.norm, Scalar.norm, Member.form, Scalar.form, flagForm,
        flagInt]
  | float x =>
    cases n with
    | element => cases hn
    | scalar b => cases b <;> cases h
    | float y =>
      cases h
      rfl

/-- An element with a number as its normal form is a number. -/
theorem boxed_of_norm_int {d : Element} {i : Int} (h : d.norm = .scalar (.int i)) :
    (Member.element d).boxed? = some true := by
  cases d with
  | scalar b =>
    cases b with
    | text => cases h
    | int | flag => rfl
  | _ => cases h

/-- A bare literal and an element have one normal form only if they are a number, spelled in two
ways. -/
theorem boxed_of_norm {d : Element} (hm : m.element? = none)
    (h : m.norm = (Member.element d).norm) :
    m.boxed? = some false ∧ (Member.element d).boxed? = some true := by
  cases m with
  | element => cases hm
  | scalar a =>
    cases a with
    | text => cases h
    | int | flag => exact ⟨rfl, boxed_of_norm_int (Member.element.inj h).symm⟩
  | float x =>
    cases d with
    | float => exact ⟨rfl, rfl⟩
    | _ => cases h

theorem form_eq_of_spelled (hm : ∀ b ∈ m.boxed?, b = boxed) (hn : ∀ b ∈ n.boxed?, b = boxed)
    (helements : ∀ e d, m = .element e → n = .element d → e.norm = d.norm → e.form = d.form)
    (h : m.norm = n.norm) : m.form = n.form := by
  cases hbare : m.element? with
  | none =>
    cases n with
    | scalar | float => exact form_eq_of_bare hbare rfl h
    | element d =>
      -- one number in both spellings, of which only one is used
      obtain ⟨hfirst, hsecond⟩ := boxed_of_norm hbare h
      cases (hm false hfirst).trans (hn true hsecond).symm
  | some e =>
    obtain rfl : m = .element e := by
      cases m <;> cases hbare
      rfl
    cases n with
    | element d => exact helements e d rfl rfl (Member.element.inj h)
    | scalar | float =>
      obtain ⟨hfirst, hsecond⟩ := boxed_of_norm rfl h.symm
      cases (hn false hfirst).trans (hm true hsecond).symm

/-- Elements with one normal form whose numbers are spelled alike are equal. -/
theorem form_eq_of_norm {e d : Element} (he : e.Everywhere (SpelledAlike boxed))
    (hd : d.Everywhere (SpelledAlike boxed)) (h : e.norm = d.norm) : e.form = d.form := by
  induction he generalizing d with
  | @intro e here _ ih =>
    cases e with
    | scalar a =>
      cases d <;> simp only [Element.norm, reduceCtorEq, Element.scalar.injEq] at h
      rw [Element.form, Element.form, ← a.form_norm, h, Scalar.form_norm]
    | float x =>
      cases d <;> simp only [Element.norm, reduceCtorEq, Element.float.injEq] at h
      rw [h]
    | custom kind label =>
      cases d <;> cases h
      rfl
    | set members =>
      cases d <;> simp only [Element.norm, reduceCtorEq, Element.set.injEq] at h
      next members' =>
        rw [Member.norms_eq_map, Member.norms_eq_map] at h
        rw [Element.form, Element.form, Member.forms_eq_map, Member.forms_eq_map]
        refine congrArg _ (map_eq_of_map_eq h fun m hm n hn hnorm => ?_)
        refine form_eq_of_spelled (here _ rfl m hm) (hd.here _ rfl n hn) ?_ hnorm
        rintro c c' rfl rfl hnorm
        exact ih c (Element.mem_children_of_member hm)
          (hd.inside (Element.mem_children_of_member hn)) hnorm
    | tuple items =>
      cases d <;> simp only [Element.norm, reduceCtorEq, Element.tuple.injEq] at h
      next items' =>
        rw [Element.norms_eq_map, Element.norms_eq_map] at h
        rw [Element.form, Element.form, Element.forms_eq_map, Element.forms_eq_map]
        exact congrArg _ (map_eq_of_map_eq h fun c hc c' hc' => ih c hc (hd.inside hc'))
    | array entries =>
      cases d <;> simp only [Element.norm, reduceCtorEq, Element.array.injEq] at h
      next entries' =>
        rw [Binding.norms_eq_map, Binding.norms_eq_map] at h
        rw [Element.form, Element.form, Binding.forms_eq_map, Binding.forms_eq_map]
        refine congrArg _ (map_eq_of_map_eq h fun n hn n' hn' hnorm => ?_)
        have helement := ih n.element (Element.mem_children_of_entry hn)
          (hd.inside (Element.mem_children_of_entry hn'))
        obtain ⟨name, c⟩ := n
        obtain ⟨name', c'⟩ := n'
        simp only [Binding.norm, Binding.mk.injEq] at hnorm
        rw [Binding.form, Binding.form, hnorm.1, helement hnorm.2]

end Spelling

/-- The members that a set keeps are written between its brackets. Two of them read the same only
if they have the same normal form, and if all numbers in the set are spelled alike no two do. -/
theorem makeSet_texts_differ {items : Value} {kept : List Member}
    (hset : Element.makeSet items = .ok (.set kept))
    (hlegible : (Element.set kept).Everywhere Legible) (layout : Layout) :
    (∀ text, render layout (.set kept) = .ok text →
      text = layout.wrap ['\x7b'] ['\x7d'] (kept.map (writeMember layout.inner))) ∧
    (∀ m ∈ kept, ∀ n ∈ kept, writeMember layout m = writeMember layout n ↔ m.norm = n.norm) ∧
    ∀ boxed, (Element.set kept).Everywhere (Element.SpelledAlike boxed) →
      kept.Pairwise fun m n => writeMember layout m ≠ writeMember layout n := by
  refine ⟨fun text htext => ?_, fun m hm n hn => writeMember_eq_iff hlegible hm hn,
    fun boxed hspelled => ?_⟩
  · unfold render at htext
    split at htext <;> cases htext
    rw [write, writeMembers_eq_map]
  · have hnodup : ((distinct Member.form kept).map Member.form).Nodup :=
      nodup_distinctFrom [] kept
    rw [(compatible_of_makeSet hset).2, List.Nodup, List.pairwise_map] at hnodup
    refine hnodup.imp_of_mem fun hm hn hne htexts => hne ?_
    refine form_eq_of_spelled (hspelled.here _ rfl _ hm) (hspelled.here _ rfl _ hn) ?_
      ((writeMember_eq_iff hlegible hm hn).1 htexts)
    rintro e d rfl rfl hnorm
    exact form_eq_of_norm (hspelled.inside (Element.mem_children_of_member hm))
      (hspelled.inside (Element.mem_children_of_member hn)) hnorm

/-- The number one, without an element around it and with one. -/
def spellings : List Member :=
  [.scalar (.int 1), .element (.scalar (.int 1))]

/-- The number one beside a set that holds it. -/
def nest : List Member :=
  [.scalar (.int 1), .element (.set [.scalar (.int 1)])]

theorem legible_of_wordless {e : Element} (hknown : e.isForeign = false) (hkeys : e.keys = [])
    (hwords : e.words = []) : Legible e :=
  ⟨hknown, by simp [hkeys], by simp [hwords]⟩

/-- The number in its two spellings is kept twice and reads the same. Spelled alike, it reads
otherwise than a set that holds it. -/
theorem makeSet_texts_differ_spellings :
    Element.makeSet (.list (spellings.map Member.toValue)) = .ok (.set spellings) ∧
      (∀ text, render .compact (.set spellings) = .ok text → text = "\x7b1,1\x7d".toList) ∧
      (∀ layout, writeMember layout (.scalar (.int 1)) =
        writeMember layout (.element (.scalar (.int 1)))) ∧
      Element.makeSet (.list (nest.map Member.toValue)) = .ok (.set nest) ∧
      ∀ layout, nest.Pairwise fun m n => writeMember layout m ≠ writeMember layout n := by
  have hspellings : (Element.set spellings).Everywhere Legible := by
    refine .intro (legible_of_wordless rfl rfl rfl) fun d hd => ?_
    obtain rfl := List.mem_singleton.1 hd
    exact .leaf (legible_of_wordless rfl rfl rfl) rfl
  have hnest : (Element.set nest).Everywhere Legible := by
    refine .intro (legible_of_wordless rfl rfl rfl) fun d hd => ?_
    obtain rfl := List.mem_singleton.1 hd
    exact .leaf (legible_of_wordless rfl rfl rfl) rfl
  have halike : (Element.set nest).Everywhere (Element.SpelledAlike false) := by
    refine .intro (fun members hmembers => ?_) fun d hd => ?_
    · cases hmembers
      simp [nest, Member.boxed?]
    · obtain rfl := List.mem_singleton.1 hd
      refine .leaf (fun members hmembers => ?_) rfl
      cases hmembers
      simp [Member.boxed?]
  have hkept : Element.makeSet (.list (spellings.map Member.toValue)) = .ok (.set spellings) := rfl
  have hkeptNest : Element.makeSet (.list (nest.map Member.toValue)) = .ok (.set nest) := rfl
  refine ⟨hkept, (makeSet_texts_differ hkept hspellings .compact).1, fun layout => ?_, hkeptNest,
    fun layout => (makeSet_texts_differ hkeptNest hnest layout).2.2 false halike⟩
  obtain ⟨-, hsame, -⟩ := makeSet_texts_differ hkept hspellings layout
  exact (hsame _ List.mem_cons_self _ (List.mem_cons_of_mem _ List.mem_cons_self)).2 rfl

end Dat

end ModelData
