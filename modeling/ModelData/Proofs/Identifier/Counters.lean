import ModelData.Proofs.Identifier.Grammar
import ModelData.Proofs.Text.Lists

/-!
What a counter identifier tells. The last underscore ends the stem, since no counter holds one, and
what is behind it reads as the count whatever the width; so two of them are the same only if both
the stem and the count are. Counts that fit the width are in the order of their identifiers.
-/

namespace ModelData.Identifier

section Counts

/-- The count that a spelling stands for. -/
def countOf : List Char → Int
  | '-' :: digits => -(Digits.toNat digits : Int)
  | digits => Digits.toNat digits

theorem not_mem_padded (width : Nat) (i : Int) : '_' ∉ Digits.padded width i := by
  intro h
  rcases Digits.mem_padded h with h | h
  · exact absurd h (by decide)
  · exact absurd h (by decide)

/-- A count is read back whatever the width that it was filled up to. -/
theorem countOf_padded (width : Nat) (i : Int) : countOf (Digits.padded width i) = i := by
  cases i with
  | ofNat n =>
    change countOf (Digits.padded width n) = n
    unfold countOf
    split
    · next digits heq =>
      have hmem : '-' ∈ Digits.padded width n := heq ▸ List.mem_cons_self
      cases Digits.isDigit_of_mem_padded hmem
    · rw [Digits.toNat_padded]
  | negSucc n =>
    change -(Digits.toNat (Digits.padded (width - 1) (n + 1 : Nat)) : Int) = Int.negSucc n
    rw [Digits.toNat_padded]
    rfl

end Counts

section Counters

variable {stem stem' s t : String} {i i' : Int} {width width' : Nat}

/-- An identifier of a counter is the stem, an underscore and the count. -/
theorem counterOf_eq_ok_iff : counterOf (.text stem) (.int i) (.int width) = .ok s ↔
    width < CounterForm.countLimit ∧ s.toList = stem.toList ++ '_' :: Digits.padded width i := by
  rw [counterOf_eq, ← toList_counter, String.toList_inj]
  split
  · next hlimit => simp [Nat.not_lt.2 hlimit]
  · next hlimit => simp [Nat.lt_of_not_le hlimit, eq_comm]

theorem eq_of_counterOf_eq (h : counterOf (.text stem) (.int i) (.int width) = .ok s)
    (h' : counterOf (.text stem') (.int i') (.int width') = .ok s) : stem = stem' ∧ i = i' := by
  have htext := (counterOf_eq_ok_iff.1 h).2.symm.trans (counterOf_eq_ok_iff.1 h').2
  obtain ⟨hstem, hcount⟩ :=
    eq_of_append_cons_eq (not_mem_padded width i) (not_mem_padded width' i') htext
  refine ⟨String.toList_inj.1 hstem, ?_⟩
  rw [← countOf_padded width i, hcount, countOf_padded]

theorem counterOf_lt {i j : Nat} (hij : i < j) (hj : j < 10 ^ width)
    (h : counterOf (.text stem) (.int i) (.int width) = .ok s)
    (h' : counterOf (.text stem) (.int j) (.int width) = .ok t) : s < t := by
  rw [String.lt_iff, (counterOf_eq_ok_iff.1 h).2, (counterOf_eq_ok_iff.1 h').2]
  exact List.append_left_lt (List.cons_lt_cons_iff.2 (.inr ⟨rfl, Digits.padded_lt hij hj⟩))

/-- A count past all that fit the width is filled up with no zeros. -/
theorem zeros_of_pow_le {n : Nat} (h : 10 ^ width ≤ n) : width - (Digits.ofNat n).length = 0 := by
  have hlonger : width < (Digits.ofNat n).length :=
    (Nat.pow_lt_pow_iff_right (by decide)).1 (Nat.lt_of_le_of_lt h (Digits.lt_pow_length n))
  exact Nat.sub_eq_zero_of_le (Nat.le_of_lt hlonger)

/-- A truth value counts as zero or one. -/
theorem counterOf_flag (stem : String) (b : Bool) (width : Nat) :
    counterOf (.text stem) (.flag b) (.int width) =
      counterOf (.text stem) (.int (if b then 1 else 0)) (.int width) := by
  have hspelling : (Value.int width).chars = Digits.ofNat width := rfl
  simp only [counterOf, integerCounter, hspelling, CounterForm.read_ofNat]

/-- Every stem and count has an identifier in every width below the limit. It tells the stem and the
count, even without the width, and it keeps the order of counts from zero on that fit the width. Of
such a count it has all the digits, with zeros in front of them only if the count fits; and behind a
name, or behind nothing, it is a name. -/
theorem counters_tell_and_sort :
    (∀ (stem : String) (i : Int) (width : Nat), width < 2 ^ 63 →
      ∃ s, counterOf (.text stem) (.int i) (.int width) = .ok s) ∧
    (∀ (stem : String) (b : Bool) (width : Nat),
      counterOf (.text stem) (.flag b) (.int width) =
        counterOf (.text stem) (.int (if b then 1 else 0)) (.int width)) ∧
    (∀ (stem stem' : String) (i i' : Int) (width width' : Nat) (s : String),
      counterOf (.text stem) (.int i) (.int width) = .ok s →
      counterOf (.text stem') (.int i') (.int width') = .ok s → stem = stem' ∧ i = i') ∧
    (∀ (stem s t : String) (i j width : Nat), i < j → j < 10 ^ width →
      counterOf (.text stem) (.int i) (.int width) = .ok s →
      counterOf (.text stem) (.int j) (.int width) = .ok t → s < t) ∧
    ∀ (stem s : String) (i width : Nat),
      counterOf (.text stem) (.int i) (.int width) = .ok s →
      (∃ zeros, s.toList =
          stem.toList ++ '_' :: (List.replicate zeros '0' ++ Digits.ofNat i) ∧
        (10 ^ width ≤ i → zeros = 0)) ∧
      (stem = "" ∨ InGrammar stem.toList → InGrammar s.toList ∧ isValid (.text s) = true) := by
  refine ⟨fun stem i width hwidth => ?_, counterOf_flag, fun stem stem' i i' width width' s =>
    eq_of_counterOf_eq, fun stem s t i j width => counterOf_lt, fun stem s i width h => ?_⟩
  · exact ⟨counter stem i { width }, counterOf_eq_ok_iff.2 ⟨hwidth, toList_counter stem i width⟩⟩
  · obtain ⟨hwidth, htext⟩ := counterOf_eq_ok_iff.1 h
    refine ⟨⟨_, Digits.padded_eq width i ▸ htext, zeros_of_pow_le⟩, fun hstem => ?_⟩
    rw [counterOf_int hwidth, Except.ok.injEq] at h
    have hname : isName (numbered stem width i).toList = true :=
      isName_numbered (hstem.imp_right isName_iff_inGrammar.2) i
    rw [h] at hname
    exact ⟨isName_iff_inGrammar.1 hname, isValid_of_isName hname⟩

/-- The identifiers of two counts that fit a width and of one that does not, and two identifiers
that differ only in where the stem ends. -/
theorem counters_tell_and_sort_steps :
    counterOf (.text "step") (.int (7 : Nat)) (.int (2 : Nat)) = .ok "step_07" ∧
    counterOf (.text "step") (.int (12 : Nat)) (.int (2 : Nat)) = .ok "step_12" ∧
    "step_07" < "step_12" ∧ InGrammar "step_12".toList ∧
    (∃ s, counterOf (.text "step") (.int (100 : Nat)) (.int (2 : Nat)) = .ok s ∧
      s.toList = "step".toList ++ '_' :: Digits.ofNat 100) ∧
    counterOf (.text "n") (.int (-7)) (.int (4 : Nat)) = .ok "n_-007" ∧
    ∀ (i : Int) (width : Nat),
      counterOf (.text "step_0") (.int i) (.int width) ≠ .ok "step_12" := by
  obtain ⟨hexists, -, htell, hsort, hshape⟩ := counters_tell_and_sort
  have hseven : counterOf (.text "step") (.int (7 : Nat)) (.int (2 : Nat)) = .ok "step_07" := rfl
  have htwelve : counterOf (.text "step") (.int (12 : Nat)) (.int (2 : Nat)) = .ok "step_12" := rfl
  have hname : InGrammar "step".toList := isName_iff_inGrammar.1 (by decide)
  obtain ⟨s, hs⟩ := hexists "step" (100 : Nat) 2 (by decide)
  obtain ⟨⟨zeros, hdigits, hzeros⟩, -⟩ := hshape _ _ _ _ hs
  obtain rfl := hzeros (by decide)
  refine ⟨hseven, htwelve, hsort _ _ _ 7 12 2 (by decide) (by decide) hseven htwelve,
    ((hshape _ _ _ _ htwelve).2 (.inr hname)).1,
    ⟨s, hs, hdigits⟩, rfl, fun i width h => ?_⟩
  exact absurd (htell _ _ _ _ _ _ _ h htwelve).1 (by decide)

end Counters

end ModelData.Identifier
