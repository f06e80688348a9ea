import ModelData.Yaml.Tagged
import ModelData.Yaml.Writer
import ModelData.Proofs.Number.Spelling
import ModelData.Proofs.Value.Traverse

/-! Numbers as plain scalars. What is written for an integer or a finite float is spelled as a
number of that kind, and stands for the number it was written for. -/

namespace ModelData.Yaml

open Binary64

variable {cs digits : List Char}

section Signs

/-- The sign of a number is told from its digits. -/
structure Unsigned (cs : List Char) : Prop where
  filled : cs ≠ []
  head : ∀ c ∈ cs.head?, c.isDigit = true

theorem Unsigned.exists_cons (h : Unsigned cs) :
    ∃ c tail, cs = c :: tail ∧ c.isDigit = true := by
  obtain ⟨c, tail, rfl⟩ := List.exists_cons_of_ne_nil h.filled
  exact ⟨c, tail, rfl, h.head c rfl⟩

theorem not_isDigit_of_mem {c : Char} (h : c.isDigit = true) :
    c ∉ ['-', '+', '.', '_', ':', 'e', 'E', 'b', 'x'] :=
  not_mem_of_all h (by decide)

theorem dropSign_signed (h : Unsigned cs) (negative : Bool) :
    dropSign (signed negative cs) = cs := by
  cases negative with
  | true => rfl
  | false =>
    obtain ⟨c, tail, rfl, hc⟩ := h.exists_cons
    have hne := not_isDigit_of_mem hc
    simp only [List.mem_cons, List.not_mem_nil, or_false, not_or] at hne
    rw [signed, if_neg Bool.false_ne_true, dropSign]
    · exact fun _ heq => hne.1 (List.cons.inj heq).1
    · exact fun _ heq => hne.2.1 (List.cons.inj heq).1

theorem isNegative_signed (h : Unsigned cs) (negative : Bool) :
    isNegative (signed negative cs) = negative := by
  cases negative with
  | true => rfl
  | false =>
    obtain ⟨c, tail, rfl, hc⟩ := h.exists_cons
    have hne := not_isDigit_of_mem hc
    simp only [List.mem_cons, List.not_mem_nil, or_false, not_or] at hne
    rw [signed, if_neg Bool.false_ne_true, isNegative]
    exact fun _ heq => hne.1 (List.cons.inj heq).1

theorem withoutMarks_eq (h : '_' ∉ cs) : withoutMarks cs = cs := by
  refine List.filter_eq_self.2 fun c hc => ?_
  simpa using fun heq : c = '_' => h (heq ▸ hc)

/-- The words with a meaning of their own do not start as a number does. -/
theorem isWord_signed {words : List String}
    (hwords : (words.all fun word => !word.toList.head?.any fun c => c = '-' || c.isDigit) = true)
    (h : Unsigned cs) (negative : Bool) : isWord words (signed negative cs) = false := by
  obtain ⟨c, tail, htext, hc⟩ := head_signed h.filled h.head negative
  rw [isWord, List.any_eq_false]
  intro word hword heq
  rw [htext, decide_eq_true_eq] at heq
  have hhead := List.all_eq_true.1 hwords word hword
  rw [← heq] at hhead
  rcases hc with rfl | hc
  · simp at hhead
  · simp [hc] at hhead

theorem plainKind_signed (h : Unsigned cs) (negative : Bool) :
    plainKind (signed negative cs) =
      if isFloat (signed negative cs) then .float
      else if isUnsignedInt cs then .int
      else if isDate (signed negative cs) then .date
      else if isMoment (signed negative cs) then .moment
      else if signed negative cs = ['<', '<'] then .merge
      else if signed negative cs = ['='] then .chief
      else .text := by
  rw [plainKind, isWord_signed (by decide) h, isWord_signed (by decide) h,
    isWord_signed (by decide) h, isInt, dropSign_signed h]
  rfl

end Signs

section Integers

theorem unsigned_ofNat (n : Nat) : Unsigned (Digits.ofNat n) := by
  obtain ⟨hne, hhead⟩ := head_digits (Digits.ofNat_ne_nil n)
    (fun _ hc => Digits.isDigit_of_mem_ofNat hc) []
  rw [List.append_nil] at hne hhead
  exact ⟨hne, hhead⟩

theorem not_mem_ofNat {c : Char} (hc : c.isDigit = false) (n : Nat) : c ∉ Digits.ofNat n := by
  intro hmem
  rw [Digits.isDigit_of_mem_ofNat hmem] at hc
  exact Bool.false_ne_true hc.symm

/-- There is no float without a point. -/
theorem isFloat_of_no_point (h : '.' ∉ cs) : isFloat cs = false := by
  have hdrop : '.' ∉ dropSign cs := by
    unfold dropSign
    split
    · exact fun hmem => h (List.mem_cons_of_mem _ hmem)
    · exact fun hmem => h (List.mem_cons_of_mem _ hmem)
    · exact h
  have hspan : (dropSign cs).span (fun c => decide (c ≠ '.')) = (dropSign cs, []) := by
    have hall := @span_append Char (fun c => decide (c ≠ '.')) (dropSign cs) []
      (fun c hc => by simpa using fun heq : c = '.' => hdrop (heq ▸ hc)) (by simp)
    rwa [List.append_nil] at hall
  have hfraction : isFraction cs = false := by
    unfold isFraction
    split
    · exact absurd List.mem_cons_self h
    · rfl
  have hinfinity : isInfinity cs = false := by
    rw [isInfinity, List.any_eq_false]
    intro word hword heq
    rw [decide_eq_true_eq] at heq
    have hpoint : ∀ word ∈ [".inf", ".Inf", ".INF"], '.' ∈ word.toList := by decide
    exact hdrop (heq ▸ hpoint word hword)
  have hnan : isNan cs = false := by
    rw [isNan, List.any_eq_false]
    intro word hword heq
    rw [decide_eq_true_eq] at heq
    have hpoint : ∀ word ∈ [".nan", ".NaN", ".NAN"], '.' ∈ word.toList := by decide
    exact h (heq ▸ hpoint word hword)
  simp only [isFloat, isPointed, isSixtyPointed, hspan, hfraction, hinfinity, hnan]
  rfl

theorem leading_ofNat {n : Nat} (hn : n ≠ 0) : ∃ c tail, Digits.ofNat n = c :: tail ∧
    c ≠ '0' ∧ isLeadingGroup (c :: tail) = true := by
  obtain ⟨c, tail, htext, hc⟩ := (unsigned_ofNat n).exists_cons
  have hzero : c ≠ '0' := by
    have hhead := Digits.head_ofNat hn
    rw [htext] at hhead
    simpa using hhead
  refine ⟨c, tail, htext, hzero, ?_⟩
  have htail : tail.all isDigitMark = true := by
    refine List.all_eq_true.2 fun d hd => ?_
    have hdigit : d.isDigit = true :=
      Digits.isDigit_of_mem_ofNat (n := n) (htext ▸ List.mem_cons_of_mem c hd)
    simp [isDigitMark, hdigit]
  have hbounds : '1' ≤ c ∧ c ≤ '9' := by
    simp only [Char.isDigit, Bool.and_eq_true, decide_eq_true_eq] at hc
    refine ⟨?_, hc.2⟩
    have hne : c.val ≠ '0'.val := fun heq => hzero (Char.ext heq)
    have hge := hc.1
    simp only [Char.le_def, UInt32.le_iff_toNat_le, ne_eq, ← UInt32.toNat_inj] at hne hge ⊢
    exact Nat.lt_of_le_of_ne hge (Ne.symm hne)
  simp [isLeadingGroup, hbounds, htail]

theorem isUnsignedInt_ofNat (n : Nat) : isUnsignedInt (Digits.ofNat n) = true := by
  by_cases hn : n = 0
  · rw [hn]
    rfl
  obtain ⟨c, tail, htext, hzero, hleading⟩ := leading_ofNat hn
  have hcolon : splitColons (c :: tail) = [c :: tail] :=
    List.splitOn_eq_singleton (htext ▸ not_mem_ofNat (by decide) n)
  rw [htext, isUnsignedInt]
  · rw [hcolon]
    exact hleading
  · exact fun _ heq => hzero (List.cons.inj heq).1
  · exact fun _ heq => hzero (List.cons.inj heq).1
  · exact fun _ heq => hzero (List.cons.inj heq).1

theorem plainKind_int (i : Int) : plainKind (Digits.ofInt i) = .int := by
  have hpoint : '.' ∉ signed (decide (i < 0)) (Digits.ofNat i.natAbs) := by
    intro hmem
    rcases mem_signed hmem with heq | hmem
    · exact absurd heq (by decide)
    · exact not_mem_ofNat (by decide) _ hmem
  rw [ofInt_eq_signed, plainKind_signed (unsigned_ofNat _), isFloat_of_no_point hpoint,
    isUnsignedInt_ofNat]
  rfl

theorem unsignedIntValue_ofNat (n : Nat) : unsignedIntValue (Digits.ofNat n) = .ok n := by
  by_cases hn : n = 0
  · rw [hn]
    rfl
  obtain ⟨c, tail, htext, hzero, -⟩ := leading_ofNat hn
  have hcolon : splitColons (c :: tail) = [c :: tail] :=
    List.splitOn_eq_singleton (htext ▸ not_mem_ofNat (by decide) n)
  have hvalue := Digits.toNat_ofNat n
  rw [htext] at hvalue ⊢
  rw [unsignedIntValue]
  · simp [hcolon, sixtiesValue, hvalue]
  · exact fun _ heq => hzero (List.cons.inj heq).1
  · exact fun _ heq => hzero (List.cons.inj heq).1
  · exact fun _ heq => hzero (List.cons.inj heq).1

theorem intValue_int (i : Int) : intValue (Digits.ofInt i) = .ok i := by
  have hmark : '_' ∉ signed (decide (i < 0)) (Digits.ofNat i.natAbs) := by
    intro hmem
    rcases mem_signed hmem with heq | hmem
    · exact absurd heq (by decide)
    · exact not_mem_ofNat (by decide) _ hmem
  simp only [ofInt_eq_signed, intValue, withoutMarks_eq hmark,
    dropSign_signed (unsigned_ofNat _), isNegative_signed (unsigned_ofNat _),
    unsignedIntValue_ofNat, ok_bind]
  exact congrArg Except.ok (signed_natAbs i)

end Integers

section Floats

theorem Literal.unsigned (l : Literal) : Unsigned l.text := by
  obtain ⟨hne, hhead⟩ := head_digits l.whole_ne_nil l.isDigit_whole (l.fraction ++ l.powerText)
  rw [← List.append_assoc] at hne hhead
  exact ⟨hne, hhead⟩

theorem isPower_powerText (l : Literal) : isPower l.powerText = true := by
  unfold Literal.powerText
  cases hpower : l.power with
  | none => rfl
  | some p =>
    obtain ⟨negative, ds⟩ := p
    have hne := l.power_ne_nil _ hpower
    have hds := List.all_eq_true.2 (l.isDigit_power _ hpower)
    cases negative <;> simp [isPower, Literal.signChar, hds, hne]

theorem isDigitMark_of_isDigit {c : Char} (h : c.isDigit = true) : isDigitMark c = true := by
  simp [isDigitMark, h]

/-- A literal with digits behind its point is spelled as a float. -/
theorem isPointed_text {l : Literal} (h : l.digits ≠ []) : isPointed l.text = true := by
  have htext : l.text = l.whole ++ '.' :: (l.digits ++ l.powerText) := by
    simp [Literal.text, Literal.fraction, h]
  have hspan : l.text.span (fun c => decide (c ≠ '.')) =
      (l.whole, '.' :: (l.digits ++ l.powerText)) := by
    rw [htext]
    refine span_append (fun c hc => ?_) (by simp)
    have hne := not_isDigit_of_mem (l.isDigit_whole c hc)
    simp only [List.mem_cons, List.not_mem_nil, or_false, not_or] at hne
    simpa using hne.2.2.1
  have hgroup : isDigitGroup l.whole = true := by
    obtain ⟨c, tail, hwhole⟩ := List.exists_cons_of_ne_nil l.whole_ne_nil
    have hdigits := l.isDigit_whole
    rw [hwhole] at hdigits ⊢
    have htail : tail.all isDigitMark = true :=
      List.all_eq_true.2 fun d hd => isDigitMark_of_isDigit (hdigits d (List.mem_cons_of_mem c hd))
    simp [isDigitGroup, hdigits c, htail]
  have hafter : afterMarks (l.digits ++ l.powerText) = l.powerText := by
    rw [afterMarks, List.dropWhile_append_of_pos
      fun c hc => isDigitMark_of_isDigit (l.isDigit_digits c hc)]
    have hhead := l.powerText_head
    cases hpower : l.powerText with
    | nil => rfl
    | cons c tail =>
      rw [hpower] at hhead
      obtain rfl := hhead c rfl
      rfl
  simp only [isPointed, hspan, hgroup, hafter, isPower_powerText, Bool.and_self]

theorem negate_ofRatio (negative : Bool) (num den : Nat) :
    (ofRatio negative num den).negate = ofRatio (!negative) num den := by
  unfold ofRatio
  dsimp only
  by_cases h : nearest num den < rankCount
  · rw [dif_pos h, dif_pos h, negate]
  · rw [dif_neg h, dif_neg h, negate]

theorem negate_ofDecimal (negative : Bool) (d : Decimal) :
    (ofDecimal negative d).negate = ofDecimal (!negative) d := by
  unfold ofDecimal
  dsimp only
  split
  · rw [negate]
  split
  · rw [negate]
  · exact negate_ofRatio _ _ _

/-- A finite float is a literal with digits behind its point. -/
theorem exists_literal_float (x : Finite) : ∃ l : Literal, l.digits ≠ [] ∧
    x.spell floatStyle = signed x.negative l.text ∧
    ofDecimal x.negative l.decimal = .finite x := by
  obtain ⟨l, htext, hsame, hdigits, -⟩ := exists_literal floatStyle x.rank
  exact ⟨l, hdigits rfl, by rw [Finite.spell, htext], ofDecimal_of_same_shortest x hsame⟩

theorem plainKind_float (x : Finite) : plainKind (x.spell floatStyle) = .float := by
  obtain ⟨l, hdigits, htext, -⟩ := exists_literal_float x
  have hfloat : isFloat (signed x.negative l.text) = true := by
    simp only [isFloat, dropSign_signed (Literal.unsigned l), isPointed_text hdigits,
      Bool.true_or]
  rw [htext, plainKind_signed (Literal.unsigned l), hfloat, if_pos rfl]

theorem signed_ofDecimal (negative : Bool) (d : Decimal) :
    (if negative = true then (ofDecimal false d).negate else ofDecimal false d) =
      ofDecimal negative d := by
  cases negative with
  | true => rw [if_pos rfl, negate_ofDecimal, Bool.not_false]
  | false => rw [if_neg Bool.false_ne_true]

theorem not_mem_literal (l : Literal) {c : Char}
    (hc : c ∉ ['.', 'e', '+', '-'] ∧ c.isDigit = false) : c ∉ l.text := by
  intro hmem
  rcases l.mem_text hmem with hmark | hdigit
  · exact hc.1 hmark
  · rw [hc.2] at hdigit
    exact Bool.false_ne_true hdigit

theorem not_mem_signed (l : Literal) {c : Char}
    (hc : c ∉ ['.', 'e', '+', '-'] ∧ c.isDigit = false) (negative : Bool) :
    c ∉ signed negative l.text := by
  intro hmem
  rcases mem_signed hmem with rfl | hmem
  · exact hc.1 (by simp)
  · exact not_mem_literal l hc hmem

/-- A text without the letter is none of the words for no number or an infinite one. -/
theorem not_word {words : List String} {text : List Char}
    (hwords : ∀ word ∈ words, 'n' ∈ word.toList ∨ 'N' ∈ word.toList)
    (hlower : 'n' ∉ text) (hupper : 'N' ∉ text) :
    (words.any fun word => decide (text = word.toList)) = false := by
  rw [List.any_eq_false]
  intro word hmem heq
  rw [decide_eq_true_eq] at heq
  rcases hwords word hmem with h | h
  · exact hlower (heq ▸ h)
  · exact hupper (heq ▸ h)

theorem floatValue_float (x : Finite) : floatValue (x.spell floatStyle) = .ok (.finite x) := by
  obtain ⟨l, hdigits, htext, hvalue⟩ := exists_literal_float x
  have hunsigned := Literal.unsigned l
  have hnan : isNan (signed x.negative l.text) = false :=
    not_word (by decide) (not_mem_signed l (by decide) _) (not_mem_signed l (by decide) _)
  have hinfinity : isInfinity (signed x.negative l.text) = false := by
    rw [isInfinity, dropSign_signed hunsigned]
    exact not_word (by decide) (not_mem_literal l (by decide)) (not_mem_literal l (by decide))
  have hmarks := withoutMarks_eq (@not_mem_signed l '_' (by decide) x.negative)
  have hcolon : l.text.contains ':' = false := by
    simpa using @not_mem_literal l ':' (by decide)
  have hgroup : groupFloat l.text = ofDecimal false l.decimal := by
    rw [groupFloat, l.readDecimal?_text]
    rfl
  have hsign := (signed_ofDecimal x.negative l.decimal).trans hvalue
  rw [htext, floatValue]
  simp only [hmarks, dropSign_signed hunsigned, isNegative_signed hunsigned, hnan, hinfinity,
    hcolon, hgroup, ok_bind, Bool.false_eq_true, if_false, hsign]
  rfl

end Floats

end ModelData.Yaml
