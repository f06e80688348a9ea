import ModelData.Number.Literal
import ModelData.Proofs.Number.Shortest

/-! Spellings of floats are decimal literals: digits, a point with digits behind it or an
exponent, or both. A literal reads as the decimal that it spells, and that is the number it was
written for, in every style. -/

namespace ModelData.Binary64

/-- A decimal literal without sign, in its parts. Without digits behind the point there is no
point. -/
structure Literal where
  whole : List Char
  digits : List Char
  /-- The sign and the digits of an exponent. -/
  power : Option (Bool × List Char)
  whole_ne_nil : whole ≠ []
  isDigit_whole : ∀ c ∈ whole, c.isDigit = true
  leading : whole = ['0'] ∨ whole.head? ≠ some '0'
  isDigit_digits : ∀ c ∈ digits, c.isDigit = true
  power_ne_nil : ∀ p ∈ power, p.2 ≠ []
  isDigit_power : ∀ p ∈ power, ∀ c ∈ p.2, c.isDigit = true
  marked : digits ≠ [] ∨ power.isSome

namespace Literal

def fraction (l : Literal) : List Char :=
  if l.digits.isEmpty then [] else '.' :: l.digits

def signChar (negative : Bool) : Char :=
  if negative then '-' else '+'

def powerText (l : Literal) : List Char :=
  match l.power with
  | none => []
  | some (negative, ds) => 'e' :: signChar negative :: ds

def text (l : Literal) : List Char :=
  l.whole ++ l.fraction ++ l.powerText

def powerValue (l : Literal) : Int :=
  match l.power with
  | none => 0
  | some (negative, ds) => if negative then -(Digits.toNat ds : Int) else Digits.toNat ds

def decimal (l : Literal) : Decimal :=
  ⟨Digits.toNat (l.whole ++ l.digits), l.powerValue - l.digits.length⟩

/-- Behind the point the digits end with a zero only where that zero is alone. -/
def Trimmed (l : Literal) : Prop :=
  l.digits = ['0'] ∨ l.digits.getLast? ≠ some '0'

theorem powerText_head (l : Literal) : ∀ c ∈ l.powerText.head?, c = 'e' := by
  unfold powerText
  split <;> simp

theorem fraction_head (l : Literal) :
    ∀ c ∈ (l.fraction ++ l.powerText).head?, c = '.' ∨ c = 'e' := by
  have hpower := l.powerText_head
  unfold fraction
  split
  · exact fun c hc => .inr (hpower c hc)
  · simp

theorem span_whole (l : Literal) :
    l.text.span Char.isDigit = (l.whole, l.fraction ++ l.powerText) := by
  rw [text, List.append_assoc]
  refine span_append l.isDigit_whole fun c hc => ?_
  rcases l.fraction_head c hc with rfl | rfl <;> rfl

theorem span_digits (l : Literal) :
    (l.digits ++ l.powerText).span Char.isDigit = (l.digits, l.powerText) := by
  refine span_append l.isDigit_digits fun c hc => ?_
  rw [l.powerText_head c hc]
  rfl

theorem readExponent?_signed (negative : Bool) {ds : List Char} (hne : ds ≠ [])
    (hds : ∀ c ∈ ds, c.isDigit = true) :
    readExponent? (signChar negative :: ds) =
      some (if negative then -(Digits.toNat ds : Int) else Digits.toNat ds) := by
  cases negative <;> simp [signChar, readExponent?, Digits.read?_ten hne hds]

theorem takeFraction_text (l : Literal) :
    takeFraction (l.fraction ++ l.powerText) = (l.digits, l.powerText) := by
  unfold fraction
  by_cases hdigits : l.digits = []
  · simp only [hdigits, List.isEmpty_nil, if_true, List.nil_append]
    have hhead := l.powerText_head
    cases hpower : l.powerText with
    | nil => rfl
    | cons c rest =>
      rw [hpower] at hhead
      obtain rfl := hhead c rfl
      rfl
  · simp only [List.isEmpty_iff, hdigits, if_false, List.cons_append]
    exact l.span_digits

theorem readPower?_text (l : Literal) : readPower? l.powerText = some l.powerValue := by
  unfold powerText powerValue
  cases hpower : l.power with
  | none => rfl
  | some p => exact readExponent?_signed _ (l.power_ne_nil _ hpower) (l.isDigit_power _ hpower)

theorem readDecimal?_text (l : Literal) : readDecimal? l.text = some l.decimal := by
  have hne : (l.whole ++ l.digits).isEmpty = false := by simp [l.whole_ne_nil]
  simp only [readDecimal?, l.span_whole, l.takeFraction_text, hne, l.readPower?_text]
  rfl

theorem mem_fraction (l : Literal) {c : Char} (h : c ∈ l.fraction) :
    c = '.' ∨ c.isDigit = true := by
  unfold fraction at h
  split at h
  · simp at h
  · rcases List.mem_cons.1 h with h | h
    · exact .inl h
    · exact .inr (l.isDigit_digits c h)

theorem mem_powerText (l : Literal) {c : Char} (h : c ∈ l.powerText) :
    c ∈ ['e', '+', '-'] ∨ c.isDigit = true := by
  unfold powerText at h
  cases hpower : l.power with
  | none => simp [hpower] at h
  | some p =>
    obtain ⟨negative, ds⟩ := p
    rw [hpower] at h
    rcases List.mem_cons.1 h with rfl | h
    · exact .inl (by simp)
    rcases List.mem_cons.1 h with rfl | h
    · cases negative <;> exact .inl (by simp [signChar])
    · exact .inr (l.isDigit_power _ hpower c h)

theorem mem_text (l : Literal) {c : Char} (h : c ∈ l.text) :
    c ∈ ['.', 'e', '+', '-'] ∨ c.isDigit = true := by
  rw [text, List.append_assoc] at h
  rcases List.mem_append.1 h with h | h
  · exact .inr (l.isDigit_whole c h)
  rcases List.mem_append.1 h with h | h
  · exact (l.mem_fraction h).imp_left fun heq => by simp [heq]
  · exact (l.mem_powerText h).imp_left (List.mem_cons_of_mem _)

theorem mem_positional {l : Literal} (hpower : l.power = none) {c : Char} (h : c ∈ l.text) :
    c = '.' ∨ c.isDigit = true := by
  have htext : l.powerText = [] := by simp [powerText, hpower]
  rw [text, htext, List.append_nil] at h
  rcases List.mem_append.1 h with h | h
  · exact .inr (l.isDigit_whole c h)
  · exact l.mem_fraction h

end Literal

theorem dropZeros_coefficient (places : Nat) {d : Decimal} (h : d.coefficient ≠ 0) :
    (Decimal.dropZeros places d).coefficient ≠ 0 := by
  induction places generalizing d with
  | zero => exact h
  | succ places ih =>
    unfold Decimal.dropZeros
    split
    · refine ih (d := ⟨d.coefficient / 10, d.exponent + 1⟩) ?_
      dsimp only
      omega
    · exact h

theorem dropZeros_reduced (places : Nat) {d : Decimal} (h : d.coefficient < 10 ^ places)
    (hzero : (Decimal.dropZeros places d).coefficient % 10 = 0) :
    (Decimal.dropZeros places d).coefficient = 0 := by
  induction places generalizing d with
  | zero => exact Nat.lt_one_iff.1 h
  | succ places ih =>
    rw [Nat.pow_succ] at h
    unfold Decimal.dropZeros at hzero ⊢
    split at hzero
    · next hten =>
      rw [if_pos hten]
      exact ih (d := ⟨d.coefficient / 10, d.exponent + 1⟩)
        (Nat.div_lt_of_lt_mul (Nat.mul_comm _ _ ▸ h)) hzero
    · next hten => exact absurd hzero hten

theorem reduce_reduced {d : Decimal} (h : d.reduce.coefficient % 10 = 0) :
    d.reduce.coefficient = 0 := by
  unfold Decimal.reduce at h ⊢
  split at h
  · next hzero => rw [if_pos hzero]
  · next hne =>
    rw [if_neg hne]
    exact dropZeros_reduced _ (Digits.lt_pow_length _) h

theorem reduce_exponent {d : Decimal} (h : d.reduce.coefficient = 0) :
    d.reduce.exponent = 0 := by
  unfold Decimal.reduce at h ⊢
  split at h
  · next hzero => rw [if_pos hzero]
  · next hne => exact absurd h (dropZeros_coefficient _ hne)

theorem shortest_exponent {rank : Nat} (h : (shortest rank).coefficient = 0) :
    (shortest rank).exponent = 0 :=
  reduce_exponent h

/-- No zeros are left at the end of the coefficient. -/
theorem shortest_reduced {rank : Nat} (h : (shortest rank).coefficient % 10 = 0) :
    (shortest rank).coefficient = 0 :=
  reduce_reduced h

section Shapes

variable (d : Decimal)

theorem leading_ofNat (hd : d.coefficient = 0 → d.exponent = 0) (zeros : Nat)
    (hzeros : d.exponent = 0 → zeros = 0) :
    Digits.ofNat d.coefficient ++ List.replicate zeros '0' = ['0'] ∨
      (Digits.ofNat d.coefficient ++ List.replicate zeros '0').head? ≠ some '0' := by
  by_cases hzero : d.coefficient = 0
  · rw [hzero, hzeros (hd hzero)]
    exact .inl rfl
  · refine .inr ?_
    have hhead := Digits.head_ofNat hzero
    cases hds : Digits.ofNat d.coefficient with
    | nil => exact absurd hds (Digits.ofNat_ne_nil _)
    | cons c ds =>
      rw [hds] at hhead
      exact hhead

/-- All digits stand behind the point. -/
def smallLiteral (zeros : Nat) : Literal where
  whole := ['0']
  digits := List.replicate zeros '0' ++ Digits.ofNat d.coefficient
  power := none
  whole_ne_nil := by simp
  isDigit_whole := by simp [Char.isDigit]
  leading := .inl rfl
  isDigit_digits c hc := by
    rcases List.mem_append.1 hc with hc | hc
    · rw [List.eq_of_mem_replicate hc]
      rfl
    · exact Digits.isDigit_of_mem_ofNat hc
  power_ne_nil := by simp
  isDigit_power := by simp
  marked := .inl (by simp [Digits.ofNat_ne_nil])

/-- All digits stand in front of the point. -/
def wholeLiteral (hd : d.coefficient = 0 → d.exponent = 0) : Literal where
  whole := Digits.ofNat d.coefficient ++ List.replicate d.exponent.toNat '0'
  digits := ['0']
  power := none
  whole_ne_nil := by simp [Digits.ofNat_ne_nil]
  isDigit_whole c hc := by
    rcases List.mem_append.1 hc with hc | hc
    · exact Digits.isDigit_of_mem_ofNat hc
    · rw [List.eq_of_mem_replicate hc]
      rfl
  leading := leading_ofNat d hd _ fun h => by rw [h]; rfl
  isDigit_digits := by simp [Char.isDigit]
  power_ne_nil := by simp
  isDigit_power := by simp
  marked := .inl (by simp)

theorem head_take {α : Type} (xs : List α) {n : Nat} (h : n ≠ 0) :
    (xs.take n).head? = xs.head? := by
  cases n with
  | zero => exact absurd rfl h
  | succ n => cases xs <;> rfl

theorem leading_take {places : Nat} (hplaces : places ≠ 0) :
    (Digits.ofNat d.coefficient).take places = ['0'] ∨
      ((Digits.ofNat d.coefficient).take places).head? ≠ some '0' := by
  by_cases hzero : d.coefficient = 0
  · obtain ⟨places, rfl⟩ := Nat.exists_eq_succ_of_ne_zero hplaces
    rw [hzero, Digits.ofNat_zero]
    exact .inl (by simp)
  · rw [head_take _ hplaces]
    exact .inr (Digits.head_ofNat hzero)

/-- The point stands among the digits. -/
def mixedLiteral (places : Nat) (hplaces : places ≠ 0)
    (hlt : places < (Digits.ofNat d.coefficient).length) : Literal where
  whole := (Digits.ofNat d.coefficient).take places
  digits := (Digits.ofNat d.coefficient).drop places
  power := none
  whole_ne_nil := by simp [hplaces, Digits.ofNat_ne_nil]
  isDigit_whole _ hc := Digits.isDigit_of_mem_ofNat (List.mem_of_mem_take hc)
  leading := leading_take d hplaces
  isDigit_digits _ hc := Digits.isDigit_of_mem_ofNat (List.mem_of_mem_drop hc)
  power_ne_nil := by simp
  isDigit_power := by simp
  marked := .inl (by simpa using hlt)

/-- One digit stands in front of the point, and the rest behind it. -/
def scientificLiteral (fraction : List Char) (hfraction : ∀ c ∈ fraction, c.isDigit = true)
    (e : Int) : Literal where
  whole := (Digits.ofNat d.coefficient).take 1
  digits := fraction
  power := some (decide (e < 0), Digits.atLeastTwo e.natAbs)
  whole_ne_nil := by simp [Digits.ofNat_ne_nil]
  isDigit_whole _ hc := Digits.isDigit_of_mem_ofNat (List.mem_of_mem_take hc)
  leading := leading_take d (by decide)
  isDigit_digits := hfraction
  power_ne_nil := by
    rintro _ ⟨⟩
    exact Digits.padded_ne_nil 2 e.natAbs
  isDigit_power := by
    rintro _ ⟨⟩ c hc
    exact Digits.isDigit_of_mem_padded hc
  marked := .inr rfl

theorem decimal_smallLiteral {zeros : Nat}
    (h : d.exponent = -(zeros + (Digits.ofNat d.coefficient).length : Nat)) :
    (smallLiteral d zeros).decimal = d := by
  have hcoefficient : Digits.toNat (['0'] ++ (List.replicate zeros '0' ++
      Digits.ofNat d.coefficient)) = d.coefficient := by
    rw [Digits.toNat_append, Digits.toNat_append, Digits.toNat_replicate_zero,
      Digits.toNat_ofNat]
    simp [Digits.toNat, Nat.ofDigitChars]
  have hexponent : (0 : Int) - (zeros + (Digits.ofNat d.coefficient).length : Nat) =
      d.exponent := by omega
  simp only [Literal.decimal, Literal.powerValue, smallLiteral, hcoefficient,
    List.length_append, List.length_replicate, hexponent]

theorem same_wholeLiteral (hd : d.coefficient = 0 → d.exponent = 0) (h : 0 ≤ d.exponent) :
    d.Same (wholeLiteral d hd).decimal := by
  have hcoefficient : Digits.toNat (Digits.ofNat d.coefficient ++
      List.replicate d.exponent.toNat '0' ++ ['0']) =
        d.coefficient * 10 ^ (d.exponent.toNat + 1) := by
    rw [List.append_assoc, ← List.replicate_succ', Digits.toNat_append,
      Digits.toNat_replicate_zero, Digits.toNat_ofNat, List.length_replicate, Nat.add_zero]
  have hshift := (Decimal.same_shift d.coefficient (-1) (d.exponent.toNat + 1)).symm
  have hexponent : (-1 : Int) + (d.exponent.toNat + 1 : Nat) = d.exponent := by omega
  rw [hexponent, ← hcoefficient] at hshift
  exact hshift

theorem decimal_mixedLiteral {places : Nat} (hplaces : places ≠ 0)
    (hlt : places < (Digits.ofNat d.coefficient).length)
    (h : (Digits.ofNat d.coefficient).length + d.exponent = places) :
    (mixedLiteral d places hplaces hlt).decimal = d := by
  have hexponent : (0 : Int) - ((Digits.ofNat d.coefficient).length - places : Nat) =
      d.exponent := by omega
  simp only [Literal.decimal, Literal.powerValue, mixedLiteral, List.take_append_drop,
    Digits.toNat_ofNat, List.length_drop, hexponent]

theorem getLast?_digits (hd : d.coefficient % 10 = 0 → d.coefficient = 0)
    (h : d.coefficient ≠ 0) : (Digits.ofNat d.coefficient).getLast? ≠ some '0' := by
  rw [Digits.getLast?_ofNat, ne_eq, Option.some_inj]
  exact Digits.digitChar_ne_zero _ (Nat.mod_lt _ (by decide)) fun hzero => h (hd hzero)

theorem trimmed_smallLiteral {zeros : Nat}
    (h : (Digits.ofNat d.coefficient).getLast? ≠ some '0') : (smallLiteral d zeros).Trimmed := by
  refine .inr ?_
  change (List.replicate zeros '0' ++ Digits.ofNat d.coefficient).getLast? ≠ some '0'
  rw [List.getLast?_append]
  cases hlast : (Digits.ofNat d.coefficient).getLast? with
  | none => exact absurd (List.getLast?_eq_none_iff.1 hlast) (Digits.ofNat_ne_nil _)
  | some c =>
    rw [hlast] at h
    exact h

theorem trimmed_mixedLiteral {places : Nat} (hplaces : places ≠ 0)
    (hlt : places < (Digits.ofNat d.coefficient).length)
    (h : (Digits.ofNat d.coefficient).getLast? ≠ some '0') :
    (mixedLiteral d places hplaces hlt).Trimmed := by
  refine .inr ?_
  change ((Digits.ofNat d.coefficient).drop places).getLast? ≠ some '0'
  rwa [List.getLast?_drop, if_neg (by omega)]

theorem exists_positional (hd : d.coefficient = 0 → d.exponent = 0)
    (hreduced : d.coefficient % 10 = 0 → d.coefficient = 0) :
    ∃ l : Literal,
      l.text = positionalText (Digits.ofNat d.coefficient)
        ((Digits.ofNat d.coefficient).length + d.exponent) ∧
      d.Same l.decimal ∧ l.power = none ∧ l.digits ≠ [] ∧ l.Trimmed := by
  have hlength : 0 < (Digits.ofNat d.coefficient).length := Nat.length_toDigits_pos
  -- zero is written with its only digit in front of the point
  have hlast (h : d.exponent ≠ 0) : (Digits.ofNat d.coefficient).getLast? ≠ some '0' :=
    getLast?_digits d hreduced fun hzero => h (hd hzero)
  generalize hplaces : ((Digits.ofNat d.coefficient).length + d.exponent : Int) = places
  unfold positionalText
  split
  · have hdecimal := @decimal_smallLiteral d (-places).toNat (by omega)
    refine ⟨smallLiteral d (-places).toNat, ?_, ?_, rfl,
      by simp [smallLiteral, Digits.ofNat_ne_nil], trimmed_smallLiteral d (hlast (by omega))⟩
    · simp [Literal.text, Literal.fraction, Literal.powerText, smallLiteral, Digits.ofNat_ne_nil]
    · rw [hdecimal]
      rfl
  split
  · refine ⟨wholeLiteral d hd, ?_, same_wholeLiteral d hd (by omega), rfl, by simp [wholeLiteral],
      .inl rfl⟩
    have hzeros : places.toNat - (Digits.ofNat d.coefficient).length = d.exponent.toNat := by
      omega
    simp [Literal.text, Literal.fraction, Literal.powerText, wholeLiteral, hzeros]
  · have hnat : places.toNat ≠ 0 := by omega
    have hlt : places.toNat < (Digits.ofNat d.coefficient).length := by omega
    have hdrop : (Digits.ofNat d.coefficient).drop places.toNat ≠ [] := by
      simp only [ne_eq, List.drop_eq_nil_iff]
      omega
    have hdecimal := decimal_mixedLiteral d hnat hlt (by omega)
    refine ⟨mixedLiteral d places.toNat hnat hlt, ?_, ?_, rfl, hdrop,
      trimmed_mixedLiteral d hnat hlt (hlast (by omega))⟩
    · simp [Literal.text, Literal.fraction, Literal.powerText, mixedLiteral, hdrop]
    · rw [hdecimal]
      rfl

theorem powerValue_scientific (e : Int) :
    (if decide (e < 0) then -(Digits.toNat (Digits.atLeastTwo e.natAbs) : Int)
      else Digits.toNat (Digits.atLeastTwo e.natAbs)) = e := by
  rw [Digits.atLeastTwo, Digits.toNat_padded]
  by_cases h : e < 0
  · rw [decide_eq_true h, if_pos rfl]
    omega
  · rw [decide_eq_false h, if_neg (by simp)]
    omega

theorem scientificLiteral_text (fraction : List Char) (h : ∀ c ∈ fraction, c.isDigit = true)
    (e : Int) :
    (scientificLiteral d fraction h e).text = (Digits.ofNat d.coefficient).take 1 ++
      (if fraction.isEmpty then [] else '.' :: fraction) ++ exponentText e := by
  simp [Literal.text, Literal.fraction, Literal.powerText, scientificLiteral, exponentText,
    Literal.signChar]

theorem scientificLiteral_decimal (fraction : List Char) (h : ∀ c ∈ fraction, c.isDigit = true)
    (e : Int) :
    (scientificLiteral d fraction h e).decimal =
      ⟨Digits.toNat ((Digits.ofNat d.coefficient).take 1 ++ fraction), e - fraction.length⟩ := by
  simp only [Literal.decimal, Literal.powerValue, scientificLiteral, powerValue_scientific]

theorem exists_scientific (loneFraction : Bool) :
    ∃ l : Literal,
      l.text = scientificText loneFraction (Digits.ofNat d.coefficient)
        ((Digits.ofNat d.coefficient).length + d.exponent) ∧
      d.Same l.decimal ∧ (loneFraction = true → l.digits ≠ []) ∧
      (loneFraction = false → l.decimal = d) := by
  have hlength : 0 < (Digits.ofNat d.coefficient).length := Nat.length_toDigits_pos
  have htake := List.take_append_drop 1 (Digits.ofNat d.coefficient)
  generalize hplaces : ((Digits.ofNat d.coefficient).length + d.exponent : Int) = places
  by_cases hdrop : (Digits.ofNat d.coefficient).drop 1 = []
  · have hone : (Digits.ofNat d.coefficient).length = 1 := by
      have hle := List.drop_eq_nil_iff.1 hdrop
      omega
    rw [hdrop, List.append_nil] at htake
    cases loneFraction with
    | true =>
      refine ⟨scientificLiteral d ['0'] (by simp [Char.isDigit]) (places - 1), ?_, ?_,
        by simp [scientificLiteral], by simp⟩
      · rw [scientificLiteral_text]
        simp [scientificText, hdrop]
      · rw [scientificLiteral_decimal, htake, Digits.toNat_append, Digits.toNat_ofNat]
        have hshift := (Decimal.same_shift d.coefficient (places - 1 - 1) 1).symm
        have hexponent : places - 1 - 1 + (1 : Nat) = d.exponent := by omega
        rw [hexponent] at hshift
        exact hshift
    | false =>
      have hdecimal : (scientificLiteral d [] (by simp) (places - 1)).decimal = d := by
        rw [scientificLiteral_decimal, List.append_nil, htake, Digits.toNat_ofNat]
        have hexponent : places - 1 - (0 : Nat) = d.exponent := by omega
        simp only [List.length_nil, hexponent]
      refine ⟨scientificLiteral d [] (by simp) (places - 1), ?_, by rw [hdecimal]; rfl, by simp,
        fun _ => hdecimal⟩
      rw [scientificLiteral_text]
      simp [scientificText, hdrop]
  · have hfraction : ∀ c ∈ (Digits.ofNat d.coefficient).drop 1, c.isDigit = true :=
      fun c hc => Digits.isDigit_of_mem_ofNat (List.mem_of_mem_drop hc)
    have hdecimal : (scientificLiteral d _ hfraction (places - 1)).decimal = d := by
      rw [scientificLiteral_decimal, htake, Digits.toNat_ofNat]
      have hexponent : places - 1 - ((Digits.ofNat d.coefficient).length - 1 : Nat) =
          d.exponent := by omega
      simp only [List.length_drop, hexponent]
    refine ⟨scientificLiteral d _ hfraction (places - 1), ?_, by rw [hdecimal]; rfl,
      fun _ => hdrop, fun _ => hdecimal⟩
    rw [scientificLiteral_text]
    simp only [scientificText, List.isEmpty_iff, hdrop, if_false]

end Shapes

/-- What is written for a magnitude is a literal of its shortest decimal. A point stands in it
unless the style leaves it out in front of an exponent, and an exponent only where the style
asks for one. -/
theorem exists_literal (style : Style) (rank : Nat) :
    ∃ l : Literal, l.text = magnitudeText style rank ∧ (shortest rank).Same l.decimal ∧
      (style.loneFraction = true → l.digits ≠ []) ∧
      (style.positional (digitsOf rank).2 = true → l.power = none ∧ l.digits ≠ []) := by
  unfold magnitudeText digitsOf
  dsimp only
  split
  · next hpositional =>
    obtain ⟨l, htext, hsame, hpower, hdigits, -⟩ :=
      exists_positional (shortest rank) shortest_exponent shortest_reduced
    exact ⟨l, htext, hsame, fun _ => hdigits, fun _ => ⟨hpower, hdigits⟩⟩
  · next hpositional =>
    obtain ⟨l, htext, hsame, hdigits, -⟩ :=
      exists_scientific (shortest rank) style.loneFraction
    exact ⟨l, htext, hsame, hdigits, fun h => absurd h hpositional⟩

theorem mem_signed {negative : Bool} {text : List Char} {c : Char}
    (h : c ∈ signed negative text) : c = '-' ∨ c ∈ text := by
  cases negative with
  | true => exact List.mem_cons.1 h
  | false => exact .inr h

theorem mem_spell_fixed {x : Finite} {c : Char} (h : c ∈ x.spell .fixed) :
    c = '-' ∨ c = '.' ∨ c.isDigit = true := by
  obtain ⟨l, htext, -, -, hpositional⟩ := exists_literal .fixed x.rank
  rw [Finite.spell, ← htext] at h
  exact (mem_signed h).imp_right (Literal.mem_positional (hpositional rfl).1)

theorem signed_append (negative : Bool) (text rest : List Char) :
    signed negative text ++ rest = signed negative (text ++ rest) := by
  cases negative <;> rfl

theorem ofInt_eq_signed (i : Int) :
    Digits.ofInt i = signed (decide (i < 0)) (Digits.ofNat i.natAbs) := by
  cases i with
  | ofNat n =>
    have hsign : decide (Int.ofNat n < 0) = false := by simp
    rw [hsign]
    rfl
  | negSucc n =>
    have hsign : decide (Int.negSucc n < 0) = true := by simp [Int.negSucc_lt_zero]
    rw [hsign]
    rfl

theorem signed_natAbs (i : Int) :
    (if decide (i < 0) = true then -(i.natAbs : Int) else i.natAbs) = i := by
  by_cases hi : i < 0
  · rw [decide_eq_true hi, if_pos rfl]
    omega
  · rw [decide_eq_false hi, if_neg Bool.false_ne_true]
    omega

theorem head_digits {digits : List Char} (hne : digits ≠ [])
    (hdigits : ∀ c ∈ digits, c.isDigit = true) (rest : List Char) :
    digits ++ rest ≠ [] ∧ ∀ c ∈ (digits ++ rest).head?, c.isDigit = true := by
  cases digits with
  | nil => exact absurd rfl hne
  | cons d ds =>
    refine ⟨by simp, fun c hc => ?_⟩
    obtain rfl : d = c := by simpa using hc
    exact hdigits d (by simp)

theorem head_signed {text : List Char} (hne : text ≠ [])
    (hhead : ∀ c ∈ text.head?, c.isDigit = true) (negative : Bool) :
    ∃ c tail, signed negative text = c :: tail ∧ (c = '-' ∨ c.isDigit = true) := by
  cases negative with
  | true => exact ⟨'-', text, rfl, .inl rfl⟩
  | false =>
    obtain ⟨c, tail, rfl⟩ := List.exists_cons_of_ne_nil hne
    exact ⟨c, tail, rfl, .inr (hhead c rfl)⟩

/-- Integers and floats are spelled with a minus sign or a digit in front. -/
theorem head_ofInt (i : Int) :
    ∃ c tail, Digits.ofInt i = c :: tail ∧ (c = '-' ∨ c.isDigit = true) := by
  obtain ⟨hne, hhead⟩ := head_digits (Digits.ofNat_ne_nil i.natAbs)
    (fun _ hc => Digits.isDigit_of_mem_ofNat hc) []
  rw [List.append_nil] at hne hhead
  rw [ofInt_eq_signed]
  exact head_signed hne hhead _

theorem head_spell (style : Style) (x : Finite) :
    ∃ c tail, x.spell style = c :: tail ∧ (c = '-' ∨ c.isDigit = true) := by
  obtain ⟨l, htext, -⟩ := exists_literal style x.rank
  obtain ⟨hne, hhead⟩ := head_digits l.whole_ne_nil l.isDigit_whole (l.fraction ++ l.powerText)
  rw [Finite.spell, ← htext, Literal.text, List.append_assoc]
  exact head_signed hne hhead _

end ModelData.Binary64
