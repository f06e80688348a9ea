import ModelData.Proofs.Number.Digits
import ModelData.Proofs.Number.Rounding
import Mathlib.Tactic.NormNum

/-! The shortest decimal of a rank rounds to that rank, and so does every other spelling of the
same number. -/

namespace ModelData

namespace Decimal

theorem denominator_pos (d : Decimal) : 0 < d.denominator :=
  Nat.pow_pos (by decide)

/-- Two decimals spell the same number. -/
def Same (d e : Decimal) : Prop :=
  d.numerator * e.denominator = e.numerator * d.denominator

theorem Same.symm {d e : Decimal} (h : d.Same e) : e.Same d :=
  Eq.symm h

theorem Same.trans {d e f : Decimal} (h : d.Same e) (h' : e.Same f) : d.Same f := by
  refine Nat.eq_of_mul_eq_mul_right e.denominator_pos ?_
  calc d.numerator * f.denominator * e.denominator
      = d.numerator * e.denominator * f.denominator := by ring
    _ = e.numerator * f.denominator * d.denominator := by rw [h]; ring
    _ = f.numerator * d.denominator * e.denominator := by rw [h']; ring

/-- With exponents that are not below a bound, the coefficients can be compared at the bound. -/
theorem numerator_mul_pow (d : Decimal) (places : Nat) (h : -(places : Int) ≤ d.exponent) :
    d.numerator * 10 ^ places =
      d.coefficient * 10 ^ (d.exponent + places).toNat * d.denominator := by
  have hpow : d.exponent.toNat + places = (d.exponent + places).toNat + (-d.exponent).toNat := by
    omega
  calc d.numerator * 10 ^ places
      = d.coefficient * (10 ^ d.exponent.toNat * 10 ^ places) := Nat.mul_assoc _ _ _
    _ = d.coefficient * (10 ^ (d.exponent + places).toNat * 10 ^ (-d.exponent).toNat) := by
        rw [← Nat.pow_add, hpow, Nat.pow_add]
    _ = _ := (Nat.mul_assoc _ _ _).symm

theorem same_of_scaled {d e : Decimal} (places : Nat) (hd : -(places : Int) ≤ d.exponent)
    (he : -(places : Int) ≤ e.exponent)
    (h : d.coefficient * 10 ^ (d.exponent + places).toNat =
      e.coefficient * 10 ^ (e.exponent + places).toNat) : d.Same e := by
  refine Nat.eq_of_mul_eq_mul_right (Nat.pow_pos (n := places) (show 0 < 10 by decide)) ?_
  calc d.numerator * e.denominator * 10 ^ places
      = d.numerator * 10 ^ places * e.denominator := by ring
    _ = e.numerator * 10 ^ places * d.denominator := by
        rw [numerator_mul_pow d places hd, numerator_mul_pow e places he, h]
        ring
    _ = _ := by ring

theorem same_shift (c : Nat) (e : Int) (zeros : Nat) :
    Same ⟨c * 10 ^ zeros, e⟩ ⟨c, e + zeros⟩ := by
  refine same_of_scaled (-e).toNat (by dsimp only; omega) (by dsimp only; omega) ?_
  have hpow : (e + zeros + (-e).toNat).toNat = zeros + (e + (-e).toNat).toNat := by omega
  simp only [hpow, Nat.pow_add, Nat.mul_assoc]

theorem dropZeros_same (places : Nat) (d : Decimal) : (dropZeros places d).Same d := by
  induction places generalizing d with
  | zero => rfl
  | succ places ih =>
    unfold dropZeros
    split
    · next hzero =>
      have hten : d.coefficient = d.coefficient / 10 * 10 ^ 1 := by omega
      refine (ih _).trans ?_
      have hshift := (same_shift (d.coefficient / 10) d.exponent 1).symm
      rwa [← hten] at hshift
    · rfl

theorem reduce_same (d : Decimal) : d.reduce.Same d := by
  unfold reduce
  split
  · next hzero => simp [Same, numerator, hzero]
  · exact dropZeros_same _ _

end Decimal

namespace Binary64

section Cross

variable {a b num den num' den' : Nat}

theorem cross_le (hden : 0 < den) (hden' : 0 < den') (h : num * den' = num' * den) :
    a * den ≤ b * num ↔ a * den' ≤ b * num' := by
  calc a * den ≤ b * num
      ↔ a * den * den' ≤ b * num * den' := (Nat.mul_le_mul_right_iff hden').symm
    _ ↔ a * den' * den ≤ b * num' * den := by
        rw [Nat.mul_right_comm, Nat.mul_assoc b, h, Nat.mul_assoc b]
    _ ↔ a * den' ≤ b * num' := Nat.mul_le_mul_right_iff hden

theorem cross_ge (hden : 0 < den) (hden' : 0 < den') (h : num * den' = num' * den) :
    b * num ≤ a * den ↔ b * num' ≤ a * den' := by
  calc b * num ≤ a * den
      ↔ b * num * den' ≤ a * den * den' := (Nat.mul_le_mul_right_iff hden').symm
    _ ↔ b * num' * den ≤ a * den' * den := by
        rw [Nat.mul_right_comm a, Nat.mul_assoc b, h, Nat.mul_assoc b]
    _ ↔ b * num' ≤ a * den' := Nat.mul_le_mul_right_iff hden

theorem cross_eq (hden : 0 < den) (hden' : 0 < den') (h : num * den' = num' * den) :
    a * den = b * num ↔ a * den' = b * num' := by
  rw [Nat.le_antisymm_iff, cross_le hden hden' h, cross_ge hden hden' h, ← Nat.le_antisymm_iff]

end Cross

theorem Rounds.congr {rank num den num' den' : Nat} (hden : 0 < den) (hden' : 0 < den')
    (h : num * den' = num' * den) (hr : Rounds rank num den) : Rounds rank num' den' where
  low := (cross_le hden hden' h).1 hr.low
  high := (cross_ge hden hden' h).1 hr.high
  tie hodd := by
    obtain ⟨hlow, hhigh⟩ := hr.tie hodd
    exact ⟨fun he => hlow ((cross_eq hden hden' h).2 he),
      fun he => hhigh ((cross_eq hden hden' h).2 he.symm).symm⟩

theorem roundsTo_of_same {rank : Nat} {d e : Decimal} (hsame : d.Same e)
    (h : roundsTo rank d.numerator d.denominator = true) :
    roundsTo rank e.numerator e.denominator = true := by
  refine roundsTo_iff.2 ((roundsTo_iff.1 h).congr d.denominator_pos e.denominator_pos ?_)
  rw [Nat.mul_right_comm, hsame, Nat.mul_right_comm]

theorem rounds_self (rank den : Nat) (hden : 0 < den) : Rounds rank (units rank * den) den := by
  have hnext : units rank * den < units (rank + 1) * den :=
    Nat.mul_lt_mul_of_pos_right (units_strictMono (Nat.lt_succ_self rank)) hden
  have hbefore : units (rank - 1) * den ≤ units rank * den :=
    Nat.mul_le_mul_right _ (units_strictMono.monotone (Nat.sub_le rank 1))
  refine ⟨?_, ?_, fun hodd => ?_⟩
  · rw [Nat.add_mul]
    omega
  · rw [Nat.add_mul]
    omega
  · have hlt : units (rank - 1) * den < units rank * den :=
      Nat.mul_lt_mul_of_pos_right (units_strictMono (by omega)) hden
    simp only [Nat.add_mul]
    omega

theorem pow_ten_pos (places : Nat) : 0 < Nat.pow 10 places :=
  Nat.pow_pos (by decide)

theorem mul_pow_five (magnitude places : Nat) :
    magnitude * Nat.pow 5 places * Nat.pow 10 0 * Nat.pow 2 places =
      magnitude * Nat.pow 10 places := by
  have hten : Nat.pow 10 places = Nat.pow 5 places * Nat.pow 2 places := Nat.mul_pow 5 2 places
  rw [hten, show Nat.pow 10 0 = 1 from rfl, Nat.mul_one, Nat.mul_assoc]

theorem exact_roundsTo (rank : Nat) :
    roundsTo rank (exact rank).numerator (exact rank).denominator = true := by
  rw [roundsTo_iff]
  have hself := rounds_self rank _ (pow_ten_pos 1074)
  rwa [← mul_pow_five] at hself

theorem onGrid?_roundsTo {rank : Nat} {exponent : Int} {d : Decimal}
    (h : onGrid? rank exponent = some d) :
    roundsTo rank d.numerator d.denominator = true := by
  unfold onGrid? at h
  exact List.find?_some (p := fun d : Decimal => roundsTo rank d.numerator d.denominator) h

theorem shortest_roundsTo (rank : Nat) :
    roundsTo rank (shortest rank).numerator (shortest rank).denominator = true := by
  unfold shortest
  refine roundsTo_of_same (Decimal.reduce_same _).symm ?_
  cases hfound : (List.range 17).findSome? fun more : Nat =>
      onGrid? rank (leadingExponent (units rank) one - more) with
  | none => exact exact_roundsTo rank
  | some d =>
    obtain ⟨more, _, hmore⟩ := List.exists_of_findSome?_eq_some hfound
    exact onGrid?_roundsTo hmore

theorem rank_eq_zero_of_small {rank num den : Nat} (h : Rounds rank num den)
    (hsmall : 2 * num < den) : rank = 0 := by
  refine Nat.eq_zero_of_not_pos fun hpos => ?_
  have hunits : units 0 < units rank := units_strictMono hpos
  have hle : 1 * den ≤ (units (rank - 1) + units rank) * den :=
    Nat.mul_le_mul_right _ (by omega)
  have hlow := h.low
  omega

/-- A decimal below a power of ten that is less than half of the smallest magnitude. -/
theorem small_of_leading {d : Decimal} {places : Nat} (hone : 2 * one ≤ 10 ^ (places + 1))
    (h : d.exponent + (Digits.ofNat d.coefficient).length < -places) :
    2 * (d.numerator * one) < d.denominator := by
  have hnum : d.numerator = d.coefficient := by
    rw [Decimal.numerator, Int.toNat_of_nonpos (by omega)]
    exact Nat.mul_one _
  calc 2 * (d.numerator * one)
      = d.coefficient * (2 * one) := by rw [hnum]; ring
    _ ≤ d.coefficient * 10 ^ (places + 1) := Nat.mul_le_mul_left _ hone
    _ < 10 ^ (Digits.ofNat d.coefficient).length * 10 ^ (places + 1) :=
        Nat.mul_lt_mul_of_pos_right (Digits.lt_pow_length _) (Nat.pow_pos (by decide))
    _ = 10 ^ ((Digits.ofNat d.coefficient).length + (places + 1)) := (Nat.pow_add _ _ _).symm
    _ ≤ d.denominator := Nat.pow_le_pow_right (by decide) (by omega)

theorem large_of_leading {d : Decimal} {places : Nat} (hd : d.coefficient ≠ 0)
    (h : places < d.exponent + (Digits.ofNat d.coefficient).length) :
    10 ^ places * d.denominator ≤ d.numerator := by
  have hpos : 0 < (Digits.ofNat d.coefficient).length := Nat.length_toDigits_pos
  calc 10 ^ places * d.denominator
      = 10 ^ (places + (-d.exponent).toNat) := (Nat.pow_add _ _ _).symm
    _ ≤ 10 ^ ((Digits.ofNat d.coefficient).length - 1 + d.exponent.toNat) :=
        Nat.pow_le_pow_right (by decide) (by omega)
    _ = 10 ^ ((Digits.ofNat d.coefficient).length - 1) * 10 ^ d.exponent.toNat :=
        Nat.pow_add _ _ _
    _ ≤ d.numerator := Nat.mul_le_mul_right _ (Digits.pow_length_le hd)

theorem leading_le_of_rounds {rank places : Nat} {d : Decimal} (hrank : rank < rankCount)
    (hlimit : units rankCount < 10 ^ places * one) (hd : d.coefficient ≠ 0)
    (h : Rounds rank (d.numerator * one) d.denominator) :
    d.exponent + (Digits.ofNat d.coefficient).length ≤ places := by
  refine Int.not_lt.1 fun hlarge => ?_
  have hunits : units rank + units (rank + 1) ≤ 2 * units rankCount := by
    have hlow := units_strictMono.monotone hrank.le
    have hnext := units_strictMono.monotone (Nat.succ_le_of_lt hrank)
    rw [Nat.succ_eq_add_one] at hnext
    omega
  have hle : 2 * (10 ^ places * one) * d.denominator ≤ 2 * units rankCount * d.denominator :=
    calc 2 * (10 ^ places * one) * d.denominator
        = 2 * (10 ^ places * d.denominator * one) := by ring
      _ ≤ 2 * (d.numerator * one) :=
          Nat.mul_le_mul_left _ (Nat.mul_le_mul_right _ (large_of_leading hd hlarge))
      _ ≤ (units rank + units (rank + 1)) * d.denominator := h.high
      _ ≤ _ := Nat.mul_le_mul_right _ hunits
  have hcancel := Nat.le_of_mul_le_mul_right hle d.denominator_pos
  omega

theorem smallest_bound : 2 * one ≤ 10 ^ (400 + 1) := by decide +kernel

theorem largest_bound : units rankCount < 10 ^ 400 * one := by
  have hrank : rankCount = (2046 + 1) * binade + 0 := rfl
  rw [hrank, units_mul_add binade_pos]
  decide +kernel

theorem ofDecimal_of_roundsTo {rank : Nat} {d : Decimal} (hrank : rank < rankCount)
    (h : roundsTo rank d.numerator d.denominator = true) (negative : Bool) :
    ofDecimal negative d = .finite ⟨negative, rank, hrank⟩ := by
  have hrounds := roundsTo_iff.1 h
  by_cases hsmall : d.coefficient = 0 ∨
      d.exponent + (Digits.ofNat d.coefficient).length < -400
  · have hlt : 2 * (d.numerator * one) < d.denominator := by
      rcases hsmall with hzero | hsmall
      · have hnum : d.numerator = 0 := by rw [Decimal.numerator, hzero, Nat.zero_mul]
        rw [hnum, Nat.zero_mul]
        exact d.denominator_pos
      · exact small_of_leading smallest_bound hsmall
    obtain rfl := rank_eq_zero_of_small hrounds hlt
    simp only [ofDecimal, if_pos hsmall]
    rfl
  · have hle := leading_le_of_rounds hrank largest_bound (fun hd => hsmall (.inl hd)) hrounds
    have hle : ¬ 400 < d.exponent + (Digits.ofNat d.coefficient).length := by omega
    simp only [ofDecimal, if_neg hsmall, if_neg hle]
    exact ofRatio_of_roundsTo d.denominator_pos hrank h negative

/-- Every spelling of the shortest decimal reads as the number it was found for. -/
theorem ofDecimal_of_same_shortest {d : Decimal} (x : Finite) (h : (shortest x.rank).Same d) :
    ofDecimal x.negative d = .finite x :=
  ofDecimal_of_roundsTo x.rank_lt (roundsTo_of_same h (shortest_roundsTo x.rank)) x.negative

end Binary64

end ModelData
