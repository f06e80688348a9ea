import Mathlib.Algebra.Order.Field.Basic
import Mathlib.Algebra.Order.Field.Rat
import Mathlib.Tactic.FieldSimp
import Mathlib.Tactic.Linarith
import ModelData.Proofs.Number.Spelling

/-! The rational numbers that decimals and finite floats stand for. The shortest decimal of a
float is a number that no other float is nearer to, and where two are equally near the one with
the even rank is meant, so correct rounding of it arrives at that float. -/

namespace ModelData

/-- A rational number with a minus sign or without. -/
def signedRat (negative : Bool) (q : ℚ) : ℚ :=
  if negative then -q else q

theorem abs_signedRat_sub (s t : Bool) (a b : ℚ) :
    |signedRat s a - signedRat t b| = |a - signedRat (s != t) b| := by
  cases s <;> cases t <;> simp only [signedRat] <;> norm_num
  · rw [← abs_neg]
    ring_nf
  · rw [← abs_neg]
    ring_nf

theorem signedRat_div (s : Bool) (a b : ℚ) : signedRat s (a / b) = signedRat s a / b := by
  cases s
  · rfl
  · exact (neg_div b a).symm

theorem abs_signedRat (s : Bool) (a : ℚ) : |signedRat s a| = |a| := by
  cases s
  · rfl
  · exact abs_neg a

namespace Decimal

def toRat (d : Decimal) : ℚ :=
  d.coefficient * 10 ^ d.exponent

theorem toRat_eq (d : Decimal) : d.toRat = d.numerator / d.denominator := by
  have hpow : (10 : ℚ) ^ d.exponent =
      ((10 ^ d.exponent.toNat : Nat) : ℚ) / ((10 ^ (-d.exponent).toNat : Nat) : ℚ) := by
    rcases Int.le_total 0 d.exponent with h | h
    · obtain ⟨places, hplaces⟩ := Int.eq_ofNat_of_zero_le h
      simp [hplaces]
    · obtain ⟨places, hplaces⟩ := Int.eq_ofNat_of_zero_le (Int.neg_nonneg_of_nonpos h)
      obtain hexponent : d.exponent = -places := by omega
      simp [hexponent]
  rw [toRat, hpow, ← mul_div_assoc, ← Nat.cast_mul]
  rfl

/-- Two decimals spell the same number just when their values are equal. -/
theorem same_iff_toRat_eq {d e : Decimal} : d.Same e ↔ d.toRat = e.toRat := by
  have hd : (d.denominator : ℚ) ≠ 0 := Nat.cast_ne_zero.2 d.denominator_pos.ne'
  have he : (e.denominator : ℚ) ≠ 0 := Nat.cast_ne_zero.2 e.denominator_pos.ne'
  rw [toRat_eq, toRat_eq, div_eq_div_iff hd he, ← Nat.cast_mul, ← Nat.cast_mul, Nat.cast_inj]
  rfl

end Decimal

namespace Binary64

theorem cast_unit_pos : (0 : ℚ) < one :=
  Nat.cast_pos.2 unit_pos

section Midpoints

variable {rank : Nat} {v : ℚ}

theorem units_le {j k : Nat} (h : j ≤ k) : (units j : ℚ) ≤ units k :=
  Nat.cast_le.2 (units_strictMono.monotone h)

theorem units_lt {j k : Nat} (h : j < k) : (units j : ℚ) < units k :=
  Nat.cast_lt.2 (units_strictMono h)

/-- Between the midpoints around a rank no magnitude is nearer than that of the rank. -/
theorem abs_sub_units_le (hlow : (units (rank - 1) : ℚ) + units rank ≤ 2 * v)
    (hhigh : 2 * v ≤ units rank + units (rank + 1)) (k : Nat) :
    |v - units rank| ≤ |v - units k| := by
  rcases Nat.lt_trichotomy k rank with hlt | rfl | hgt
  · have hle := units_le (by omega : k ≤ rank - 1)
    have hstep := units_lt hlt
    exact le_trans (abs_le.2 ⟨by linarith, by linarith⟩) (le_abs_self (v - units k))
  · exact le_rfl
  · have hle := units_le (by omega : rank + 1 ≤ k)
    have hstep := units_lt hgt
    exact le_trans (abs_le.2 ⟨by linarith, by linarith⟩) (neg_le_abs (v - units k))

theorem abs_sub_units_lt (hlow : (units (rank - 1) : ℚ) + units rank < 2 * v)
    (hhigh : 2 * v < units rank + units (rank + 1)) {k : Nat} (hk : k ≠ rank) :
    |v - units rank| < |v - units k| := by
  rcases Nat.lt_or_gt_of_ne hk with hlt | hgt
  · have hle := units_le (by omega : k ≤ rank - 1)
    have hstep := units_lt hlt
    exact lt_of_lt_of_le (abs_lt.2 ⟨by linarith, by linarith⟩) (le_abs_self (v - units k))
  · have hle := units_le (by omega : rank + 1 ≤ k)
    have hstep := units_lt hgt
    exact lt_of_lt_of_le (abs_lt.2 ⟨by linarith, by linarith⟩) (neg_le_abs (v - units k))

/-- For a ratio that is not negative, a magnitude with a minus sign is no nearer than zero. -/
theorem abs_sub_zero_le (hv : 0 ≤ v) (k : Nat) :
    |v - units 0| ≤ |v - signedRat true (units k)| := by
  have hk : (0 : ℚ) ≤ units k := Nat.cast_nonneg _
  rw [signedRat, if_pos rfl, units_zero, Nat.cast_zero, sub_zero, sub_neg_eq_add,
    abs_of_nonneg hv, abs_of_nonneg (by linarith)]
  linarith

theorem abs_sub_signed_le (hv : 0 ≤ v) (hlow : (units (rank - 1) : ℚ) + units rank ≤ 2 * v)
    (hhigh : 2 * v ≤ units rank + units (rank + 1)) (negative : Bool) (k : Nat) :
    |v - units rank| ≤ |v - signedRat negative (units k)| := by
  cases negative with
  | false => exact abs_sub_units_le hlow hhigh k
  | true => exact (abs_sub_units_le hlow hhigh 0).trans (abs_sub_zero_le hv k)

theorem abs_sub_signed_lt (hv : 0 ≤ v) (hlow : (units (rank - 1) : ℚ) + units rank < 2 * v)
    (hhigh : 2 * v < units rank + units (rank + 1)) {negative : Bool} {k : Nat}
    (hrank : rank ≠ 0) (hk : negative = false → k ≠ rank) :
    |v - units rank| < |v - signedRat negative (units k)| := by
  cases negative with
  | false => exact abs_sub_units_lt hlow hhigh (hk rfl)
  | true => exact (abs_sub_units_lt hlow hhigh hrank.symm).trans_le (abs_sub_zero_le hv k)

end Midpoints

namespace Finite

def toRat (x : Finite) : ℚ :=
  x.signedUnits / one

theorem toRat_eq (x : Finite) : x.toRat = signedRat x.negative (units x.rank / one) := by
  unfold toRat signedUnits signedRat magnitude
  split
  · rw [Int.cast_neg, Int.cast_natCast, neg_div]
  · rw [Int.cast_natCast]

theorem abs_signedUnits_sub (negative : Bool) (v : ℚ) (y : Finite) :
    |signedRat negative (v / one) - y.toRat| =
      |v - signedRat (negative != y.negative) (units y.rank)| / one := by
  rw [y.toRat_eq, abs_signedRat_sub, signedRat_div, ← sub_div, abs_div, abs_of_pos cast_unit_pos]

/-- Numbers at least half of the last distance above the largest finite number are rounded to
infinity. -/
def overflow : Nat :=
  2 ^ 1024 - 2 ^ 970

theorem units_last : units (rankCount - 1) + units rankCount = 2 * overflow * one := by
  decide +kernel

/-- Rounding a rational number correctly gives a float: the number is in range, no float is
nearer to it, and one that is equally near has the same value, or this one has an even rank. -/
structure IsNearest (x : Finite) (q : ℚ) : Prop where
  inRange : |q| < overflow
  near : ∀ y : Finite, |q - x.toRat| ≤ |q - y.toRat|
  even : x.rank % 2 = 1 → ∀ y : Finite, y.toRat ≠ x.toRat → |q - x.toRat| < |q - y.toRat|

section Rounding

variable {x : Finite} {v : ℚ}

theorem lt_overflow (hhigh : 2 * v ≤ units x.rank + units (x.rank + 1))
    (hodd : x.rank % 2 = 1 → 2 * v < units x.rank + units (x.rank + 1)) :
    v / one < overflow := by
  have hlast : (units (rankCount - 1) : ℚ) + units rankCount = 2 * overflow * one := by
    exact_mod_cast units_last
  have hrank := x.rank_lt
  have hlt : 2 * v < units (rankCount - 1) + units rankCount := by
    rcases Nat.lt_or_ge (x.rank + 1) rankCount with hnext | hnext
    · have hle := units_le (by omega : x.rank ≤ rankCount - 1)
      have hstep := units_lt hnext
      linarith
    · have heq : x.rank = rankCount - 1 := by omega
      have hsucc : x.rank + 1 = rankCount := by omega
      have hlt := hodd (heq ▸ rfl)
      rwa [hsucc, heq] at hlt
  rw [div_lt_iff₀ cast_unit_pos]
  linarith

theorem isNearest_of_between (hv : 0 ≤ v)
    (hlow : (units (x.rank - 1) : ℚ) + units x.rank ≤ 2 * v)
    (hhigh : 2 * v ≤ units x.rank + units (x.rank + 1))
    (hodd : x.rank % 2 = 1 → (units (x.rank - 1) : ℚ) + units x.rank < 2 * v ∧
      2 * v < units x.rank + units (x.rank + 1)) :
    x.IsNearest (signedRat x.negative (v / one)) := by
  have hself : |signedRat x.negative (v / one) - x.toRat| = |v - units x.rank| / one := by
    rw [abs_signedUnits_sub, bne_self_eq_false]
    rfl
  refine ⟨?_, fun y => ?_, fun hrank y hy => ?_⟩
  · rw [abs_signedRat, abs_of_nonneg (div_nonneg hv cast_unit_pos.le)]
    exact lt_overflow hhigh fun hrank => (hodd hrank).2
  · rw [hself, abs_signedUnits_sub]
    exact div_le_div_of_nonneg_right (abs_sub_signed_le hv hlow hhigh _ _) cast_unit_pos.le
  · rw [hself, abs_signedUnits_sub]
    refine div_lt_div_of_pos_right (abs_sub_signed_lt hv (hodd hrank).1 (hodd hrank).2
      (by omega) fun hsign hk => hy ?_) cast_unit_pos
    rw [toRat_eq, toRat_eq, hk, bne_eq_false_iff_eq.1 hsign]

theorem isNearest_of_rounds {num den : Nat} (hden : 0 < den)
    (h : Rounds x.rank (num * one) den) :
    x.IsNearest (signedRat x.negative (num / den)) := by
  have hpos : (0 : ℚ) < den := Nat.cast_pos.2 hden
  have hvalue : (num : ℚ) / den = num * one / den / one := by
    rw [div_right_comm, mul_div_cancel_right₀ _ cast_unit_pos.ne']
  have htwice : 2 * ((num : ℚ) * one / den) * den = 2 * (num * one) := by
    rw [mul_assoc, div_mul_cancel₀ _ hpos.ne']
  have hnonneg : (0 : ℚ) ≤ num * one / den :=
    div_nonneg (mul_nonneg (Nat.cast_nonneg _) cast_unit_pos.le) hpos.le
  rw [hvalue]
  refine isNearest_of_between hnonneg (le_of_mul_le_mul_right ?_ hpos)
    (le_of_mul_le_mul_right ?_ hpos) fun hrank =>
      ⟨lt_of_mul_lt_mul_right ?_ hpos.le, lt_of_mul_lt_mul_right ?_ hpos.le⟩
  · rw [htwice]
    exact_mod_cast h.low
  · rw [htwice]
    exact_mod_cast h.high
  · rw [htwice]
    exact_mod_cast Nat.lt_of_le_of_ne h.low (h.tie hrank).1
  · rw [htwice]
    exact_mod_cast Nat.lt_of_le_of_ne h.high (h.tie hrank).2

/-- The shortest decimal is rounded to the float that it was found for. -/
theorem isNearest_shortest (x : Finite) :
    x.IsNearest (signedRat x.negative (shortest x.rank).toRat) := by
  rw [Decimal.toRat_eq]
  exact isNearest_of_rounds (Decimal.denominator_pos _) (roundsTo_iff.1 (shortest_roundsTo x.rank))

end Rounding

end Finite

end Binary64

end ModelData
