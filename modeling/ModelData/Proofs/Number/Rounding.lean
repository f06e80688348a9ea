import Mathlib.Order.Monotone.Basic
import Mathlib.Tactic.Ring
import ModelData.Number.Shortest

/-! Rounding to ranks. The magnitudes grow strictly with the rank, and the rank that a ratio is
cut down to leaves less than the distance to the next magnitude. So a ratio that lies between
the midpoints around a rank rounds to that rank. -/

namespace ModelData.Binary64

/-- The distance from a magnitude to the next. -/
def gap (rank : Nat) : Nat :=
  2 ^ (rank / binade - 1)

theorem binade_eq : binade = 2 ^ 52 := rfl

theorem binade_pos : 0 < binade := by decide

theorem rankCount_pos : 0 < rankCount :=
  Nat.mul_pos (by decide) binade_pos

theorem unit_pos : 0 < one := by decide +kernel

theorem units_of_lt {rank : Nat} (h : rank < binade) : units rank = rank := by
  rw [units, if_pos h]

theorem units_mul_add {scale kept : Nat} (h : kept < binade) :
    units ((scale + 1) * binade + kept) = (binade + kept) * 2 ^ scale := by
  have hdiv : ((scale + 1) * binade + kept) / binade = scale + 1 := by
    rw [Nat.mul_comm, Nat.mul_add_div binade_pos, Nat.div_eq_of_lt h, Nat.add_zero]
  have hmod : ((scale + 1) * binade + kept) % binade = kept := by
    rw [Nat.mul_comm, Nat.mul_add_mod, Nat.mod_eq_of_lt h]
  have hge : ¬ (scale + 1) * binade + kept < binade := by
    rw [Nat.succ_mul]
    omega
  rw [units, if_neg hge, hdiv, hmod]
  rfl

theorem gap_mul_add {scale kept : Nat} (h : kept < binade) :
    gap ((scale + 1) * binade + kept) = 2 ^ scale := by
  have hdiv : ((scale + 1) * binade + kept) / binade = scale + 1 := by
    rw [Nat.mul_comm, Nat.mul_add_div binade_pos, Nat.div_eq_of_lt h, Nat.add_zero]
  rw [gap, hdiv, Nat.add_sub_cancel]

theorem gap_of_lt {rank : Nat} (h : rank < binade) : gap rank = 1 := by
  rw [gap, Nat.div_eq_of_lt h]
  rfl

/-- A rank lies below the first binade, or in one of those after it. -/
theorem rank_cases (rank : Nat) :
    rank < binade ∨ ∃ scale kept, kept < binade ∧ rank = (scale + 1) * binade + kept := by
  rcases Nat.lt_or_ge rank binade with h | h
  · exact .inl h
  · refine .inr ⟨rank / binade - 1, rank % binade, Nat.mod_lt _ binade_pos, ?_⟩
    have hpos : 1 ≤ rank / binade := (Nat.one_le_div_iff binade_pos).2 h
    rw [Nat.sub_add_cancel hpos, Nat.mul_comm, Nat.div_add_mod]

theorem units_succ (rank : Nat) : units (rank + 1) = units rank + gap rank := by
  rcases rank_cases rank with h | ⟨scale, kept, h, rfl⟩
  · rw [units_of_lt h, gap_of_lt h]
    rcases Nat.lt_or_ge (rank + 1) binade with hnext | hnext
    · rw [units_of_lt hnext]
    · have hrank : rank + 1 = (0 + 1) * binade + 0 := by omega
      rw [hrank, units_mul_add binade_pos]
      omega
  · rw [units_mul_add h, gap_mul_add h]
    rcases Nat.lt_or_ge (kept + 1) binade with hnext | hnext
    · rw [Nat.add_assoc, units_mul_add hnext]
      ring
    · have hrank : (scale + 1) * binade + kept + 1 = (scale + 1 + 1) * binade + 0 := by
        rw [Nat.succ_mul (scale + 1)]
        omega
      have hkept : kept + 1 = binade := by omega
      rw [hrank, units_mul_add binade_pos, Nat.add_zero, Nat.pow_succ, ← hkept]
      ring

theorem units_strictMono : StrictMono units :=
  strictMono_nat_of_lt_succ fun rank => by
    rw [units_succ]
    exact Nat.lt_add_of_pos_right (Nat.two_pow_pos _)

theorem units_zero : units 0 = 0 :=
  units_of_lt binade_pos

section Floor

variable {v scale : Nat}

/-- A whole number of up to 53 bits is kept as it is. -/
theorem units_short (h : v < 2 * binade) : units v = v ∧ gap v = 1 := by
  rcases Nat.lt_or_ge v binade with hlt | hge
  · exact ⟨units_of_lt hlt, gap_of_lt hlt⟩
  · obtain ⟨kept, rfl⟩ := Nat.exists_eq_add_of_le hge
    have hkept : kept < binade := by omega
    have hrank : binade + kept = (0 + 1) * binade + kept := by omega
    rw [hrank, units_mul_add hkept, gap_mul_add hkept]
    simp

/-- Of a longer one the first 53 bits are kept. -/
theorem div_long (hpos : 0 < scale) (hscale : v.log2 - 52 = scale) :
    binade ≤ v / 2 ^ scale ∧ v / 2 ^ scale < 2 * binade := by
  have hlog : v.log2 = scale + 52 := by omega
  have hv : v ≠ 0 := by
    rintro rfl
    simp at hlog
  have hlow : 2 ^ (scale + 52) ≤ v := hlog ▸ Nat.log2_self_le hv
  have hhigh : v < 2 ^ (scale + 53) := by
    have h := Nat.lt_log2_self (n := v)
    rwa [hlog] at h
  constructor
  · rw [Nat.le_div_iff_mul_le (Nat.two_pow_pos _), binade_eq, ← Nat.pow_add, Nat.add_comm]
    exact hlow
  · rw [Nat.div_lt_iff_lt_mul (Nat.two_pow_pos _), binade_eq]
    calc v < 2 ^ (scale + 53) := hhigh
      _ = 2 * 2 ^ 52 * 2 ^ scale := by ring

theorem units_kept (hscale : v.log2 - 52 = scale) :
    units (v / 2 ^ scale + scale * binade) = v / 2 ^ scale * 2 ^ scale ∧
      gap (v / 2 ^ scale + scale * binade) = 2 ^ scale := by
  rcases Nat.eq_zero_or_pos scale with rfl | hpos
  · have hv : v < 2 * binade := by
      rcases Nat.eq_zero_or_pos v with rfl | hpos
      · exact Nat.mul_pos (by decide) binade_pos
      · calc v < 2 ^ (v.log2 + 1) := Nat.lt_log2_self
          _ ≤ 2 ^ 53 := Nat.pow_le_pow_right (by decide) (by omega)
    simpa using units_short hv
  · obtain ⟨hbinade, hlt⟩ := div_long hpos hscale
    obtain ⟨kept, hkept⟩ := Nat.exists_eq_add_of_le hbinade
    rw [hkept] at hlt ⊢
    have hrank : binade + kept + scale * binade = (scale + 1) * binade + kept := by ring
    rw [hrank, units_mul_add (by omega), gap_mul_add (by omega)]
    exact ⟨rfl, rfl⟩

/-- The rank of the largest magnitude that is no more than a ratio. -/
def floorRank (num den : Nat) : Nat :=
  num / (den * 2 ^ ((num / den).log2 - 52)) + ((num / den).log2 - 52) * binade

/-- What is cut off is the remainder by the distance to the next magnitude. -/
theorem floorRank_spec (num den : Nat) :
    units (floorRank num den) * den + num % (den * 2 ^ ((num / den).log2 - 52)) = num ∧
      gap (floorRank num den) * den = den * 2 ^ ((num / den).log2 - 52) := by
  unfold floorRank
  generalize hscale : (num / den).log2 - 52 = scale
  obtain ⟨hunits, hgap⟩ := units_kept hscale
  have hkept : num / (den * 2 ^ scale) = num / den / 2 ^ scale :=
    (Nat.div_div_eq_div_mul num den _).symm
  rw [hkept, hunits, hgap, ← hkept]
  refine ⟨?_, Nat.mul_comm _ _⟩
  calc num / (den * 2 ^ scale) * 2 ^ scale * den + num % (den * 2 ^ scale)
      = den * 2 ^ scale * (num / (den * 2 ^ scale)) + num % (den * 2 ^ scale) := by ring
    _ = num := Nat.div_add_mod _ _

end Floor

/-- Rounding goes up by one rank past the midpoint, and at it from an odd rank. -/
theorem nearestUnits_eq_floorRank (num den : Nat) :
    nearestUnits num den =
      if gap (floorRank num den) * den < 2 * (num - units (floorRank num den) * den) ∨
          (gap (floorRank num den) * den = 2 * (num - units (floorRank num den) * den) ∧
            floorRank num den % 2 = 1)
      then floorRank num den + 1 else floorRank num den := by
  obtain ⟨hunits, hgap⟩ := floorRank_spec num den
  have hrest : num - units (floorRank num den) * den =
      num % (den * 2 ^ ((num / den).log2 - 52)) := by omega
  have hparity : floorRank num den % 2 =
      num / (den * 2 ^ ((num / den).log2 - 52)) % 2 := by
    rw [floorRank, binade_eq]
    omega
  rw [hrest, hgap, hparity]
  rfl

/-- A ratio that is no more than a magnitude is rounded to no more. -/
theorem nearestUnits_le {rank num den : Nat} (hden : 0 < den) (h : num ≤ units rank * den) :
    nearestUnits num den ≤ rank := by
  have hmono : StrictMono fun k => units k * den :=
    units_strictMono.mul_const hden
  obtain ⟨hunits, -⟩ := floorRank_spec num den
  have hgap : 0 < gap (floorRank num den) * den := Nat.mul_pos (Nat.two_pow_pos _) hden
  rw [nearestUnits_eq_floorRank]
  generalize floorRank num den = low at hunits hgap ⊢
  split
  · -- more than nothing was cut off
    refine hmono.lt_iff_lt.1 (?_ : units low * den < units rank * den)
    omega
  · refine hmono.le_iff_le.1 (?_ : units low * den ≤ units rank * den)
    omega

/-- A ratio lies between the midpoints below and above a rank; at a midpoint the even rank has
it. -/
structure Rounds (rank num den : Nat) : Prop where
  low : (units (rank - 1) + units rank) * den ≤ 2 * num
  high : 2 * num ≤ (units rank + units (rank + 1)) * den
  tie : rank % 2 = 1 → (units (rank - 1) + units rank) * den ≠ 2 * num ∧
    2 * num ≠ (units rank + units (rank + 1)) * den

theorem roundsTo_iff {rank num den : Nat} :
    roundsTo rank num den = true ↔ Rounds rank (num * one) den := by
  unfold roundsTo
  by_cases heven : rank % 2 = 0
  · simp only [heven, if_true, Bool.and_eq_true, decide_eq_true_eq]
    exact ⟨fun h => ⟨h.1, h.2, by omega⟩, fun h => ⟨h.low, h.high⟩⟩
  · simp only [heven, if_false, Bool.and_eq_true, decide_eq_true_eq]
    refine ⟨fun h => ⟨h.1.le, h.2.le, fun _ => ⟨h.1.ne, h.2.ne⟩⟩, fun h => ?_⟩
    have hodd := h.tie (by omega)
    exact ⟨Nat.lt_of_le_of_ne h.low hodd.1, Nat.lt_of_le_of_ne h.high hodd.2⟩

theorem nearestUnits_of_rounds {rank num den : Nat} (hden : 0 < den)
    (h : Rounds rank num den) : nearestUnits num den = rank := by
  have hmono : StrictMono fun k => units k * den :=
    units_strictMono.mul_const hden
  obtain ⟨hunits, hgap⟩ := floorRank_spec num den
  have hrest : num % (den * 2 ^ ((num / den).log2 - 52)) <
      den * 2 ^ ((num / den).log2 - 52) :=
    Nat.mod_lt _ (Nat.mul_pos hden (Nat.two_pow_pos _))
  have hnext : units (floorRank num den + 1) * den =
      units (floorRank num den) * den + gap (floorRank num den) * den := by
    rw [units_succ, Nat.add_mul]
  rw [nearestUnits_eq_floorRank]
  generalize floorRank num den = low at hunits hgap hnext ⊢
  obtain ⟨hbelow, habove, htie⟩ := h
  simp only [Nat.add_mul] at hbelow habove htie
  rcases Nat.lt_or_ge num (units rank * den) with hlt | hge
  · -- the ratio was cut down to the rank before, and is past the midpoint between the two
    have hrank : rank ≠ 0 := by
      rintro rfl
      simp [units_zero] at hlt
    have hle : low < rank := by
      refine hmono.lt_iff_lt.1 (?_ : units low * den < units rank * den)
      omega
    have hge : rank - 1 ≤ low := by
      refine Nat.le_of_lt_succ (hmono.lt_iff_lt.1
        (?_ : units (rank - 1) * den < units (low + 1) * den))
      omega
    obtain rfl : rank = low + 1 := by omega
    simp only [Nat.add_sub_cancel] at hbelow htie
    rw [if_pos]
    omega
  · have hle : low ≤ rank := by
      refine Nat.le_of_lt_succ (hmono.lt_iff_lt.1 (?_ : units low * den < units (rank + 1) * den))
      have hstep : units rank * den < units (rank + 1) * den := hmono (Nat.lt_succ_self rank)
      omega
    have hge : rank ≤ low := by
      refine Nat.le_of_lt_succ (hmono.lt_iff_lt.1 (?_ : units rank * den < units (low + 1) * den))
      omega
    obtain rfl : rank = low := by omega
    rw [if_neg]
    omega

theorem ofRatio_of_roundsTo {rank num den : Nat} (hden : 0 < den) (hrank : rank < rankCount)
    (h : roundsTo rank num den = true) (negative : Bool) :
    ofRatio negative num den = .finite ⟨negative, rank, hrank⟩ := by
  have hnearest : nearest num den = rank := nearestUnits_of_rounds hden (roundsTo_iff.1 h)
  simp only [ofRatio, hnearest, dif_pos hrank]

/-- A ratio that is no more than a finite magnitude is rounded to a finite number. -/
theorem exists_ofRatio {rank num den : Nat} (hden : 0 < den) (hrank : rank < rankCount)
    (h : num * one ≤ units rank * den) (negative : Bool) :
    ∃ x : Finite, ofRatio negative num den = .finite x ∧ x.rank ≤ rank := by
  have hle : nearest num den ≤ rank := by
    rw [nearest]
    exact nearestUnits_le hden h
  generalize hnearest : nearest num den = kept at hle
  have hkept := Nat.lt_of_le_of_lt hle hrank
  refine ⟨⟨negative, kept, hkept⟩, ?_, hle⟩
  simp only [ofRatio, hnearest, dif_pos hkept]

end ModelData.Binary64
