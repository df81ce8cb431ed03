import Mathlib.Algebra.Order.Field.Power
import Mathlib.Tactic.FieldSimp
import Mathlib.Tactic.Linarith
import Mathlib.Tactic.Positivity
import Mathlib.Tactic.Ring
import TypeCorpus.Number.Decimal

/-! Rounding undoes reading back. The fractions that lie between the middles of the gaps around a
finite number, a middle included where the significand is even, round to that number. Below a power
of two the gap is half as wide; a fraction there is counted in half the unit and rounds up to the
power. -/

namespace TypeCorpus.Number

/-- The nearest quotient, told by the middles around it; a middle counts for the even one. -/
theorem nearest_eq {a d m : ℕ} (hlow : 2 * (m * d) ≤ 2 * a + d) (hhigh : 2 * a ≤ 2 * (m * d) + d)
    (hlowTie : 2 * (m * d) = 2 * a + d → m % 2 = 0)
    (hhighTie : 2 * a = 2 * (m * d) + d → m % 2 = 0) (hd : 0 < d) : nearest a d = m := by
  have hdiv : a / d * d + a % d = a := Nat.div_add_mod' a d
  have hmod : a % d < d := Nat.mod_lt a hd
  by_cases ha : m * d ≤ a
  · have hq : a / d = m := Nat.div_eq_of_lt_le ha (by rw [Nat.succ_mul]; omega)
    rw [hq] at hdiv
    simp only [nearest, hq]
    split
    · rfl
    · rw [if_neg (by omega), if_pos (hhighTie (by omega))]
  · obtain ⟨k, rfl⟩ : ∃ k, m = k + 1 := Nat.exists_eq_succ_of_ne_zero (by rintro rfl; omega)
    have hk : (k + 1) * d = k * d + d := Nat.succ_mul k d
    have hq : a / d = k := Nat.div_eq_of_lt_le (by omega) (by omega)
    rw [hq] at hdiv
    simp only [nearest, hq]
    rw [if_neg (by omega)]
    split
    · rfl
    · have heven := hlowTie (by omega)
      rw [if_neg (by omega)]

namespace Finite

variable {x : Finite}

theorem significand_lt (x : Finite) : x.significand < 2 ^ 53 := by
  have := x.fraction.isLt
  unfold significand fullWidth
  split <;> omega

theorem unit_le (x : Finite) : x.unit ≤ 2045 := by
  have := x.exponent.isLt
  unfold unit
  omega

theorem scaled_eq (x : Finite) : x.scaled = x.significand * 2 ^ x.unit :=
  Nat.shiftLeft_eq _ _

theorem scaled_ne_zero_iff : x.scaled ≠ 0 ↔ x.significand ≠ 0 := by
  rw [scaled_eq]
  simp

/-- Zero is determined by its sign. -/
theorem eq_zero_of_isZero (h : x.isZero = true) : x = zero x.negative := by
  have hscaled : x.scaled = 0 := by simpa [isZero] using h
  have hsignificand : x.significand = 0 := by
    by_contra hne
    exact scaled_ne_zero_iff.2 hne hscaled
  obtain ⟨negative, exponent, fraction⟩ := x
  unfold significand fullWidth at hsignificand
  dsimp only at hsignificand
  split at hsignificand
  · rename_i hexponent
    have hfraction : fraction = 0 := Fin.ext hsignificand
    rw [hexponent, hfraction]
    rfl
  · omega

/-- A number with a leading one has a significand of full width. -/
theorem fullWidth_le (h : 0 < x.unit) : 2 ^ 52 ≤ x.significand := by
  have hne : x.exponent ≠ 0 := by
    intro h0
    simp [unit, h0] at h
  rw [significand, if_neg hne]
  unfold fullWidth
  omega

/-- A leading one alone is a power of two, and the gap below it is half as wide. -/
theorem power_of_significand (hunit : 0 < x.unit) (h : x.significand = 2 ^ 52) :
    x.fraction.val = 0 ∧ 1 < x.exponent.val := by
  have hne : x.exponent ≠ 0 := by
    intro h0
    simp [unit, h0] at hunit
  rw [significand, if_neg hne] at h
  unfold fullWidth at h
  unfold unit at hunit
  omega

theorem significand_of_power (h : x.fraction.val = 0 ∧ 1 < x.exponent.val) :
    x.significand = 2 ^ 52 := by
  have hne : x.exponent ≠ 0 := by
    intro h0
    simp [h0] at h
  rw [significand, if_neg hne, h.1]
  rfl

/-- The fields of a number, from its significand and its unit. -/
theorem ofUnits?_significand (x : Finite) : ofUnits? x.negative x.significand x.unit = some x := by
  obtain ⟨negative, exponent, fraction⟩ := x
  have hfraction := fraction.isLt
  have hexponent := exponent.isLt
  by_cases h0 : exponent = 0
  · subst h0
    simp only [significand, unit, ofUnits?, if_true]
    rw [if_pos (by unfold fullWidth; omega)]
    simp
  · have hpos : 0 < exponent.val := Nat.pos_of_ne_zero fun h => h0 (Fin.ext h)
    have hunit : exponent.val - 1 + 1 = exponent.val := by omega
    simp only [significand, unit, ofUnits?, if_neg h0]
    rw [if_neg (by omega), if_pos (by unfold fullWidth; omega), if_pos (by omega), hunit,
      Nat.add_sub_cancel_left]
    simp

/-- Twice the full width is counted in the next unit. -/
theorem ofUnits?_double (hunit : 0 < x.unit) (hm : x.significand = 2 ^ 52) :
    ofUnits? x.negative (2 ^ 53) (x.unit - 1) = some x := by
  obtain ⟨hzero, hnormal⟩ := power_of_significand hunit hm
  obtain ⟨negative, exponent, fraction⟩ := x
  have hexponent := exponent.isLt
  have hfraction : fraction = 0 := Fin.ext hzero
  simp only at hnormal
  have hu : exponent.val - 1 - 1 + 2 = exponent.val := by omega
  have hwide : ¬ 2 ^ 53 < fullWidth := by decide
  have hwider : ¬ 2 ^ 53 < 2 * fullWidth := by decide
  have hfit : exponent.val - 1 - 1 < 2045 := by omega
  simp only [unit, ofUnits?, hwide, hwider, hfit, if_true, if_false, hu, hfraction]
  simp [fullWidth]

/-! ### The middles of the gaps -/

theorem high_eq (x : Finite) : x.readBack.high = (4 * x.significand + 2) * 2 ^ x.unit := by
  simp only [readBack, scaled_eq, Nat.shiftLeft_eq, one_mul]
  ring

theorem low_eq (h : ¬(x.fraction.val = 0 ∧ 1 < x.exponent.val)) :
    x.readBack.low = (4 * x.significand - 2) * 2 ^ x.unit := by
  simp only [readBack, scaled_eq, Nat.shiftLeft_eq, one_mul, if_neg h, Nat.sub_mul, Nat.mul_assoc]

/-- The lower middle at a power of two. -/
theorem low_eq_of_power (h : x.fraction.val = 0 ∧ 1 < x.exponent.val) :
    x.readBack.low = (4 * x.significand - 1) * 2 ^ x.unit := by
  simp only [readBack, scaled_eq, Nat.shiftLeft_eq, one_mul, if_pos h, Nat.sub_mul, Nat.mul_assoc]

theorem le_low (x : Finite) : (4 * x.significand - 2) * 2 ^ x.unit ≤ x.readBack.low := by
  by_cases h : x.fraction.val = 0 ∧ 1 < x.exponent.val
  · rw [low_eq_of_power h]
    exact Nat.mul_le_mul_right _ (by omega)
  · exact (low_eq h).ge

/-! ### Fractions between the middles -/

/-- The unit that a fraction is counted in, told by the power of two that it reaches. -/
theorem log2_div_eq {a q k : ℕ} (hq : 0 < q) (hlow : 2 ^ k * q ≤ a) (hhigh : a < 2 ^ (k + 1) * q) :
    (a / q).log2 = k := by
  have hle : 2 ^ k ≤ a / q := (Nat.le_div_iff_mul_le hq).2 hlow
  have hlt : a / q < 2 ^ (k + 1) := (Nat.div_lt_iff_lt_mul hq).2 hhigh
  exact (Nat.log2_eq_iff (by have := Nat.two_pow_pos k; omega)).2 ⟨hle, hlt⟩

/-- `a / q` times the smallest positive number lies between the middles of the gaps around a number,
and on a middle only if the significand is even. -/
structure Between (x : Finite) (a q : ℕ) : Prop where
  low_le : x.readBack.low * q ≤ 4 * a
  le_high : 4 * a ≤ x.readBack.high * q
  of_odd : x.significand % 2 = 1 → x.readBack.low * q ≠ 4 * a ∧ 4 * a ≠ x.readBack.high * q

variable {p q a : ℕ}

/-- In its own unit a number is the nearest one. -/
theorem Between.nearest_eq (h : x.Between a q) (hq : 0 < q) :
    nearest a (q * 2 ^ x.unit) = x.significand := by
  obtain ⟨hlow, hhigh, hodd⟩ := h
  generalize hd : q * 2 ^ x.unit = d
  have hle : (4 * x.significand - 2) * d ≤ x.readBack.low * q := by
    rw [← hd, Nat.mul_comm q, ← Nat.mul_assoc]
    exact Nat.mul_le_mul_right q x.le_low
  rw [Nat.sub_mul, Nat.mul_assoc] at hle
  have hge : x.readBack.high * q = 4 * (x.significand * d) + 2 * d := by
    rw [high_eq, ← hd]
    ring
  refine Number.nearest_eq (by omega) (by omega) (fun htie => ?_) (fun htie => ?_)
    (hd ▸ Nat.mul_pos hq (Nat.two_pow_pos _))
  · by_contra hne
    have := (hodd (by omega)).1
    omega
  · by_contra hne
    have := (hodd (by omega)).2
    omega

theorem Between.lt_next_power (h : x.Between a q) (hq : 0 < q) :
    a < 2 ^ (52 + x.unit + 1) * q := by
  have hm := x.significand_lt
  have hhigh := h.le_high
  have hpow : 2 ^ (52 + x.unit + 1) * q = 2 ^ 53 * (2 ^ x.unit * q) := by ring
  rw [high_eq, Nat.mul_assoc] at hhigh
  rw [hpow]
  generalize hd : 2 ^ x.unit * q = d at *
  have hstep : (4 * x.significand + 2) * d < 4 * 2 ^ 53 * d :=
    Nat.mul_lt_mul_of_pos_right (by omega) (hd ▸ Nat.mul_pos (Nat.two_pow_pos _) hq)
  omega

/-- Only a power of two is next to fractions below its leading power. -/
theorem Between.power_of_lt (h : x.Between a q) (hu : 0 < x.unit)
    (hlt : a < 2 ^ 52 * (2 ^ x.unit * q)) : x.fraction.val = 0 ∧ 1 < x.exponent.val := by
  by_contra hpower
  have hlow := h.low_le
  have hwide := x.fullWidth_le hu
  rw [low_eq hpower, Nat.mul_assoc] at hlow
  have hfew : 4 * x.significand - 2 < 4 * 2 ^ 52 := by
    by_contra hmany
    have := Nat.mul_le_mul_right (2 ^ x.unit * q) (Nat.not_lt.1 hmany)
    omega
  exact hpower (power_of_significand hu (by omega))

/-- A number is rounded to when its unit is the one that is chosen. -/
theorem ofRatio?_of_unit (hq : 0 < q) (ha : p <<< 1074 = a)
    (hunit : (a / q).log2 - 52 = x.unit) (h : x.Between a q) :
    ofRatio? x.negative p q = some x := by
  rw [ofRatio?, ha]
  simp only [hunit, Nat.shiftLeft_eq, h.nearest_eq hq]
  exact ofUnits?_significand x

/-- Just below a power of two the unit is half as large. -/
theorem ofRatio?_of_lower_unit (hq : 0 < q) (ha : p <<< 1074 = a) (hu : 0 < x.unit)
    (hunit : (a / q).log2 - 52 = x.unit - 1) (h : x.Between a q)
    (hlt : a < 2 ^ 52 * (2 ^ x.unit * q)) :
    ofRatio? x.negative p q = some x := by
  have hpower := h.power_of_lt hu hlt
  have hm := significand_of_power hpower
  have hlow := h.low_le
  generalize hd : q * 2 ^ (x.unit - 1) = d
  have hdouble : 2 ^ x.unit * q = 2 * d := by
    rw [← hd, Nat.mul_comm q, ← Nat.mul_assoc, ← Nat.pow_add_one', Nat.sub_add_cancel hu]
  rw [low_eq_of_power hpower, hm, Nat.mul_assoc, hdouble] at hlow
  rw [hdouble] at hlt
  have hnearest : nearest a d = 2 ^ 53 :=
    Number.nearest_eq (by omega) (by omega) (fun _ => by decide) (fun _ => by decide)
      (hd ▸ Nat.mul_pos hq (Nat.two_pow_pos _))
  rw [ofRatio?, ha]
  simp only [hunit, Nat.shiftLeft_eq, hd, hnearest]
  exact ofUnits?_double hu hm

/-- A fraction between the middles of the gaps around a number rounds to it. -/
theorem ofRatio?_eq (hq : 0 < q) (ha : p <<< 1074 = a) (h : x.Between a q) :
    ofRatio? x.negative p q = some x := by
  by_cases hreach : 2 ^ (52 + x.unit) * q ≤ a
  · refine ofRatio?_of_unit hq ha ?_ h
    rw [log2_div_eq hq hreach (h.lt_next_power hq)]
    omega
  have hlt : a < 2 ^ 52 * (2 ^ x.unit * q) := by
    rwa [← Nat.mul_assoc, ← Nat.pow_add, ← Nat.not_le]
  rcases Nat.eq_zero_or_pos x.unit with hzero | hu
  · -- near zero there is only one unit
    refine ofRatio?_of_unit hq ha ?_ h
    have hdiv : a / q < 2 ^ 52 := (Nat.div_lt_iff_lt_mul hq).2 (by
      rwa [hzero, pow_zero, one_mul] at hlt)
    have hlog : (a / q).log2 ≤ 52 := by
      by_cases h0 : a / q = 0
      · rw [h0]
        decide
      · exact ((Nat.log2_lt h0).2 hdiv).le
    omega
  · refine ofRatio?_of_lower_unit hq ha hu ?_ h hlt
    have hpower := h.power_of_lt hu hlt
    have hlow := h.low_le
    rw [low_eq_of_power hpower, significand_of_power hpower, Nat.mul_assoc] at hlow
    have hhalf : 2 ^ 52 * (2 ^ x.unit * q) = 2 * (2 ^ (51 + x.unit) * q) := by ring
    have hnext : 2 ^ 52 * (2 ^ x.unit * q) = 2 ^ (51 + x.unit + 1) * q := by ring
    rw [log2_div_eq (k := 51 + x.unit) hq (by omega) (hnext ▸ hlt)]
    omega

end Finite

/-! ### The values that read back -/

/-- The value of a decimal. -/
def Decimal.value (d : Decimal) : ℚ := d.coefficient * 10 ^ d.exponent

/-- The values between the middles, with the middles where they are closed. -/
structure ReadBack.Around (r : ReadBack) (v : ℚ) : Prop where
  low_le : r.low ≤ v * r.unit
  le_high : v * r.unit ≤ r.high
  of_open : r.closed = false → r.low ≠ v * r.unit ∧ v * r.unit ≠ r.high

theorem tenPower_pos (k : ℤ) : 0 < (tenPower k).2 := Nat.pow_pos (by decide)

theorem zpow_eq_tenPower (k : ℤ) : (10 : ℚ) ^ k = (tenPower k).1 / (tenPower k).2 := by
  simp only [tenPower, Nat.pow_eq, Nat.cast_pow, Nat.cast_ofNat]
  obtain ⟨n, rfl | rfl⟩ := k.eq_nat_or_neg
  · simp
  · simp

theorem Decimal.value_eq (d : Decimal) :
    d.value = (d.coefficient * (tenPower d.exponent).1 : ℕ) / (tenPower d.exponent).2 := by
  rw [Decimal.value, zpow_eq_tenPower, Nat.cast_mul]
  ring

namespace ReadBack

/-- A fraction reads back by its numerator and its denominator. -/
theorem around_div_iff (r : ReadBack) {p q : ℕ} (hq : 0 < q) :
    r.Around ((p : ℚ) / q) ↔ r.low * q ≤ p * r.unit ∧ p * r.unit ≤ r.high * q ∧
      (r.closed = false → r.low * q ≠ p * r.unit ∧ p * r.unit ≠ r.high * q) := by
  have hq' : (0 : ℚ) < q := by exact_mod_cast hq
  have hscale : (p : ℚ) / q * r.unit = p * r.unit / q := by ring
  have hlow : (r.low : ℚ) ≤ (p : ℚ) / q * r.unit ↔ r.low * q ≤ p * r.unit := by
    rw [hscale, le_div_iff₀ hq']
    exact_mod_cast Iff.rfl
  have hhigh : (p : ℚ) / q * r.unit ≤ r.high ↔ p * r.unit ≤ r.high * q := by
    rw [hscale, div_le_iff₀ hq']
    exact_mod_cast Iff.rfl
  have hlowEq : (r.low : ℚ) = (p : ℚ) / q * r.unit ↔ r.low * q = p * r.unit := by
    rw [hscale, eq_div_iff hq'.ne']
    exact_mod_cast Iff.rfl
  have hhighEq : (p : ℚ) / q * r.unit = r.high ↔ p * r.unit = r.high * q := by
    rw [hscale, div_eq_iff hq'.ne']
    exact_mod_cast Iff.rfl
  refine ⟨fun h => ⟨hlow.1 h.low_le, hhigh.1 h.le_high, fun hc => ?_⟩,
    fun h => ⟨hlow.2 h.1, hhigh.2 h.2.1, fun hc => ?_⟩⟩
  · exact ⟨fun he => (h.of_open hc).1 (hlowEq.2 he), fun he => (h.of_open hc).2 (hhighEq.2 he)⟩
  · exact ⟨fun he => (h.2.2 hc).1 (hlowEq.1 he), fun he => (h.2.2 hc).2 (hhighEq.1 he)⟩

theorem holds_iff (r : ReadBack) (d : Decimal) : r.holds d = true ↔ r.Around d.value := by
  rw [Decimal.value_eq, around_div_iff r (tenPower_pos _)]
  unfold holds
  dsimp only
  cases hc : r.closed
  · simp
    omega
  · simp

end ReadBack

namespace Finite

variable {x : Finite}

theorem ofRatio?_of_around {p q : ℕ} (hq : 0 < q) (h : x.readBack.Around ((p : ℚ) / q)) :
    ofRatio? x.negative p q = some x := by
  obtain ⟨hlow, hhigh, hopen⟩ := (x.readBack.around_div_iff hq).1 h
  have hshift (n : ℕ) : p * (4 <<< n) = 4 * (p <<< n) := by
    rw [Nat.shiftLeft_eq, Nat.shiftLeft_eq, Nat.mul_left_comm]
  have hunit : p * x.readBack.unit = 4 * (p <<< 1074) := hshift 1074
  rw [hunit] at hlow hhigh hopen
  exact ofRatio?_eq hq rfl ⟨hlow, hhigh, fun hodd => hopen (by simp [readBack, hodd])⟩

/-- Every decimal that reads back as a number is rounded to it. -/
theorem ofDecimal?_of_around {d : Decimal} (h : x.readBack.Around d.value) :
    ofDecimal? x.negative d = some x :=
  ofRatio?_of_around (tenPower_pos _) (d.value_eq ▸ h)

end Finite

end TypeCorpus.Number
