import Mathlib.Data.Nat.Cast.Order.Field
import TypeCorpus.Proofs.Number.Digits
import TypeCorpus.Proofs.Number.Rounding

/-! The shortest decimal of a number reads back as that number. The nearer of the two neighbours
with seventeen digits is at most half of its last place away, and that is less than the distance of
the middles of the gaps; so the search ends with a decimal that reads back. -/

namespace TypeCorpus.Number

/-! ### The number of digits before the point -/

/-- The digits of a fraction that is scaled by ten to the power of `k`. -/
theorem pow_digits_le {a u k : ℕ} (hu : 0 < u) (h : u ≤ a * Nat.pow 10 k) :
    (10 : ℚ) ^ ((digits (a * Nat.pow 10 k / u)).length - k - 1 : ℤ) ≤ a / u := by
  have hpos : (0 : ℚ) < u := by exact_mod_cast hu
  rw [Nat.pow_eq] at *
  generalize hn : a * 10 ^ k / u = n
  have hne : n ≠ 0 := by
    rw [← hn]
    exact (Nat.div_pos h hu).ne'
  have hlen : 0 < (digits n).length := List.length_pos_iff.2 (digits_ne_nil n)
  have hexponent : ((digits n).length - k - 1 : ℤ) = ((digits n).length - 1 : ℕ) - k := by omega
  have hle : (n : ℚ) ≤ a * 10 ^ k / u := by
    rw [← hn]
    have hdiv : ((a * 10 ^ k / u : ℕ) : ℚ) ≤ (a * 10 ^ k : ℕ) / u := Nat.cast_div_le
    exact_mod_cast hdiv
  have hpow : (10 : ℚ) ^ ((digits n).length - 1) ≤ n := by exact_mod_cast pow_le_of_digits hne
  rw [hexponent, zpow_sub₀ (by norm_num), zpow_natCast, zpow_natCast, div_le_iff₀ (by positivity)]
  calc (10 : ℚ) ^ ((digits n).length - 1) ≤ n := hpow
    _ ≤ a * 10 ^ k / u := hle
    _ = a / u * 10 ^ k := by ring

namespace ReadBack

variable {r : ReadBack}

/-- The value that is written, as a fraction. -/
def exact (r : ReadBack) : ℚ := r.value / r.unit

theorem pow_magnitude_le (hunit : 0 < r.unit) (h : r.unit ≤ r.value * Nat.pow 10 400) :
    (10 : ℚ) ^ (r.magnitude - 1) ≤ r.exact := by
  simpa only [magnitude, exact, Nat.cast_ofNat] using pow_digits_le hunit h

/-- The value in units of a decimal place: a whole number of them and a rest. -/
theorem exact_eq (hunit : 0 < r.unit) (k : ℤ) {a d : ℕ} (ha : r.value * (tenPower k).2 = a)
    (hd : r.unit * (tenPower k).1 = d) :
    r.exact = ((a / d : ℕ) + (a % d : ℕ) / d) * 10 ^ k := by
  have hup : 0 < (tenPower k).1 := Nat.pow_pos (by decide)
  have hdown : 0 < (tenPower k).2 := tenPower_pos k
  rw [zpow_eq_tenPower, exact]
  generalize (tenPower k).1 = up at *
  generalize (tenPower k).2 = down at *
  have hvalue : (r.value : ℚ) * down = (a / d : ℕ) * (r.unit * up) + (a % d : ℕ) := by
    rw [← Nat.cast_mul r.unit, hd, ← Nat.cast_mul r.value, ha]
    exact_mod_cast (Nat.div_add_mod' a d).symm
  rw [← hd] at *
  push_cast
  field_simp
  linarith

/-- One of the two neighbours is at most half of the last place away. -/
theorem neighbours_near (tie : Tie) (hunit : 0 < r.unit) (n : ℕ) :
    ∃ d ∈ r.neighbours tie n, |d.value - r.exact| ≤ 10 ^ (r.magnitude - n) / 2 := by
  simp only [neighbours]
  generalize r.magnitude - (n : ℤ) = k
  generalize ha : r.value * (tenPower k).2 = a
  generalize hd : r.unit * (tenPower k).1 = d
  rw [exact_eq hunit k ha hd]
  have hpos : 0 < d := hd ▸ Nat.mul_pos hunit (Nat.pow_pos (by decide))
  have hlt : a % d < d := Nat.mod_lt a hpos
  generalize a / d = q at *
  generalize a % d = rest at *
  have hd' : (0 : ℚ) < d := by exact_mod_cast hpos
  have hplace : (0 : ℚ) < 10 ^ k := by positivity
  split
  · rename_i hnear
    have hrest : (0 : ℚ) ≤ rest / d := by positivity
    have hhalf : (rest : ℚ) / d ≤ 1 / 2 := by
      rw [div_le_div_iff₀ hd' (by norm_num)]
      exact_mod_cast (by omega : rest * 2 ≤ 1 * d)
    refine ⟨⟨q, k⟩, by simp, ?_⟩
    rw [Decimal.value, abs_le]
    constructor <;> nlinarith
  · rename_i hfar
    have hhalf : 1 / 2 ≤ (rest : ℚ) / d := by
      rw [div_le_div_iff₀ (by norm_num) hd']
      exact_mod_cast (by omega : 1 * d ≤ rest * 2)
    have hone : (rest : ℚ) / d ≤ 1 := by
      rw [div_le_one hd']
      exact_mod_cast hlt.le
    refine ⟨⟨q + 1, k⟩, by simp, ?_⟩
    rw [Decimal.value, Nat.cast_add, Nat.cast_one, abs_le]
    constructor <;> nlinarith

end ReadBack

/-! ### Seventeen digits -/

namespace Finite

variable {x : Finite}

theorem readBack_unit (x : Finite) : x.readBack.unit = 4 <<< 1074 := rfl

theorem readBack_unit_pos (x : Finite) : 0 < x.readBack.unit := by
  have hshift (n : ℕ) : 0 < 4 <<< n := by
    rw [Nat.shiftLeft_eq]
    exact Nat.mul_pos (by decide) (Nat.two_pow_pos n)
  exact hshift 1074

theorem significand_pos (h : x.isZero = false) : 0 < x.significand := by
  have : x.scaled ≠ 0 := by simpa [isZero] using h
  exact Nat.pos_of_ne_zero (scaled_ne_zero_iff.1 this)

theorem exact_mul_unit (x : Finite) :
    x.readBack.exact * x.readBack.unit = 4 * x.significand * 2 ^ x.unit := by
  have hunit : (x.readBack.unit : ℚ) ≠ 0 := by exact_mod_cast x.readBack_unit_pos.ne'
  have hvalue : x.readBack.value = 4 * x.significand * 2 ^ x.unit := by
    rw [readBack, scaled_eq, Nat.mul_assoc]
  rw [ReadBack.exact, div_mul_cancel₀ _ hunit, hvalue]
  push_cast
  ring

/-- The middles of the gaps are farther away than a part in two times ten to the power of 16. -/
theorem around_of_near (h : x.isZero = false) {v S : ℚ} (hS : S * 10 ^ 16 ≤ x.readBack.exact)
    (hv : |v - x.readBack.exact| ≤ S / 2) : x.readBack.Around v := by
  have hm : (x.significand : ℚ) < 2 ^ 53 := by exact_mod_cast x.significand_lt
  have hm' := significand_pos h
  have hunit : (0 : ℚ) < x.readBack.unit := by exact_mod_cast x.readBack_unit_pos
  have hexact := x.exact_mul_unit
  have hU : (0 : ℚ) < 2 ^ x.unit := by positivity
  have hdistance : |v * x.readBack.unit - 4 * x.significand * 2 ^ x.unit| ≤
      2 * x.significand / 10 ^ 16 * 2 ^ x.unit := by
    rw [← hexact, ← sub_mul, abs_mul, abs_of_pos hunit]
    calc |v - x.readBack.exact| * x.readBack.unit
        ≤ x.readBack.exact / (2 * 10 ^ 16) * x.readBack.unit := by
          refine mul_le_mul_of_nonneg_right (hv.trans ?_) hunit.le
          rw [le_div_iff₀ (by norm_num)]
          linarith
      _ = 2 * x.significand / 10 ^ 16 * 2 ^ x.unit := by
          rw [div_mul_eq_mul_div, hexact]
          ring
  obtain ⟨hleft, hright⟩ := abs_le.1 hdistance
  have hlow : (x.readBack.low : ℚ) < v * x.readBack.unit := by
    by_cases hpower : x.fraction.val = 0 ∧ 1 < x.exponent.val
    · rw [low_eq_of_power hpower, significand_of_power hpower]
      rw [significand_of_power hpower] at hleft
      push_cast at hleft ⊢
      nlinarith
    · rw [low_eq hpower, Nat.cast_mul, Nat.cast_sub (by omega)]
      push_cast
      nlinarith
  have hhigh : v * x.readBack.unit < x.readBack.high := by
    rw [high_eq]
    push_cast
    nlinarith
  exact ⟨hlow.le, hhigh.le, fun _ => ⟨hlow.ne, hhigh.ne⟩⟩

/-- The smallest positive number and ten to the power of minus 400. -/
theorem unit_lt (x : Finite) : x.readBack.unit < 2 * Nat.pow 10 400 := by
  rw [readBack_unit]
  decide +kernel

theorem unit_le_value (h : x.isZero = false) {t : ℕ} (ht : x.readBack.unit < 2 * t) :
    x.readBack.unit ≤ x.readBack.value * t := by
  have hvalue : 2 ≤ x.readBack.value := by
    have : x.scaled ≠ 0 := by simpa [isZero] using h
    show 2 ≤ 4 * x.scaled
    omega
  exact ht.le.trans (Nat.mul_le_mul_right t hvalue)

/-- With seventeen digits one of the neighbours reads back. -/
theorem exists_holds (tie : Tie) (h : x.isZero = false) :
    ∃ d ∈ x.readBack.neighbours tie 17, x.readBack.holds d = true := by
  obtain ⟨d, hd, hnear⟩ := x.readBack.neighbours_near tie x.readBack_unit_pos 17
  refine ⟨d, hd, (x.readBack.holds_iff d).2 (around_of_near h ?_ hnear)⟩
  have hplace : (10 : ℚ) ^ (x.readBack.magnitude - (17 : ℕ)) * 10 ^ 16 =
      10 ^ (x.readBack.magnitude - 1) := by
    rw [← zpow_natCast, ← zpow_add₀ (by norm_num)]
    congr 1
    push_cast
    ring
  rw [hplace]
  exact ReadBack.pow_magnitude_le x.readBack_unit_pos (unit_le_value h x.unit_lt)

theorem strip_value (n : ℕ) (d : Decimal) : (d.strip n).value = d.value := by
  induction n generalizing d with
  | zero => rfl
  | succ n ih =>
    rw [Decimal.strip]
    split
    · rename_i hzero
      have hten : d.coefficient = d.coefficient / 10 * 10 := by omega
      rw [ih, Decimal.value, Decimal.value, zpow_add_one₀ (by norm_num)]
      conv_rhs => rw [hten]
      push_cast
      ring
    · rfl

/-- The decimal that is written reads back. -/
theorem shortest_around (tie : Tie) (h : x.isZero = false) :
    x.readBack.Around (x.shortest tie).value := by
  obtain ⟨d, hd, hholds⟩ := exists_holds tie h
  have hsome : ((List.range 17).findSome? fun n =>
      (x.readBack.neighbours tie (n + 1)).find? x.readBack.holds).isSome := by
    rw [List.findSome?_isSome_iff]
    exact ⟨16, by simp, List.find?_isSome.2 ⟨d, hd, hholds⟩⟩
  obtain ⟨found, hfound⟩ := Option.isSome_iff_exists.1 hsome
  obtain ⟨n, -, hn⟩ := List.exists_of_findSome?_eq_some hfound
  rw [shortest]
  simp only [hfound, Option.getD_some]
  rw [strip_value]
  exact (x.readBack.holds_iff found).1 (List.find?_some hn)

/-! ### The range of the numbers -/

theorem two_le_low (h : x.isZero = false) : 2 ≤ x.readBack.low := by
  have hm := significand_pos h
  calc 2 ≤ (4 * x.significand - 2) * 1 := by omega
    _ ≤ (4 * x.significand - 2) * 2 ^ x.unit := Nat.mul_le_mul_left _ Nat.one_le_two_pow
    _ ≤ x.readBack.low := x.le_low

theorem high_le {n : ℕ} (h : x.unit ≤ n) : x.readBack.high ≤ 4 * 2 ^ 53 * Nat.pow 2 n := by
  have hm := x.significand_lt
  rw [high_eq]
  exact Nat.mul_le_mul (by omega) (Nat.pow_le_pow_right (by decide) h)

theorem high_lt (x : Finite) : x.readBack.high < Nat.pow 10 400 * x.readBack.unit := by
  refine (high_le x.unit_le).trans_lt ?_
  rw [readBack_unit]
  decide +kernel

theorem cast_natPow (k : ℕ) : ((Nat.pow 10 k : ℕ) : ℚ) = 10 ^ (k : ℤ) := by
  rw [zpow_natCast]
  exact Nat.cast_pow 10 k

theorem range_of_bounds (h : x.isZero = false) {k : ℕ} (hunit : x.readBack.unit < 2 * Nat.pow 10 k)
    (hhigh : x.readBack.high < Nat.pow 10 k * x.readBack.unit) {v : ℚ} (hv : x.readBack.Around v) :
    (10 : ℚ) ^ (-k : ℤ) < v ∧ v < 10 ^ (k : ℤ) := by
  rw [zpow_neg, ← cast_natPow]
  generalize Nat.pow 10 k = t at *
  have hpos : (0 : ℚ) < x.readBack.unit := by exact_mod_cast x.readBack_unit_pos
  have hlow : (2 : ℚ) ≤ v * x.readBack.unit :=
    le_trans (by exact_mod_cast two_le_low h) hv.low_le
  have hv0 : 0 < v := pos_of_mul_pos_left (by linarith) hpos.le
  have hlt : (x.readBack.unit : ℚ) < 2 * t := by exact_mod_cast hunit
  have hlarge : (x.readBack.high : ℚ) < t * x.readBack.unit := by exact_mod_cast hhigh
  constructor
  · rw [inv_lt_iff_one_lt_mul₀ (by linarith)]
    have := mul_lt_mul_of_pos_left hlt hv0
    linarith
  · exact lt_of_mul_lt_mul_right (hv.le_high.trans_lt hlarge) hpos.le

/-- What reads back as a number other than zero is neither too small nor too large. -/
theorem range_of_around (h : x.isZero = false) {v : ℚ} (hv : x.readBack.Around v) :
    (10 : ℚ) ^ (-400 : ℤ) < v ∧ v < 10 ^ (400 : ℤ) := by
  simpa only [Nat.cast_ofNat] using range_of_bounds h x.unit_lt x.high_lt hv

end Finite

end TypeCorpus.Number
