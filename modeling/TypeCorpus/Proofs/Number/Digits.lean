import Mathlib.Data.List.Induction
import Mathlib.Tactic.Ring
import TypeCorpus.Number.Digits

/-! Lists of digits as numbers. A list of digits is below the power of ten of its length, zeros at
the front count for nothing, and the digits of a positive number begin with one that is not zero. -/

namespace TypeCorpus.Number

theorem digits_induction {motive : ℕ → Prop} (one : ∀ n < 10, motive n)
    (more : ∀ n, 10 ≤ n → motive (n / 10) → motive n) (n : ℕ) : motive n := by
  induction n using digits.induct with
  | case1 n h => exact one n h
  | case2 n h ih => exact more n (Nat.not_lt.1 h) ih

theorem digits_of_lt {n : ℕ} (h : n < 10) : digits n = [digitChar n] := by
  rw [digits, if_pos h]

theorem digits_of_le {n : ℕ} (h : 10 ≤ n) : digits n = digits (n / 10) ++ [digitChar (n % 10)] := by
  rw [digits, if_neg (by omega)]

/-- Digits put behind others. -/
theorem ofDigits_append (as bs : List Char) :
    ofDigits (as ++ bs) = ofDigits as * 10 ^ bs.length + ofDigits bs := by
  induction bs using List.reverseRecOn with
  | nil => simp [ofDigits]
  | append_singleton bs b ih =>
    simp only [ofDigits, ← List.append_assoc, List.foldl_append, List.foldl_cons, List.foldl_nil,
      List.length_append, List.length_singleton] at ih ⊢
    rw [ih]
    ring

@[simp] theorem ofDigits_zeros (n : ℕ) : ofDigits (List.replicate n '0') = 0 := by
  induction n with
  | zero => rfl
  | succ n ih => rw [List.replicate_succ', ofDigits_append, ih]; rfl

theorem digitValue_lt {c : Char} (h : c.isDigit = true) : digitValue c < 10 := by
  simp only [Char.isDigit, Bool.and_eq_true, decide_eq_true_eq] at h
  have : c.val ≤ 57 := h.2
  have : c.toNat ≤ 57 := this
  unfold digitValue
  omega

/-- As many digits as places. -/
theorem ofDigits_lt {ds : List Char} (h : ∀ c ∈ ds, c.isDigit = true) :
    ofDigits ds < 10 ^ ds.length := by
  induction ds using List.reverseRecOn with
  | nil => decide
  | append_singleton ds d ih =>
    have hd := digitValue_lt (h d (by simp))
    have hds := ih fun c hc => h c (by simp [hc])
    rw [ofDigits_append]
    simp only [List.length_append, List.length_singleton, Nat.pow_succ, pow_zero, one_mul]
    have : ofDigits [d] = digitValue d := by simp [ofDigits]
    omega

theorem pow_le_of_digits {n : ℕ} (h : n ≠ 0) : 10 ^ ((digits n).length - 1) ≤ n := by
  induction n using digits_induction with
  | one n hn => rw [digits_of_lt hn]; simp; omega
  | more n hn ih =>
    have hlen : 0 < (digits (n / 10)).length := List.length_pos_iff.2 (digits_ne_nil _)
    have hle := ih (by omega)
    rw [digits_of_le hn, List.length_append, List.length_singleton, Nat.add_sub_cancel,
      ← Nat.sub_add_cancel hlen, Nat.pow_succ]
    simp only [Nat.succ_eq_add_one, zero_add] at hle ⊢
    omega

/-- A positive number does not begin with a zero. -/
theorem head_digits_ne {n : ℕ} (h : n ≠ 0) : (digits n).head? ≠ some '0' := by
  induction n using digits_induction with
  | one n hn =>
    rw [digits_of_lt hn]
    revert hn h
    revert n
    decide
  | more n hn ih =>
    obtain ⟨c, cs, hcs⟩ := List.exists_cons_of_ne_nil (digits_ne_nil (n / 10))
    have hne := ih (by omega)
    rw [digits_of_le hn]
    rw [hcs] at hne ⊢
    exact hne

end TypeCorpus.Number
