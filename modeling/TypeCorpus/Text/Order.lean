/-! The order of texts by code point, which for names is the order of their encoded bytes: the first
place where two texts differ decides, and a text comes before its extensions. -/

namespace TypeCorpus.Text

/-- The first list comes before the second or equals it. -/
def notAfter : List Nat → List Nat → Bool
  | [], _ => true
  | _ :: _, [] => false
  | a :: s, b :: t => if a = b then notAfter s t else a < b

/-- The first text comes before the second or equals it. -/
def ordered (s t : String) : Bool := notAfter (s.toList.map Char.toNat) (t.toList.map Char.toNat)

theorem notAfter_total (s t : List Nat) : (notAfter s t || notAfter t s) = true := by
  induction s generalizing t with
  | nil => simp [notAfter]
  | cons a s ih =>
    cases t with
    | nil => simp [notAfter]
    | cons b t =>
      by_cases h : a = b
      · subst h; simpa [notAfter] using ih t
      · have h' : ¬ b = a := fun hb => h hb.symm
        simp only [notAfter, if_neg h, if_neg h', Bool.or_eq_true, decide_eq_true_eq]
        omega

theorem notAfter_trans {s t u : List Nat} (hst : notAfter s t = true) (htu : notAfter t u = true) :
    notAfter s u = true := by
  induction s generalizing t u with
  | nil => rfl
  | cons a s ih =>
    cases t with
    | nil => simp [notAfter] at hst
    | cons b t =>
      cases u with
      | nil => simp [notAfter] at htu
      | cons c u =>
        simp only [notAfter] at hst htu ⊢
        by_cases hab : a = b
        · subst hab
          rw [if_pos rfl] at hst
          by_cases hac : a = c
          · rw [if_pos hac] at htu ⊢; exact ih hst htu
          · rwa [if_neg hac] at htu ⊢
        · rw [if_neg hab, decide_eq_true_eq] at hst
          by_cases hbc : b = c
          · subst hbc; rw [if_neg hab]; simpa using hst
          · rw [if_neg hbc, decide_eq_true_eq] at htu
            have : ¬ a = c := by omega
            rw [if_neg this, decide_eq_true_eq]; omega

theorem notAfter_antisymm {s t : List Nat} (hst : notAfter s t = true) (hts : notAfter t s = true) :
    s = t := by
  induction s generalizing t with
  | nil => cases t with
    | nil => rfl
    | cons b t => simp [notAfter] at hts
  | cons a s ih =>
    cases t with
    | nil => simp [notAfter] at hst
    | cons b t =>
      simp only [notAfter] at hst hts
      by_cases hab : a = b
      · subst hab
        rw [if_pos rfl] at hst hts
        rw [ih hst hts]
      · have hba : ¬ b = a := fun hb => hab hb.symm
        rw [if_neg hab, decide_eq_true_eq] at hst
        rw [if_neg hba, decide_eq_true_eq] at hts
        omega

end TypeCorpus.Text
