/-! Occurrences of one text in another. `after? w s` is what follows `w` at the front of `s`;
`firstAfter? w s` is what follows the first occurrence of `w` anywhere in `s`. Both give back a part
of `s`, so a search that goes on from there ends. -/

namespace TypeCorpus.Text

/-- What follows `w` at the front of a text. -/
def after? : List Char → List Char → Option (List Char)
  | [], s => some s
  | _ :: _, [] => none
  | a :: w, c :: s => if a = c then after? w s else none

/-- What follows the first occurrence of `w` in a text. -/
def firstAfter? (w : List Char) : List Char → Option (List Char)
  | [] => after? w []
  | c :: s =>
    match after? w (c :: s) with
    | some r => some r
    | none => firstAfter? w s

def occursIn (w s : List Char) : Bool := (firstAfter? w s).isSome

/-- The text with its first `a` replaced by `w`. -/
def replaceFirst (a : Char) (w : List Char) : List Char → List Char
  | [] => []
  | c :: s => if c = a then w ++ s else c :: replaceFirst a w s

theorem eq_append_of_after? {w s r : List Char} (h : after? w s = some r) : s = w ++ r := by
  induction w generalizing s with
  | nil => simpa [after?] using h
  | cons a w ih =>
    cases s with
    | nil => simp [after?] at h
    | cons c s =>
      by_cases hc : a = c
      · rw [after?, if_pos hc] at h
        simp [hc, ih h]
      · rw [after?, if_neg hc] at h
        cases h

@[simp] theorem after?_append (w r : List Char) : after? w (w ++ r) = some r := by
  induction w with
  | nil => rfl
  | cons a w ih => simp [after?, ih]

theorem after?_eq_some_iff {w s r : List Char} : after? w s = some r ↔ s = w ++ r :=
  ⟨eq_append_of_after?, fun h => h ▸ after?_append w r⟩

theorem exists_of_firstAfter? {w s r : List Char} (h : firstAfter? w s = some r) :
    ∃ p, s = p ++ w ++ r := by
  induction s with
  | nil => exact ⟨[], by simpa using eq_append_of_after? h⟩
  | cons c s ih =>
    simp only [firstAfter?] at h
    split at h
    · rename_i r' hr
      cases h
      exact ⟨[], by simpa using eq_append_of_after? hr⟩
    · obtain ⟨p, hp⟩ := ih h
      exact ⟨c :: p, by simp [hp]⟩

/-- The first occurrence is the one with the least in front of it. -/
theorem firstAfter?_eq_some_iff {w s r : List Char} : firstAfter? w s = some r ↔
    ∃ p, s = p ++ w ++ r ∧ ∀ p' r', s = p' ++ w ++ r' → p.length ≤ p'.length := by
  induction s with
  | nil =>
    simp only [firstAfter?, after?_eq_some_iff]
    constructor
    · intro h
      exact ⟨[], h, fun p' r' _ => Nat.zero_le _⟩
    · rintro ⟨p, hp, -⟩
      have hnil : p = [] ∧ w = [] ∧ r = [] := by simpa using hp
      simp [hnil]
  | cons c s ih =>
    cases h : after? w (c :: s) with
    | some q =>
      have hq : c :: s = w ++ q := after?_eq_some_iff.1 h
      simp only [firstAfter?, h, Option.some.injEq]
      constructor
      · rintro rfl
        exact ⟨[], hq, fun p' r' _ => Nat.zero_le _⟩
      · rintro ⟨p, hp, hmin⟩
        have hnil : p = [] := List.length_eq_zero_iff.1 (Nat.le_zero.1 (hmin [] q hq))
        rw [hnil, List.nil_append, hq] at hp
        exact List.append_cancel_left hp
    | none =>
      simp only [firstAfter?, h, ih]
      have hpos : ∀ {p' r'}, c :: s = p' ++ w ++ r' → ∃ p, p' = c :: p ∧ s = p ++ w ++ r' := by
        intro p' r' hp'
        cases p' with
        | nil =>
          rw [List.nil_append] at hp'
          rw [after?_eq_some_iff.2 hp'] at h
          cases h
        | cons a p =>
          simp only [List.cons_append, List.cons.injEq] at hp'
          exact ⟨p, by rw [hp'.1], by rw [hp'.2]⟩
      constructor
      · rintro ⟨p, hp, hmin⟩
        refine ⟨c :: p, by simp [hp], fun p' r' hp' => ?_⟩
        obtain ⟨q, rfl, hq⟩ := hpos hp'
        exact Nat.succ_le_succ (hmin q r' hq)
      · rintro ⟨p, hp, hmin⟩
        obtain ⟨q, rfl, hq⟩ := hpos hp
        refine ⟨q, hq, fun p' r' hp' => ?_⟩
        exact Nat.le_of_succ_le_succ (hmin (c :: p') r' (by simp [hp']))

theorem length_of_firstAfter? {w s r : List Char} (h : firstAfter? w s = some r) :
    r.length + w.length ≤ s.length := by
  obtain ⟨p, rfl⟩ := exists_of_firstAfter? h
  simp; omega

end TypeCorpus.Text
