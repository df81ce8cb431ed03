import Mathlib.Data.List.TakeWhile
import TypeCorpus.Json.Token
import TypeCorpus.Proofs.Number.Shortest

/-! Numbers of JSON read back. The text of a number is a sign, digits, a fraction and an exponent,
whichever way it is laid out, and its parts stand for a decimal with the value of the shortest one.
What follows the number only has to begin with nothing that could go on with it. -/

namespace TypeCorpus.Json

open Number (Finite Decimal digits ofDigits integerDigits)

/-! ### Parts of a number -/

/-- What cannot go on with digits. -/
def NoDigit (s : List Char) : Prop := ∀ c ∈ s.head?, c.isDigit = false

/-- What cannot go on with a number. -/
def NoNumber (s : List Char) : Prop :=
  ∀ c ∈ s.head?, c.isDigit = false ∧ c ≠ '.' ∧ c ≠ 'e' ∧ c ≠ 'E'

/-- A part that is all digits. -/
def AllDigits (ds : List Char) : Prop := ∀ c ∈ ds, c.isDigit = true

theorem NoNumber.noDigit {s : List Char} (h : NoNumber s) : NoDigit s := fun c hc => (h c hc).1

theorem noDigit_cons {c : Char} (hc : c.isDigit = false) (s : List Char) : NoDigit (c :: s) := by
  rintro d ⟨⟩
  exact hc

theorem allDigits_digits (n : ℕ) : AllDigits (digits n) :=
  fun _ hc => Number.isDigit_of_mem_digits hc

theorem allDigits_zeros (n : ℕ) : AllDigits (List.replicate n '0') := by
  intro c hc
  rw [List.eq_of_mem_replicate hc]
  decide

theorem AllDigits.append {as bs : List Char} (ha : AllDigits as) (hb : AllDigits bs) :
    AllDigits (as ++ bs) := fun c hc => (List.mem_append.1 hc).elim (ha c) (hb c)

theorem AllDigits.take {ds : List Char} (h : AllDigits ds) (n : ℕ) : AllDigits (ds.take n) :=
  fun c hc => h c (List.mem_of_mem_take hc)

theorem AllDigits.drop {ds : List Char} (h : AllDigits ds) (n : ℕ) : AllDigits (ds.drop n) :=
  fun c hc => h c (List.mem_of_mem_drop hc)

variable {ds s : List Char}

theorem takeWhile_digits (hds : AllDigits ds) (hs : NoDigit s) :
    (ds ++ s).takeWhile Char.isDigit = ds := by
  rw [List.takeWhile_append_of_pos hds]
  cases s with
  | nil => simp
  | cons c s => simp [hs c rfl]

theorem dropWhile_digits (hds : AllDigits ds) (hs : NoDigit s) :
    (ds ++ s).dropWhile Char.isDigit = s := by
  rw [List.dropWhile_append_of_pos hds]
  cases s with
  | nil => simp
  | cons c s => simp [hs c rfl]

theorem fractionPart_none (h : s.head? ≠ some '.') : fractionPart s = some (none, s) := by
  unfold fractionPart
  split
  · simp at h
  · rfl

theorem fractionPart_digits (hds : AllDigits ds) (hne : ds ≠ []) (hs : NoDigit s) :
    fractionPart ('.' :: (ds ++ s)) = some (some ds, s) := by
  simp only [fractionPart, takeWhile_digits hds hs, dropWhile_digits hds hs, if_neg hne]

theorem exponentPart_none (h : NoNumber s) : exponentPart s = some (none, s) := by
  cases s with
  | nil => rfl
  | cons c s =>
    have hc := h c rfl
    simp [exponentPart, hc.2.2.1, hc.2.2.2]

/-- Digits begin with no sign. -/
theorem head?_digits_ne (n : ℕ) {c : Char} (hc : c.isDigit = false) :
    (digits n).head? ≠ some c := by
  intro h
  have := allDigits_digits n c (List.mem_of_head? h)
  rw [hc] at this
  cases this

/-- An exponent with its digits; a plus may stand before one that is not negative. -/
theorem exponentPart_digits {i : ℤ} {plus : Bool} (hplus : plus = true → 0 ≤ i) (hs : NoDigit s) :
    exponentPart ('e' :: ((if plus then ['+'] else []) ++ integerDigits i ++ s)) =
      some (some i, s) := by
  have htake := takeWhile_digits (allDigits_digits i.natAbs) hs
  have hdrop := dropWhile_digits (allDigits_digits i.natAbs) hs
  have hne := Number.digits_ne_nil i.natAbs
  by_cases hneg : i < 0
  · have hp : plus = false := by
      by_contra hp
      have := hplus (by simpa using hp)
      omega
    simp [exponentPart, integerDigits, hneg, hp, htake, hdrop, hne, abs_of_neg]
  · have habs : |i| = i := abs_of_nonneg (by omega)
    cases plus with
    | true => simp [exponentPart, integerDigits, hneg, htake, hdrop, hne, habs]
    | false =>
      have hminus := head?_digits_ne i.natAbs (c := '-') (by decide)
      have hnoplus := head?_digits_ne i.natAbs (c := '+') (by decide)
      simp [exponentPart, integerDigits, hneg, htake, hdrop, hne, habs, hminus, hnoplus]

/-- The sign of a number, which is only written for a negative one. -/
def sign (negative : Bool) : List Char := if negative then ['-'] else []

/-- A number is read part by part. -/
theorem readNumber_of_parts {negative : Bool} {whole t u : List Char}
    {fraction : Option (List Char)} {exponent : Option ℤ} {n : Numeral} (hwhole : AllDigits whole)
    (hne : whole ≠ []) (hzero : whole.head? = some '0' → whole.length = 1) (ht : NoDigit t)
    (hf : fractionPart t = some (fraction, u)) (he : exponentPart u = some (exponent, s))
    (hn : numberOfParts negative whole fraction exponent = some n) :
    readNumber (sign negative ++ whole ++ t) = some (n, s) := by
  have htake := takeWhile_digits hwhole ht
  have hdrop := dropWhile_digits hwhole ht
  have hlead : ¬(whole = [] ∨ (whole.head? = some '0' ∧ 1 < whole.length)) := by
    rintro (h | ⟨h, hlen⟩)
    · exact hne h
    · have := hzero h
      omega
  cases negative with
  | true =>
    simp only [readNumber, sign, if_true, List.cons_append, List.nil_append, List.head?_cons,
      List.drop_one, List.tail_cons, htake, hdrop, if_neg hlead, hf, he, decide_true, hn,
      Option.map_some]
  | false =>
    have hminus : (whole ++ t).head? ≠ some '-' := by
      obtain ⟨c, cs, rfl⟩ := List.exists_cons_of_ne_nil hne
      rintro ⟨⟩
      exact absurd (hwhole '-' List.mem_cons_self) (by decide)
    simp only [readNumber, sign, Bool.false_eq_true, if_false, List.nil_append, hminus, htake,
      hdrop, if_neg hlead, hf, he, decide_false, hn, Option.map_some]

/-! ### The value of the parts -/

/-- The decimal of the parts of a number. -/
def decimalOfParts (whole : List Char) (fraction : Option (List Char)) (exponent : Option ℤ) :
    Decimal :=
  ⟨ofDigits (whole ++ fraction.getD []), exponent.getD 0 - (fraction.getD []).length⟩

/-- A decimal with this many digits is not far out of range. -/
theorem exponent_bounds {d : Decimal} {len : ℕ} (hlen : d.coefficient < 10 ^ len)
    (hlow : (10 : ℚ) ^ (-400 : ℤ) < d.value) (hhigh : d.value < 10 ^ (400 : ℤ)) :
    d.coefficient ≠ 0 ∧ -400 ≤ d.exponent + len ∧ d.exponent ≤ 400 + len := by
  have hten : (0 : ℚ) < 10 ^ d.exponent := by positivity
  have hne : d.coefficient ≠ 0 := by
    intro h0
    rw [Decimal.value, h0, Nat.cast_zero, zero_mul] at hlow
    exact absurd hlow (not_lt.2 (by positivity))
  refine ⟨hne, ?_, ?_⟩
  · by_contra hsmall
    have hle : d.value ≤ 10 ^ (-400 : ℤ) :=
      calc d.value ≤ 10 ^ len * 10 ^ d.exponent :=
            mul_le_mul_of_nonneg_right (by exact_mod_cast hlen.le) hten.le
        _ = 10 ^ (len + d.exponent) := by rw [zpow_add₀ (by norm_num), zpow_natCast]
        _ ≤ 10 ^ (-400 : ℤ) := zpow_le_zpow_right₀ (by norm_num) (by omega)
    exact absurd hlow (not_lt.2 hle)
  · by_contra hlarge
    have hone : (1 : ℚ) ≤ d.coefficient := by exact_mod_cast Nat.one_le_iff_ne_zero.2 hne
    have hle : (10 : ℚ) ^ (400 : ℤ) ≤ d.value :=
      calc (10 : ℚ) ^ (400 : ℤ) ≤ 10 ^ d.exponent := zpow_le_zpow_right₀ (by norm_num) (by omega)
        _ ≤ d.value := le_mul_of_one_le_left hten.le hone
    exact absurd hhigh (not_lt.2 hle)

/-- Parts whose decimal reads back as a number give that number. -/
theorem numberOfParts_of_around {x : Finite} (hx : x.isZero = false) {whole : List Char}
    {fraction : Option (List Char)} {exponent : Option ℤ}
    (hparts : fraction.isSome ∨ exponent.isSome) (hwhole : AllDigits whole)
    (hfraction : AllDigits (fraction.getD []))
    (h : x.readBack.Around (decimalOfParts whole fraction exponent).value) :
    numberOfParts x.negative whole fraction exponent = some (.real x) := by
  obtain ⟨hlow, hhigh⟩ := Finite.range_of_around hx h
  have hlen : (decimalOfParts whole fraction exponent).coefficient <
      10 ^ (whole ++ fraction.getD []).length :=
    Number.ofDigits_lt (hwhole.append hfraction)
  obtain ⟨hne, hsmall, hlarge⟩ := exponent_bounds hlen hlow hhigh
  have hreal := Finite.ofDecimal?_of_around h
  unfold numberOfParts
  split
  · simp at hparts
  · simp only [decimalOfParts] at hne hsmall hlarge hreal
    rw [if_neg (by omega), if_neg (by omega), hreal]
    rfl

/-! ### Layouts -/

section Layout

variable {x : Finite} {d : Decimal}

theorem coefficient_ne_zero (hx : x.isZero = false) (hd : x.readBack.Around d.value) :
    d.coefficient ≠ 0 := by
  obtain ⟨hlow, hhigh⟩ := Finite.range_of_around hx hd
  exact (exponent_bounds (Nat.lt_pow_self (by decide)) hlow hhigh).1

/-- Digits of a positive number, and what is put behind them, have no leading zero. -/
theorem leading_digits {n : ℕ} (hn : n ≠ 0) (t : List Char) :
    (digits n ++ t).head? ≠ some '0' := by
  have hhead := Number.head_digits_ne hn
  obtain ⟨c, cs, hcs⟩ := List.exists_cons_of_ne_nil (Number.digits_ne_nil n)
  rw [hcs] at hhead ⊢
  exact hhead

/-- A number with a fraction and no exponent. -/
theorem readNumber_positional (hx : x.isZero = false) {whole fraction : List Char}
    (hwhole : AllDigits whole) (hne : whole ≠ [])
    (hzero : whole.head? = some '0' → whole.length = 1) (hfraction : AllDigits fraction)
    (hfne : fraction ≠ [])
    (h : x.readBack.Around (decimalOfParts whole (some fraction) none).value) (hs : NoNumber s) :
    readNumber (sign x.negative ++ whole ++ '.' :: (fraction ++ s)) =
      some (.real x, s) :=
  readNumber_of_parts hwhole hne hzero (noDigit_cons (by decide) _)
    (fractionPart_digits hfraction hfne hs.noDigit) (exponentPart_none hs)
    (numberOfParts_of_around hx (.inl rfl) hwhole hfraction h)

/-- Zeros between the point and the digits. -/
theorem readNumber_below (hx : x.isZero = false) (hd : x.readBack.Around d.value)
    (hpoint : (digits d.coefficient).length + d.exponent ≤ 0) (hs : NoNumber s) :
    readNumber (sign x.negative ++ ['0'] ++ '.' ::
      ((List.replicate (-((digits d.coefficient).length + d.exponent)).toNat '0' ++
        digits d.coefficient) ++ s)) = some (.real x, s) := by
  have hparts : decimalOfParts ['0']
      (some (List.replicate (-((digits d.coefficient).length + d.exponent)).toNat '0' ++
        digits d.coefficient)) none = d := by
    obtain ⟨c, e⟩ := d
    dsimp only at hpoint ⊢
    simp only [decimalOfParts, Option.getD_some, Option.getD_none, Decimal.mk.injEq]
    constructor
    · rw [Number.ofDigits_append, Number.ofDigits_append, Number.ofDigits_zeros,
        Number.ofDigits_digits]
      simp [ofDigits, Number.digitValue]
    · rw [List.length_append, List.length_replicate]
      omega
  have hzero : AllDigits ['0'] := by simp [AllDigits]
  exact readNumber_positional hx hzero (List.cons_ne_nil _ _) (fun _ => rfl)
    ((allDigits_zeros _).append (allDigits_digits _))
    (List.append_ne_nil_of_right_ne_nil _ (Number.digits_ne_nil _)) (hparts.symm ▸ hd) hs

/-- Zeros between the digits and the point. -/
theorem readNumber_above (hx : x.isZero = false) (hd : x.readBack.Around d.value)
    (hexponent : 0 ≤ d.exponent) (hs : NoNumber s) :
    readNumber (sign x.negative ++ (digits d.coefficient ++ List.replicate d.exponent.toNat '0') ++
      '.' :: (['0'] ++ s)) = some (.real x, s) := by
  have hparts : (decimalOfParts (digits d.coefficient ++ List.replicate d.exponent.toNat '0')
      (some ['0']) none).value = d.value := by
    obtain ⟨c, e⟩ := d
    obtain ⟨n, rfl⟩ := Int.eq_ofNat_of_zero_le hexponent
    have hzero : ofDigits ['0'] = 0 := rfl
    simp only [decimalOfParts, Option.getD_some, Option.getD_none, Decimal.value,
      Int.toNat_natCast, Number.ofDigits_append, Number.ofDigits_zeros, Number.ofDigits_digits,
      List.length_replicate, List.length_singleton, hzero]
    push_cast
    rw [zpow_natCast]
    norm_num
    ring
  have hzero : AllDigits ['0'] := by simp [AllDigits]
  have hlead := leading_digits (coefficient_ne_zero hx hd) (List.replicate d.exponent.toNat '0')
  exact readNumber_positional hx ((allDigits_digits _).append (allDigits_zeros _))
    (List.append_ne_nil_of_left_ne_nil (Number.digits_ne_nil _) _) (fun h => absurd h hlead) hzero
    (List.cons_ne_nil _ _) (hparts.symm ▸ hd) hs

/-- A point with digits on either side. -/
theorem readNumber_inside (hx : x.isZero = false) (hd : x.readBack.Around d.value) {n : ℕ}
    (hn : ((digits d.coefficient).length : ℤ) + d.exponent = n) (hpos : 0 < n)
    (hexponent : d.exponent < 0) (hs : NoNumber s) :
    readNumber (sign x.negative ++ (digits d.coefficient).take n ++ '.' ::
      ((digits d.coefficient).drop n ++ s)) = some (.real x, s) := by
  have hparts : decimalOfParts ((digits d.coefficient).take n)
      (some ((digits d.coefficient).drop n)) none = d := by
    obtain ⟨c, e⟩ := d
    dsimp only at hn hexponent ⊢
    simp only [decimalOfParts, Option.getD_some, Option.getD_none, Decimal.mk.injEq,
      List.take_append_drop, Number.ofDigits_digits, List.length_drop, true_and]
    omega
  have hleft : (digits d.coefficient).take n ≠ [] :=
    List.ne_nil_of_length_pos (by rw [List.length_take]; omega)
  have hright : (digits d.coefficient).drop n ≠ [] :=
    List.ne_nil_of_length_pos (by rw [List.length_drop]; omega)
  have hlead : ((digits d.coefficient).take n).head? ≠ some '0' := by
    rw [List.head?_take, if_neg hpos.ne']
    exact Number.head_digits_ne (coefficient_ne_zero hx hd)
  exact readNumber_positional hx ((allDigits_digits _).take n) hleft (fun h => absurd h hlead)
    ((allDigits_digits _).drop n) hright (hparts.symm ▸ hd) hs

/-- The digits after the first one, if there are more. -/
def furtherDigits (ds : List Char) : Option (List Char) :=
  if ds.length = 1 then none else some (ds.drop 1)

theorem decimalOfParts_scientific (d : Decimal) :
    decimalOfParts ((digits d.coefficient).take 1) (furtherDigits (digits d.coefficient))
      (some ((digits d.coefficient).length + d.exponent - 1)) = d := by
  obtain ⟨c, e⟩ := d
  dsimp only
  have hpos : 0 < (digits c).length := List.length_pos_iff.2 (Number.digits_ne_nil c)
  by_cases hone : (digits c).length = 1
  · have htake : (digits c).take 1 = digits c := List.take_of_length_le hone.le
    simp [decimalOfParts, furtherDigits, hone, htake]
  · simp only [decimalOfParts, furtherDigits, if_neg hone, Option.getD_some,
      List.take_append_drop, Number.ofDigits_digits, List.length_drop, Decimal.mk.injEq, true_and]
    omega

/-- A fraction of further digits, before the letter of the exponent. -/
theorem fractionPart_further (hds : AllDigits ds) (hne : ds ≠ []) (t : List Char) :
    fractionPart ((if ds.length = 1 then [] else '.' :: ds.drop 1) ++ 'e' :: t) =
      some (furtherDigits ds, 'e' :: t) := by
  have hpos : 0 < ds.length := List.length_pos_iff.2 hne
  by_cases hone : ds.length = 1
  · simp [fractionPart, furtherDigits, hone]
  · have hdrop : ds.drop 1 ≠ [] := List.ne_nil_of_length_pos (by rw [List.length_drop]; omega)
    rw [furtherDigits, if_neg hone, if_neg hone, List.cons_append]
    exact fractionPart_digits (hds.drop 1) hdrop (noDigit_cons (by decide) _)

/-- One digit before the point, and an exponent. -/
theorem readNumber_scientific (hx : x.isZero = false) (hd : x.readBack.Around d.value)
    (plus : Bool) (hplus : plus = true → 0 < (digits d.coefficient).length + d.exponent)
    (hs : NoNumber s) :
    readNumber (sign x.negative ++ (digits d.coefficient).take 1 ++
      ((if (digits d.coefficient).length = 1 then [] else '.' :: (digits d.coefficient).drop 1) ++
        'e' :: ((if plus then ['+'] else []) ++
          integerDigits ((digits d.coefficient).length + d.exponent - 1) ++ s))) =
      some (.real x, s) := by
  have hdigits := allDigits_digits d.coefficient
  have hpos : 0 < (digits d.coefficient).length :=
    List.length_pos_iff.2 (Number.digits_ne_nil d.coefficient)
  have hone : ((digits d.coefficient).take 1).length = 1 := by
    rw [List.length_take]
    omega
  have hnonneg (h : plus = true) : 0 ≤ (digits d.coefficient).length + d.exponent - 1 := by
    have := hplus h
    omega
  have hfurther : AllDigits ((furtherDigits (digits d.coefficient)).getD []) := by
    unfold furtherDigits
    split
    · rintro c ⟨⟩
    · exact hdigits.drop 1
  refine readNumber_of_parts (hdigits.take 1) (List.ne_nil_of_length_pos (by omega))
    (fun _ => hone) ?_ (fractionPart_further hdigits (Number.digits_ne_nil _) _)
    (exponentPart_digits hnonneg hs.noDigit)
    (numberOfParts_of_around hx (.inr rfl) (hdigits.take 1) hfurther
      (by rwa [decimalOfParts_scientific]))
  split <;> exact noDigit_cons (by decide) _

/-- A decimal that reads back as a number is read as that number, whatever its layout. -/
theorem readNumber_decimal (hx : x.isZero = false) (hd : x.readBack.Around d.value)
    (style : Number.Style) (hs : NoNumber s) :
    readNumber (sign x.negative ++ d.text style ++ s) = some (.real x, s) := by
  unfold Decimal.text
  dsimp only
  split
  · split
    · rename_i hpoint
      simpa only [List.append_assoc, List.cons_append, List.nil_append] using
        readNumber_below hx hd hpoint hs
    · split
      · rename_i hexponent
        simpa only [List.append_assoc, List.cons_append, List.nil_append] using
          readNumber_above hx hd hexponent hs
      · rename_i hpoint hexponent
        simpa only [List.append_assoc, List.cons_append, List.nil_append] using
          readNumber_inside hx hd (Int.toNat_of_nonneg (by omega)).symm (by omega) (by omega) hs
  · have hread := readNumber_scientific hx hd
      (style.plusSign && 0 < (digits d.coefficient).length + d.exponent) (by simp) hs
    simpa only [List.append_assoc, List.cons_append, List.nil_append] using hread

end Layout

/-! ### Whole numbers and zeros -/

theorem readNumber_zero (negative : Bool) (hs : NoNumber s) :
    readNumber (sign negative ++ ['0', '.', '0'] ++ s) = some (.real (.zero negative), s) := by
  have hzero : AllDigits ['0'] := by simp [AllDigits]
  have hparts : numberOfParts negative ['0'] (some ['0']) none = some (.real (.zero negative)) := by
    cases negative <;> decide
  have h := readNumber_of_parts hzero (by simp) (fun _ => rfl) (noDigit_cons (by decide) _)
    (fractionPart_digits hzero (by simp) hs.noDigit) (exponentPart_none hs) hparts
  simpa using h

theorem readNumber_integer (i : ℤ) (hs : NoNumber s) :
    readNumber (integerDigits i ++ s) = some (.integer i, s) := by
  have hdigits := allDigits_digits i.natAbs
  have hparts : numberOfParts (i < 0) (digits i.natAbs) none none = some (.integer i) := by
    by_cases hneg : i < 0
    · have hne : i.natAbs ≠ 0 := by omega
      simp [numberOfParts, hneg, abs_of_neg]
      omega
    · simp [numberOfParts, hneg]
      omega
  have hzero : (digits i.natAbs).head? = some '0' → (digits i.natAbs).length = 1 := by
    intro h
    have : i.natAbs = 0 := by
      by_contra hne
      exact Number.head_digits_ne hne h
    rw [this, Number.digits_of_lt (by decide)]
    rfl
  have hfraction : fractionPart s = some (none, s) :=
    fractionPart_none fun h => (hs '.' h).2.1 rfl
  have h := readNumber_of_parts hdigits (Number.digits_ne_nil _) hzero hs.noDigit hfraction
    (exponentPart_none hs) hparts
  unfold integerDigits
  split
  · simpa [sign, *] using h
  · simpa [sign, *] using h

/-- The text of a number is read as that number. -/
theorem readNumber_text (n : Numeral) (hs : NoNumber s) :
    readNumber (n.text ++ s) = some (n, s) := by
  cases n with
  | integer i => exact readNumber_integer i hs
  | real x =>
    cases hx : x.isZero with
    | true =>
      have htext : (Numeral.real x).text = sign x.negative ++ ['0', '.', '0'] := by
        simp [Numeral.text, Finite.text, hx, sign]
      rw [htext, readNumber_zero x.negative hs, ← Finite.eq_zero_of_isZero hx]
    | false =>
      have htext : (Numeral.real x).text =
          sign x.negative ++ (x.shortest realStyle.tie).text realStyle := by
        simp [Numeral.text, Finite.text, hx, sign]
      rw [htext]
      exact readNumber_decimal hx (Finite.shortest_around realStyle.tie hx) realStyle hs

end TypeCorpus.Json
