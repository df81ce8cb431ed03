import TypeCorpus.Proofs.Json.Text

/-! Blanks outside of strings. Taking them off a text leaves every token as it is, because no token
but a string has blanks or quotes in it, and what a string holds is kept up to its closing quote. So
all ways to write the same pieces differ in such blanks only. -/

namespace TypeCorpus.Json

/-- A text without the blanks outside of its strings; the flag tells that a string is open. -/
def withoutBlanks : Bool → List Char → List Char
  | _, [] => []
  | true, '\\' :: c :: s => '\\' :: c :: withoutBlanks true s
  | true, c :: s => c :: withoutBlanks (c ≠ '"') s
  | false, c :: s => if isBlank c then withoutBlanks false s else c :: withoutBlanks (c = '"') s

theorem withoutBlanks_blanks {bs : List Char} (h : ∀ c ∈ bs, isBlank c = true) (s : List Char) :
    withoutBlanks false (bs ++ s) = withoutBlanks false s := by
  induction bs with
  | nil => rfl
  | cons c bs ih =>
    rw [List.cons_append, withoutBlanks, if_pos (h c List.mem_cons_self)]
    exact ih fun d hd => h d (List.mem_cons_of_mem _ hd)

/-- A text that has no blanks and opens no string. -/
def AllPlain (w : List Char) : Prop := ∀ c ∈ w, isBlank c = false ∧ c ≠ '"'

instance (w : List Char) : Decidable (AllPlain w) := List.decidableBAll _ w

theorem AllPlain.append {v w : List Char} (hv : AllPlain v) (hw : AllPlain w) :
    AllPlain (v ++ w) := fun c hc => (List.mem_append.1 hc).elim (hv c) (hw c)

theorem withoutBlanks_plain {w : List Char} (h : AllPlain w) (s : List Char) :
    withoutBlanks false (w ++ s) = w ++ withoutBlanks false s := by
  induction w with
  | nil => rfl
  | cons c w ih =>
    obtain ⟨hblank, hquote⟩ := h c List.mem_cons_self
    rw [List.cons_append, withoutBlanks, hblank, if_neg (by simp), decide_eq_false hquote,
      ih fun d hd => h d (List.mem_cons_of_mem _ hd), List.cons_append]

/-! ### Strings -/

/-- In a string only quotes and backslashes tell. -/
theorem withoutBlanks_inside {w : List Char} (h : ∀ c ∈ w, c ≠ '"' ∧ c ≠ '\\') (s : List Char) :
    withoutBlanks true (w ++ s) = w ++ withoutBlanks true s := by
  induction w with
  | nil => rfl
  | cons c w ih =>
    obtain ⟨hquote, hbackslash⟩ := h c List.mem_cons_self
    rw [List.cons_append, withoutBlanks, decide_eq_true hquote,
      ih fun d hd => h d (List.mem_cons_of_mem _ hd), List.cons_append]
    exact fun _ _ hc _ => hbackslash hc

theorem hexDigit_ne : ∀ n < 16, hexDigit n ≠ '"' ∧ hexDigit n ≠ '\\' := by decide

theorem withoutBlanks_escapeChar (c : Char) (s : List Char) :
    withoutBlanks true (escapeChar c ++ s) = escapeChar c ++ withoutBlanks true s := by
  unfold escapeChar
  split_ifs with hquote hbackslash hcontrol
  -- the quote, the backslash and the five letters
  iterate 7 exact rfl
  · have hfirst := hexDigit_ne (c.toNat / 16) (by omega)
    have hsecond := hexDigit_ne (c.toNat % 16) (by omega)
    have hdigits := withoutBlanks_inside
      (w := ['0', '0', hexDigit (c.toNat / 16), hexDigit (c.toNat % 16)])
      (by simp [hfirst, hsecond]) s
    simp only [List.cons_append, List.nil_append] at hdigits ⊢
    rw [withoutBlanks, hdigits]
  · exact withoutBlanks_inside (by simp [hquote, hbackslash]) s

theorem withoutBlanks_quote (cs s : List Char) :
    withoutBlanks false (quote cs ++ s) = quote cs ++ withoutBlanks false s := by
  have hinside : withoutBlanks true (cs.flatMap escapeChar ++ '"' :: s) =
      cs.flatMap escapeChar ++ '"' :: withoutBlanks false s := by
    induction cs with
    | nil => rfl
    | cons c cs ih =>
      rw [List.flatMap_cons, List.append_assoc, withoutBlanks_escapeChar, ih, List.append_assoc]
  have hopen : withoutBlanks false (quote cs ++ s) =
      '"' :: withoutBlanks true (cs.flatMap escapeChar ++ '"' :: s) := by
    simp [quote, withoutBlanks, isBlank]
  rw [hopen, hinside]
  simp [quote]

/-! ### Numbers -/

theorem AllDigits.allPlain {ds : List Char} (h : AllDigits ds) : AllPlain ds := by
  intro c hc
  refine ⟨isBlank_of_number (.inr (h c hc)), ?_⟩
  rintro rfl
  exact absurd (h '"' hc) (by decide)

theorem allPlain_digits (n : ℕ) : AllPlain (Number.digits n) := (allDigits_digits n).allPlain

theorem allPlain_zeros (n : ℕ) : AllPlain (List.replicate n '0') := (allDigits_zeros n).allPlain

theorem allPlain_integerDigits (i : ℤ) : AllPlain (Number.integerDigits i) := by
  have hminus : AllPlain ['-'] := by decide
  unfold Number.integerDigits
  split
  · exact hminus.append (allPlain_digits _)
  · exact allPlain_digits _

theorem allPlain_decimal (d : Number.Decimal) (style : Number.Style) :
    AllPlain (d.text style) := by
  have hdigits := allDigits_digits d.coefficient
  have hpoint : AllPlain ['.'] := by decide
  unfold Number.Decimal.text
  dsimp only
  split
  · split
    · have hzero : AllPlain ['0', '.'] := by decide
      exact (hzero.append (allPlain_zeros _)).append hdigits.allPlain
    · split
      · exact (hdigits.allPlain.append (allPlain_zeros _)).append (by decide)
      · exact (hdigits.take _).allPlain.append (hpoint.append (hdigits.drop _).allPlain)
  · have hletter : AllPlain ['e'] := by decide
    have hplus (b : Bool) : AllPlain (if b then ['+'] else []) := by cases b <;> decide
    refine (((hdigits.take 1).allPlain.append ?_).append (hletter.append (hplus _))).append
      (allPlain_integerDigits _)
    split
    · decide
    · exact hpoint.append (hdigits.drop 1).allPlain

theorem allPlain_numeral (n : Numeral) : AllPlain n.text := by
  cases n with
  | integer i => exact allPlain_integerDigits i
  | real x =>
    refine AllPlain.append ?_ ?_
    · split <;> decide
    · split
      · decide
      · exact allPlain_decimal _ _

/-! ### Pieces -/

theorem withoutBlanks_text (t : Token) (s : List Char) :
    withoutBlanks false (t.text ++ s) = t.text ++ withoutBlanks false s := by
  cases t with
  | number n => exact withoutBlanks_plain (allPlain_numeral n) s
  | string w => exact withoutBlanks_quote w.toList s
  | bool b => cases b <;> rfl
  | _ => rfl

/-- Without the blanks outside of strings all ways to write pieces are the compact one. -/
theorem withoutBlanks_flatMap {write : Piece → List Char} (hwrite : Piece.Writes write)
    (ps : List Piece) :
    withoutBlanks false (ps.flatMap write) = ps.flatMap Piece.compact := by
  induction ps with
  | nil => rfl
  | cons p ps ih =>
    rw [List.flatMap_cons, List.flatMap_cons]
    cases p with
    | token t => rw [hwrite.token, withoutBlanks_text, ih]; rfl
    | newline depth => rw [withoutBlanks_blanks (hwrite.newline depth), ih]; rfl
    | space => rw [withoutBlanks_blanks hwrite.space, ih]; rfl

end TypeCorpus.Json
