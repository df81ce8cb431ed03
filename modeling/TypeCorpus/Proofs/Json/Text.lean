import Mathlib.Tactic.SplitIfs
import TypeCorpus.Json.Printer
import TypeCorpus.Proofs.Json.Number

/-! Texts of tokens read back. A string is read character by character up to its closing quote, and
every other token ends with itself, except that a number must not be followed by another one. Blanks
between tokens count for nothing. -/

namespace TypeCorpus.Json

/-! ### Strings -/

theorem hexUnit?_control : ∀ n < 32,
    hexUnit? '0' '0' (hexDigit (n / 16)) (hexDigit (n % 16)) = some n := by
  decide

/-- A written character is read as itself. -/
theorem unquote_escapeChar (c : Char) (s : List Char) :
    unquote (escapeChar c ++ s) = (unquote s).map fun r => (c :: r.1, r.2) := by
  have hcode : Char.ofNat c.toNat = c := Char.ofNat_toNat c
  unfold escapeChar
  split_ifs with hquote hbackslash hcontrol h8 h9 h10 h12 h13
  · rw [hquote]; rfl
  · rw [hbackslash]; rfl
  · rw [← hcode, h8]; rfl
  · rw [← hcode, h9]; rfl
  · rw [← hcode, h10]; rfl
  · rw [← hcode, h12]; rfl
  · rw [← hcode, h13]; rfl
  · simp only [List.cons_append, List.nil_append, unquote, hexUnit?_control c.toNat hcontrol]
    rw [if_pos (by omega), hcode]
  · rw [List.singleton_append, unquote, if_neg hcontrol]
    · exact hquote
    · exact fun _ _ _ _ _ h _ => hbackslash h
    · exact fun _ _ h _ => hbackslash h

/-- The text of a string is read up to its closing quote. -/
theorem unquote_quote (cs s : List Char) :
    unquote (cs.flatMap escapeChar ++ '"' :: s) = some (cs, s) := by
  induction cs with
  | nil => rfl
  | cons c cs ih =>
    rw [List.flatMap_cons, List.append_assoc, unquote_escapeChar, ih]
    rfl

/-! ### Tokens -/

namespace Token

def isNumber : Token → Bool
  | number _ => true
  | _ => false

end Token

/-- Only a sign or a digit begins a number. -/
theorem head_of_readNumber {c : Char} {s : List Char} {r : Numeral × List Char}
    (h : readNumber (c :: s) = some r) : c = '-' ∨ c.isDigit = true := by
  by_contra hc
  rw [not_or] at hc
  have hwhole : (c :: s).takeWhile Char.isDigit = [] := List.takeWhile_cons_of_neg hc.2
  simp [readNumber, hc.1, hc.2] at h

/-- What begins with a sign or a digit is read as a number. -/
theorem readToken_of_number {c : Char} (h : c = '-' ∨ c.isDigit = true) (s : List Char) :
    readToken c s = (readNumber (c :: s)).map fun r => (.number r.1, r.2) := by
  unfold readToken
  split
  all_goals first | rfl | exact absurd h (by decide)

theorem isBlank_of_number {c : Char} (h : c = '-' ∨ c.isDigit = true) : isBlank c = false := by
  rw [← Bool.not_eq_true]
  intro hblank
  simp only [isBlank, Bool.or_eq_true, decide_eq_true_eq] at hblank
  rcases hblank with ((rfl | rfl) | rfl) | rfl <;> exact absurd h (by decide)

/-- The text of a token is read as that token. -/
theorem exists_readToken (t : Token) {s : List Char} (h : t.isNumber = true → NoNumber s) :
    ∃ c r, t.text ++ s = c :: r ∧ isBlank c = false ∧ readToken c r = some (t, s) := by
  cases t with
  | number n =>
    have hread := readNumber_text n (h rfl)
    cases htext : n.text ++ s with
    | nil =>
      rw [htext] at hread
      cases hread
    | cons c r =>
      rw [htext] at hread
      have hc := head_of_readNumber hread
      exact ⟨c, r, htext, isBlank_of_number hc, by rw [readToken_of_number hc, hread]; rfl⟩
  | string w =>
    have hread : readToken '"' (w.toList.flatMap escapeChar ++ '"' :: s) = some (.string w, s) := by
      simp [readToken, unquote_quote]
    exact ⟨'"', w.toList.flatMap escapeChar ++ '"' :: s, by simp [Token.text, quote], rfl, hread⟩
  | null => exact ⟨'n', _, rfl, rfl, rfl⟩
  | bool b => cases b <;> exact ⟨_, _, rfl, rfl, rfl⟩
  | openBrace => exact ⟨_, _, rfl, rfl, rfl⟩
  | closeBrace => exact ⟨_, _, rfl, rfl, rfl⟩
  | openBracket => exact ⟨_, _, rfl, rfl, rfl⟩
  | closeBracket => exact ⟨_, _, rfl, rfl, rfl⟩
  | comma => exact ⟨_, _, rfl, rfl, rfl⟩
  | colon => exact ⟨_, _, rfl, rfl, rfl⟩

theorem noNumber_nil : NoNumber [] := by
  rintro c ⟨⟩

theorem Token.text_ne_nil (t : Token) : t.text ≠ [] := by
  obtain ⟨c, r, htext, -⟩ := exists_readToken t fun _ => noNumber_nil
  rw [List.append_nil] at htext
  simp [htext]

theorem tokens?_blanks {bs : List Char} (h : ∀ c ∈ bs, isBlank c = true) (s : List Char) :
    tokens? (bs ++ s) = tokens? s := by
  induction bs with
  | nil => rfl
  | cons c bs ih =>
    rw [List.cons_append, tokens?, if_pos (h c List.mem_cons_self)]
    exact ih fun d hd => h d (List.mem_cons_of_mem _ hd)

theorem tokens?_token (t : Token) {s : List Char} (h : t.isNumber = true → NoNumber s) :
    tokens? (t.text ++ s) = (tokens? s).map (t :: ·) := by
  obtain ⟨c, r, htext, hblank, hread⟩ := exists_readToken t h
  have hlen : s.length ≤ r.length := by
    have hpos := List.length_pos_iff.2 t.text_ne_nil
    have := congrArg List.length htext
    simp only [List.length_append, List.length_cons] at this
    omega
  rw [htext, tokens?, hblank, if_neg (by simp), hread]
  simp only [if_pos hlen]

/-! ### Texts of pieces -/

namespace Piece

def token? : Piece → Option Token
  | token t => some t
  | _ => none

/-- A way to write pieces: tokens as their texts, and only blanks between them. -/
structure Writes (write : Piece → List Char) : Prop where
  token (t : Token) : write (token t) = t.text
  newline (depth : ℕ) : ∀ c ∈ write (newline depth), isBlank c = true
  space : ∀ c ∈ write space, isBlank c = true

theorem writes_compact : Writes compact where
  token _ := rfl
  newline _ := by simp [compact]
  space := by simp [compact]

theorem writes_pretty : Writes pretty where
  token _ := rfl
  newline depth c hc := by
    rcases List.mem_cons.1 hc with rfl | hc
    · rfl
    · rw [List.eq_of_mem_replicate hc]
      rfl
  space := by simp [pretty, isBlank]

end Piece

/-- Two tokens that may follow each other. -/
def Token.Apart (t u : Token) : Prop := t.isNumber = false ∨ u.isNumber = false

theorem noNumber_of_blank {c : Char} (hc : isBlank c = true) (s : List Char) :
    NoNumber (c :: s) := by
  rintro d ⟨⟩
  simp only [isBlank, Bool.or_eq_true, decide_eq_true_eq] at hc
  rcases hc with ((rfl | rfl) | rfl) | rfl <;> decide

theorem noNumber_text {t : Token} (h : t.isNumber = false) (s : List Char) :
    NoNumber (t.text ++ s) := by
  intro c hc
  cases t with
  | number n => cases h
  | bool b => cases b <;> cases hc <;> decide
  | _ => cases hc; decide

variable {write : Piece → List Char} {ps : List Piece}

/-- No number follows where the next token is none. -/
theorem noNumber_flatMap (hwrite : Piece.Writes write)
    (h : ∀ u ∈ (ps.filterMap Piece.token?).head?, u.isNumber = false) :
    NoNumber (ps.flatMap write) := by
  induction ps with
  | nil => exact noNumber_nil
  | cons p ps ih =>
    rw [List.flatMap_cons]
    have hblanks (hp : p.token? = none) (hb : ∀ c ∈ write p, isBlank c = true) :
        NoNumber (write p ++ ps.flatMap write) := by
      cases hw : write p with
      | nil => exact ih (by simpa [hp] using h)
      | cons c cs => exact noNumber_of_blank (hb c (by simp [hw])) _
    cases p with
    | token t =>
      rw [hwrite.token]
      exact noNumber_text (h t rfl) _
    | newline depth => exact hblanks rfl (hwrite.newline depth)
    | space => exact hblanks rfl hwrite.space

/-- Whichever way pieces are written, their tokens are read. -/
theorem tokens?_flatMap (hwrite : Piece.Writes write)
    (h : (ps.filterMap Piece.token?).IsChain Token.Apart) :
    tokens? (ps.flatMap write) = some (ps.filterMap Piece.token?) := by
  induction ps with
  | nil => simp [tokens?]
  | cons p ps ih =>
    rw [List.flatMap_cons]
    cases p with
    | token t =>
      have hchain : (t :: ps.filterMap Piece.token?).IsChain Token.Apart := h
      rw [hwrite.token, tokens?_token t, ih hchain.tail]
      · rfl
      · intro ht
        refine noNumber_flatMap hwrite fun u hu => ?_
        have := (List.isChain_cons.1 hchain).1 u hu
        rcases this with h' | h'
        · rw [ht] at h'
          cases h'
        · exact h'
    | newline depth => rw [tokens?_blanks (hwrite.newline depth)]; exact ih h
    | space => rw [tokens?_blanks hwrite.space]; exact ih h

end TypeCorpus.Json
