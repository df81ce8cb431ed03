import Mathlib.Data.List.Infix
import TypeCorpus.Files.Expansion

/-! Patterns that stand for one text. Escaping a text gives a pattern with one token for each
character, and the token stands for that character alone; so an escaped text matches itself and
nothing else, wherever it stands in a pattern. A star before some literals matches what ends in
them. -/

namespace TypeCorpus.Wildcard

/-- What an escaped character is read as. -/
def only (c : Char) : Token :=
  if c = '?' ∨ c = '*' ∨ c = '[' ∨ c = ']' then .oneOf [⟨c, c⟩] else .literal c

/-- A token that stands for one character alone. -/
structure Token.Only (t : Token) (c : Char) : Prop where
  ne_many : t ≠ .many
  ne_directories : t ≠ .directories
  covers_iff : ∀ d, t.covers d = true ↔ c = d

theorem only_literal (c : Char) : (Token.literal c).Only c where
  ne_many := nofun
  ne_directories := nofun
  covers_iff _ := decide_eq_true_iff.trans eq_comm

theorem only_only (c : Char) : (only c).Only c := by
  rw [only]
  split
  · refine ⟨nofun, nofun, fun d => ?_⟩
    have hcovers : (Token.oneOf [⟨c, c⟩]).covers d = inSpans [⟨c, c⟩] d := rfl
    rw [hcovers, ← Char.toNat_inj]
    simp only [inSpans, List.any_cons, List.any_nil, Bool.or_false, Bool.and_eq_true,
      decide_eq_true_eq]
    omega
  · exact only_literal c

/-! ### Matching -/

theorem Token.Only.mem_leaves {t : Token} {c : Char} (h : t.Only c) {rests : List (List Char)}
    {s : List Char} : s ∈ t.leaves rests ↔ c :: s ∈ rests := by
  rw [Token.leaves.eq_3 rests t h.ne_many h.ne_directories, List.mem_filterMap]
  constructor
  · rintro ⟨r, hr, hs⟩
    cases r with
    | nil => cases hs
    | cons d r =>
      simp only [Option.ite_none_right_eq_some, Option.some.injEq] at hs
      obtain ⟨hd, rfl⟩ := hs
      exact (h.covers_iff d).1 hd ▸ hr
  · exact fun hs => ⟨c :: s, hs, if_pos ((h.covers_iff c).2 rfl)⟩

/-- Tokens that each stand for one character leave nothing of the text of these characters only. -/
theorem nil_mem_foldl_leaves {f : Char → Token} (hf : ∀ c, (f c).Only c)
    {rests : List (List Char)} (s : List Char) :
    [] ∈ (s.map f).foldl Token.leaves rests ↔ s ∈ rests := by
  induction s generalizing rests with
  | nil => rfl
  | cons c s ih => rw [List.map_cons, List.foldl_cons, ih, (hf c).mem_leaves]

theorem matchesName_iff_nil_mem (ts : List Token) (s : List Char) :
    matchesName ts s = true ↔ [] ∈ ts.foldl Token.leaves [s] := by
  simp [matchesName]

/-- An escaped text matches itself and nothing else. -/
theorem matchesName_only (s t : List Char) : matchesName (s.map only) t = true ↔ s = t := by
  rw [matchesName_iff_nil_mem, nil_mem_foldl_leaves only_only, List.mem_singleton]

/-- A star before literals matches the texts that end in them. -/
theorem matchesName_many (w s : List Char) :
    matchesName (.many :: w.map .literal) s = true ↔ w <:+ s := by
  have hmany : Token.leaves [s] .many = ends s := by simp [Token.leaves]
  rw [matchesName_iff_nil_mem, List.foldl_cons, nil_mem_foldl_leaves only_literal, hmany, mem_ends]

/-! ### Reading -/

theorem tokensFrom_literal {c : Char} (hc : ¬ (c = '?' ∨ c = '*' ∨ c = '[')) (place : ℕ)
    (atStart : Bool) (s : List Char) :
    tokensFrom place atStart (c :: s) =
      (tokensFrom (place + 1) (c = '/') s).map (.literal c :: ·) := by
  simp only [not_or] at hc
  obtain ⟨hone, hmany, hclass⟩ := hc
  rw [tokensFrom]
  · exact hone
  · exact fun _ h _ => hmany h
  · exact fun _ h _ => hmany h
  · exact fun h => hmany h
  · exact hclass

theorem tokensFrom_class (c : Char) (place : ℕ) (atStart : Bool) (s : List Char) (hc : c ≠ '!') :
    tokensFrom place atStart ('[' :: c :: ']' :: s) =
      (tokensFrom (place + 3) false s).map (.oneOf [⟨c, c⟩] :: ·) := by
  have hclass : class? (c :: ']' :: s) = some (.oneOf [⟨c, c⟩], 3, s) := by
    rw [class?]
    · simp [members?, spans]
    · rintro s' h
      exact hc (List.cons.inj h).1
  rw [tokensFrom]
  split
  · rename_i h
    rw [hclass] at h
    cases h
  · rename_i h
    rw [hclass] at h
    cases h
    rfl

theorem escape_cons (c : Char) (s : List Char) :
    escape (c :: s) =
      (if c = '?' ∨ c = '*' ∨ c = '[' ∨ c = ']' then ['[', c, ']'] else [c]) ++ escape s :=
  List.flatMap_cons

/-- An escaped text is read character by character, whatever comes after it. -/
theorem tokensFrom_escape {rest : List Char} {ts : List Token}
    (hrest : ∀ place atStart, tokensFrom place atStart rest = .ok ts) (s : List Char) (place : ℕ)
    (atStart : Bool) :
    tokensFrom place atStart (escape s ++ rest) = .ok (s.map only ++ ts) := by
  induction s generalizing place atStart with
  | nil => exact hrest place atStart
  | cons c s ih =>
    rw [escape_cons]
    by_cases hc : c = '?' ∨ c = '*' ∨ c = '[' ∨ c = ']'
    · have hbang : c ≠ '!' := by
        rintro rfl
        exact absurd hc (by decide)
      rw [if_pos hc, List.map_cons, only, if_pos hc]
      exact (tokensFrom_class c place atStart (escape s ++ rest) hbang).trans (by rw [ih]; rfl)
    · have hliteral : ¬ (c = '?' ∨ c = '*' ∨ c = '[') := by tauto
      rw [if_neg hc, List.map_cons, only, if_neg hc]
      exact (tokensFrom_literal hliteral place atStart (escape s ++ rest)).trans (by rw [ih]; rfl)

/-- A part that an escaped name is read as. -/
def Part.ofName (name : List Char) : Part := ⟨escape name, name.map only⟩

namespace Part

theorem isRecursive_ofName (name : List Char) : (ofName name).isRecursive = false := by
  rw [isRecursive, Bool.eq_false_iff, ne_eq, List.contains_iff_mem, ofName, List.mem_map]
  rintro ⟨c, -, hc⟩
  exact (only_only c).ne_directories hc

theorem hits_ofName (name : List Char) (other : String) :
    (ofName name).hits other = true ↔ name = other.toList := matchesName_only _ _

/-- A part without wildcards is its name. -/
theorem text_of_isPlain {name : List Char} (h : (ofName name).isPlain = true) :
    (ofName name).text = name := by
  induction name with
  | nil => rfl
  | cons c name ih =>
    simp only [isPlain, ofName, List.map_cons, List.all_cons, Bool.and_eq_true] at h
    obtain ⟨hc, hname⟩ := h
    have hliteral : ¬ (c = '?' ∨ c = '*' ∨ c = '[' ∨ c = ']') := by
      intro hclass
      rw [only, if_pos hclass] at hc
      cases hc
    exact (escape_cons c name).trans (by rw [if_neg hliteral]; exact congrArg (c :: ·) (ih hname))

end Part

end TypeCorpus.Wildcard
