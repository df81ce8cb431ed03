/-! Wildcard patterns. A question mark stands for one character, a star for any number, brackets for
one character of a class or, after an exclamation mark, one outside it; the first character of a
class is taken as it is, so a closing bracket can be in it. Two stars as a whole component stand for
any directories. -/

namespace TypeCorpus

namespace Wildcard

/-- Part of a character class: one character, or all from a first to a last. -/
structure Span where
  first : Char
  last : Char
  deriving DecidableEq

inductive Token where
  | literal (c : Char)
  | one
  | many
  | directories
  | oneOf (spans : List Span)
  | noneOf (spans : List Span)
  deriving DecidableEq

inductive Fault where
  | tooManyStars
  | notAComponent
  | badClass
  deriving DecidableEq

/-- Why a text is no pattern, with the number of characters before the fault. -/
structure Error where
  place : Nat
  fault : Fault
  deriving DecidableEq

def Fault.text : Fault → String
  | tooManyStars => "wildcards are either regular \x60*\x60 or recursive \x60**\x60"
  | notAComponent => "recursive wildcards must form a single path component"
  | badClass => "invalid range pattern"

def Error.message (e : Error) : String :=
  "Pattern syntax error near position " ++ toString e.place ++ ": " ++ e.fault.text

/-- The spans of a class. -/
def spans : List Char → List Span
  | a :: '-' :: b :: s => ⟨a, b⟩ :: spans s
  | a :: s => ⟨a, a⟩ :: spans s
  | [] => []

/-- Reads the members of a class and its closing bracket: the spans, the number of characters read,
and the rest. -/
def members? : List Char → Option (List Span × Nat × List Char)
  | [] => none
  | c :: s =>
    match s.dropWhile (· ≠ ']') with
    | [] => none
    | _ :: rest =>
      let members := c :: s.takeWhile (· ≠ ']')
      some (spans members, members.length + 1, rest)

/-- Reads a class after its opening bracket. -/
def class? : List Char → Option (Token × Nat × List Char)
  | '!' :: s => (members? s).map fun m => (.noneOf m.1, m.2.1 + 2, m.2.2)
  | s => (members? s).map fun m => (.oneOf m.1, m.2.1 + 1, m.2.2)

theorem length_of_members? {s r : List Char} {m : List Span} {n : Nat}
    (h : members? s = some (m, n, r)) : r.length < s.length := by
  cases s with
  | nil => cases h
  | cons c s =>
    simp only [members?] at h
    split at h
    · cases h
    · rename_i d rest hd
      cases h
      have h₁ := (List.dropWhile_suffix (l := s) (· ≠ ']')).length_le
      rw [hd] at h₁
      simp only [List.length_cons] at h₁ ⊢
      omega

theorem length_of_class? {s r : List Char} {t : Token} {n : Nat} (h : class? s = some (t, n, r)) :
    r.length < s.length := by
  unfold class? at h
  split at h
  · obtain ⟨m, hm, he⟩ := Option.map_eq_some_iff.1 h
    cases he
    exact Nat.lt_succ_of_lt (length_of_members? hm)
  · obtain ⟨m, hm, he⟩ := Option.map_eq_some_iff.1 h
    cases he
    exact length_of_members? hm

/-- Reads the tokens of a pattern from a place on; `atStart` tells that a component begins there. -/
def tokensFrom (place : Nat) (atStart : Bool) (s : List Char) : Except Error (List Token) :=
  match s with
  | [] => .ok []
  | '?' :: s => (tokensFrom (place + 1) false s).map (.one :: ·)
  | '*' :: '*' :: '*' :: _ => .error ⟨place + 2, .tooManyStars⟩
  | '*' :: '*' :: s =>
    if atStart then
      match s with
      | [] => .ok [.directories]
      | '/' :: s => (tokensFrom (place + 3) true s).map (.directories :: ·)
      | _ => .error ⟨place + 2, .notAComponent⟩
    else .error ⟨place - 1, .notAComponent⟩
  | '*' :: s => (tokensFrom (place + 1) false s).map (.many :: ·)
  | '[' :: s =>
    match _h : class? s with
    | none => .error ⟨place, .badClass⟩
    | some (t, n, r) => (tokensFrom (place + n) false r).map (t :: ·)
  | c :: s => (tokensFrom (place + 1) (c = '/') s).map (.literal c :: ·)
termination_by s.length
decreasing_by
  all_goals simp only [List.length_cons]
  all_goals first
    | exact Nat.lt_succ_of_lt (length_of_class? _h)
    | omega

/-- The tokens of a pattern or of one of its components. -/
def tokens (s : List Char) : Except Error (List Token) := tokensFrom 0 true s

def inSpans (spans : List Span) (c : Char) : Bool :=
  spans.any fun s => s.first.toNat ≤ c.toNat && c.toNat ≤ s.last.toNat

/-- Whether a token that stands for one character stands for this one. -/
def Token.covers (t : Token) (c : Char) : Bool :=
  match t with
  | literal d => c = d
  | one => true
  | oneOf spans => inSpans spans c
  | noneOf spans => !inSpans spans c
  | _ => false

/-- The ends of a text, from the whole text to the empty one. -/
def ends : List Char → List (List Char)
  | [] => [[]]
  | c :: s => (c :: s) :: ends s

theorem mem_ends {s t : List Char} : t ∈ ends s ↔ t <:+ s := by
  induction s with
  | nil => simp [ends]
  | cons c s ih => simp [ends, ih, List.suffix_cons_iff]

/-- What can be left of a text after a token, given what could be left before it, the longest end
first. A token for any number of characters leaves every end of the longest. -/
def Token.leaves (rests : List (List Char)) (t : Token) : List (List Char) :=
  match t with
  | many => (rests.take 1).flatMap ends
  | directories => (rests.take 1).flatMap ends
  | t => rests.filterMap fun s =>
      match s with
      | [] => none
      | c :: s => if t.covers c then some s else none

/-- Whether tokens match a whole name. -/
def matchesName (ts : List Token) (s : List Char) : Bool :=
  (ts.foldl Token.leaves [s]).any List.isEmpty

/-- A pattern that matches a text and nothing else. -/
def escape (s : List Char) : List Char :=
  s.flatMap fun c => if c = '?' ∨ c = '*' ∨ c = '[' ∨ c = ']' then ['[', c, ']'] else [c]

end Wildcard

end TypeCorpus
