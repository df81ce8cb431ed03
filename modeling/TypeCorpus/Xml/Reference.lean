import TypeCorpus.Xml.Error

/-! References in attribute values: a name or the number of a character between an ampersand and a
semicolon. Five names are known. Every other character stands for itself, and so blanks are kept as
they are. -/

namespace TypeCorpus.Xml

open Text (byteCount)

/-- The characters that have a name. -/
def entities : List (String × Char) :=
  [("lt", '<'), ("gt", '>'), ("amp", '&'), ("apos", '\''), ("quot", '"')]

def digit? (radix : Nat) (c : Char) : Option Nat :=
  let n :=
    if c.isDigit then c.toNat - 48
    else if 97 ≤ c.toNat ∧ c.toNat ≤ 102 then c.toNat - 87
    else if 65 ≤ c.toNat ∧ c.toNat ≤ 70 then c.toNat - 55
    else radix
  if n < radix then some n else none

/-- Reads digits after a number that fits into 32 bits; the first fault decides. -/
def readCode (radix n : Nat) : List Char → Except ReferenceError Nat
  | [] => .ok n
  | c :: s =>
    match digit? radix c with
    | none => .error .notADigit
    | some d =>
      if n * radix + d < 4294967296 then readCode radix (n * radix + d) s else .error .tooLarge

def characterCode (radix : Nat) : List Char → Except ReferenceError Nat
  | [] => .error .noDigits
  | c :: s => if c = '+' ∨ c = '-' then .error .signed else readCode radix 0 (c :: s)

/-- The character of a number, in base sixteen after an `x`. -/
def character (s : List Char) : Except ReferenceError Char := do
  let code ← match s with
    | 'x' :: s => characterCode 16 s
    | s => characterCode 10 s
  if code = 0 then .error .null
  else if code.isValidChar then .ok (Char.ofNat code)
  else .error (.notACharacter code)

/-- Replaces the references in a text that ends at the place `last`. -/
def unescapeFrom (last : Nat) (s : List Char) : Except ReferenceError (List Char) :=
  match s with
  | [] => .ok []
  | c :: s =>
    if c = '&' then
      let name := s.takeWhile fun c => c ≠ '&' && c ≠ ';'
      match _h : s.dropWhile fun c => c ≠ '&' && c ≠ ';' with
      | ';' :: r => do
        let c ←
          match name with
          | '#' :: number => character number
          | _ =>
            match entities.lookup (String.ofList name) with
            | some c => .ok c
            | none =>
              .error (.unknownEntity (last - byteCount s) (last - byteCount (';' :: r))
                (String.ofList name))
        let r ← unescapeFrom last r
        .ok (c :: r)
      | _ => .error (.unterminated (last - byteCount (c :: s)) last)
    else (unescapeFrom last s).map (c :: ·)
termination_by s.length
decreasing_by
  · have := (List.dropWhile_suffix (l := s) fun c => c ≠ '&' && c ≠ ';').length_le
    rw [_h] at this
    simp_all; omega
  · simp

def unescape (s : List Char) : Except ReferenceError (List Char) := unescapeFrom (byteCount s) s

/-- A character written so that it can stand between double quotes. -/
def escapeChar (c : Char) : List Char :=
  if c = '&' then "&amp;".toList
  else if c = '<' then "&lt;".toList
  else if c = '>' then "&gt;".toList
  else if c = '"' then "&quot;".toList
  else [c]

def escape (s : List Char) : List Char := s.flatMap escapeChar

end TypeCorpus.Xml
