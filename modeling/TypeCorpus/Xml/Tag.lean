import TypeCorpus.Xml.Reference

/-! The content of a tag: a name up to the first blank, then attributes, each a key, an equals sign
and a quoted value. A key begins at any character that is not blank and goes on to a blank or an
equals sign; no blank is needed between attributes. Of names and keys only what follows the first
colon is kept. -/

namespace TypeCorpus.Xml

open Text (byteCount)

/-- A tag by the local part of its name and its attributes in order. -/
structure Tag where
  name : String
  attributes : List (String × String) := []
  deriving DecidableEq

def isBlank (c : Char) : Bool := c = ' ' || c = '\t' || c = '\n' || c = '\r'

/-- What follows the first colon, or the whole name if it has none. -/
def localPart (name : List Char) : String :=
  String.ofList <|
    match name.dropWhile (· ≠ ':') with
    | _ :: s => s
    | [] => name

/-- A character that continues a key. -/
def inKey (c : Char) : Bool := c ≠ '=' && !isBlank c

/-- Reads the attributes in the rest of a content that ends at the place `last`; the keys read
before stand in `seen` with their places. -/
def attributesFrom (last : Nat) (seen : List (List Char × Nat)) (s : List Char) :
    Except Error (List (String × String)) :=
  match _h₁ : s.dropWhile isBlank with
  | [] => .ok []
  | c :: r =>
    let key := c :: r.takeWhile inKey
    let keyPlace := last - byteCount (c :: r)
    match _h₂ : (r.dropWhile inKey).dropWhile isBlank with
    | [] => .error (.inAttribute (.noEquals last))
    | e :: r₂ =>
      if e ≠ '=' then .error (.inAttribute (.noEquals (last - byteCount (e :: r₂))))
      else
        match seen.lookup key with
        | some previous => .error (.inAttribute (.duplicate keyPlace previous))
        | none =>
          match _h₃ : r₂.dropWhile isBlank with
          | [] => .error (.inAttribute (.noValue last))
          | q :: r₃ =>
            if q = '"' ∨ q = '\'' then
              match _h₄ : r₃.dropWhile (· ≠ q) with
              | [] => .error (.inAttribute (.unclosedQuote last q))
              | _ :: r₄ =>
                match unescape (r₃.takeWhile (· ≠ q)) with
                | .error e => .error (.inReference e)
                | .ok value =>
                  (attributesFrom last ((key, keyPlace) :: seen) r₄).map
                    ((localPart key, String.ofList value) :: ·)
            else .error (.inAttribute (.unquoted (last - byteCount (q :: r₃))))
termination_by s.length
decreasing_by
  have h₁ := (List.dropWhile_suffix (l := s) isBlank).length_le
  have h₂ := (List.dropWhile_suffix (l := r.dropWhile inKey) isBlank).length_le
  have h₂' := (List.dropWhile_suffix (l := r) inKey).length_le
  have h₃ := (List.dropWhile_suffix (l := r₂) isBlank).length_le
  have h₄ := (List.dropWhile_suffix (l := r₃) (· ≠ q)).length_le
  rw [_h₁] at h₁
  rw [_h₂] at h₂
  rw [_h₃] at h₃
  rw [_h₄] at h₄
  simp only [List.length_cons] at h₁ h₂ h₃ h₄
  omega

/-- The name at the front of a tag's content. -/
def tagName (content : List Char) : List Char := content.takeWhile (!isBlank ·)

def Tag.ofContent (content : List Char) : Except Error Tag := do
  let attributes ← attributesFrom (byteCount content) [] (content.dropWhile (!isBlank ·))
  .ok ⟨localPart (tagName content), attributes⟩

end TypeCorpus.Xml
