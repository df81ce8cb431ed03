import TypeCorpus.Files.Basic
import TypeCorpus.Files.Wildcard

/-! Expansion of wildcard patterns over a file system. A pattern is cut into components. One without
wildcards names an entry and is followed without reading the directory; one with wildcards is
matched against the names in the directory, in order; one that stands for any directories matches
here and in everything below, a directory before what is in it. What is found keeps the dots that
the pattern spells, only a dot at the front is dropped. -/

namespace TypeCorpus

namespace Wildcard

/-- A component of a pattern. -/
structure Part where
  text : List Char
  tokens : List Token

namespace Part

def isRecursive (p : Part) : Bool := p.tokens.contains .directories

def isPlain (p : Part) : Bool :=
  p.tokens.all fun t =>
    match t with
    | .literal _ => true
    | _ => false

def hits (p : Part) (name : String) : Bool := matchesName p.tokens name.toList

/-- The names of dots that a part matches; it has to begin with a dot itself. -/
def dots (p : Part) : List String :=
  if p.tokens.head? = some (.literal '.') then ["..", "."].filter p.hits else []

end Part

/-- A pattern cut into components; `dirsOnly` tells that it ends in a slash. -/
structure Pattern where
  absolute : Bool
  parts : List Part
  dirsOnly : Bool

/-- The pieces between slashes; a slash at the end ends the last piece. -/
def pieces (s : List Char) : List (List Char) :=
  match (s.splitOn '/').reverse with
  | [] :: rest => rest.reverse
  | all => all.reverse

def Pattern.parse (pattern : String) : Except Error Pattern := do
  let s := pattern.toList
  let _ ← tokens s
  let absolute := s.head? = some '/'
  let rest := if absolute then s.drop 1 else s
  let parts ← (pieces rest).mapM fun text => (tokens text).map (Part.mk text)
  .ok { absolute
        parts := if rest = [] then [⟨[], []⟩] else parts
        dirsOnly := s.getLast? = some '/' }

end Wildcard

namespace FileSystem

open Wildcard (Part)

/-- Something found: the path it is shown with, and its location. -/
structure Found where
  path : String
  place : Location

def holdsDirectory (fs : FileSystem) (f : Found) : Bool := fs.get? f.place = some .directory

/-- An entry of a directory. -/
def Found.entry (f : Found) (name : String) : Found :=
  ⟨if Path.isHere f.path then name else Path.join f.path name, f.place ++ [name]⟩

/-- What a piece of a path names in a directory. Dots need the directory, other pieces something
there. -/
def piece? (fs : FileSystem) (f : Found) (piece : String) : Option Found :=
  let path := if Path.isHere f.path then piece else Path.join f.path piece
  if (piece = "." ∨ piece = "..") ∧ !fs.holdsDirectory f then none
  else
    match fs.locate path with
    | .ok place => some ⟨path, place⟩
    | .error _ => none

/-- The parts after those that stand for any directories. -/
def afterRecursive (parts : List Part) : List Part := parts.dropWhile Part.isRecursive

theorem length_afterRecursive_le (parts : List Part) :
    (afterRecursive parts).length ≤ parts.length := (List.dropWhile_suffix _).length_le

mutual

/-- What the parts find in a directory. -/
def inside (fs : FileSystem) (dirsOnly : Bool) (f : Found) (parts : List Part) : List Found :=
  match parts with
  | [] => if dirsOnly && !fs.holdsDirectory f then [] else [f]
  | p :: rest =>
    if p.isPlain then
      match fs.piece? f (String.ofList p.text) with
      | some g => fs.inside dirsOnly g rest
      | none => []
    else if fs.holdsDirectory f then
      p.dots.flatMap (fun dot => fs.inside dirsOnly ⟨Path.join f.path dot,
        if dot = ".." then f.place.dropLast else f.place⟩ rest) ++
      (fs.names f.place).attach.flatMap fun name =>
        fs.atEntry dirsOnly name.1 (f.entry name.1) (p :: rest)
    else []
termination_by (parts.length, fs.depth - f.place.length, 0)
decreasing_by
  · exact Prod.Lex.left _ _ (by simp)
  · exact Prod.Lex.left _ _ (by simp)
  · have := length_lt_depth_of_mem_names name.2
    apply Prod.Lex.right
    apply Prod.Lex.left
    simp only [Found.entry, List.length_append, List.length_singleton]
    omega

/-- What the parts find at an entry with a name, the first of them matched against the name. -/
def atEntry (fs : FileSystem) (dirsOnly : Bool) (name : String) (f : Found) (parts : List Part) :
    List Found :=
  match parts with
  | [] => []
  | p :: rest =>
    if p.isRecursive then
      let further := afterRecursive rest
      let here :=
        match _h : further with
        | [] => if fs.holdsDirectory f then [f] else []
        | q :: further => if q.hits name then fs.inside dirsOnly f further else []
      here ++ (if fs.holdsDirectory f then fs.inside dirsOnly f (p :: further) else [])
    else if p.hits name then fs.inside dirsOnly f rest
    else []
termination_by (parts.length, fs.depth - f.place.length, 1)
decreasing_by
  · have h₁ := length_afterRecursive_le rest
    have h₂ : (afterRecursive rest).length = further.length + 1 := congrArg List.length _h
    apply Prod.Lex.left
    simp only [List.length_cons]
    omega
  · have h₁ := length_afterRecursive_le rest
    rcases Nat.lt_or_eq_of_le h₁ with h | h
    · apply Prod.Lex.left
      simp only [List.length_cons]
      omega
    · simp only [List.length_cons, h]
      apply Prod.Lex.right
      apply Prod.Lex.right
      omega
  · exact Prod.Lex.left _ _ (by simp)

end

/-- The paths that a pattern finds, in order. -/
def expand (fs : FileSystem) (p : Wildcard.Pattern) : List String :=
  if p.parts.isEmpty then []
  else
    let start : Found := if p.absolute then ⟨"/", []⟩ else ⟨".", fs.workingDirectory⟩
    (fs.inside p.dirsOnly start p.parts).map Found.path

end FileSystem

end TypeCorpus
