/-! Paths as texts. A path is cut at its slashes into pieces; its components are the pieces that are
neither empty nor a single dot, a dot at the very front apart. `ancestors` are the path itself and
its parents, nearest first. Paths are ordered by their components and not by their texts. -/

namespace TypeCorpus

namespace Path

def pieces (path : String) : List (List Char) := path.toList.splitOn '/'

def isAbsolute (path : String) : Bool := path.toList.head? = some '/'

/-- A path below another; an absolute one stands for itself. -/
def join (base path : String) : String :=
  if isAbsolute path then path
  else if base = "" ∨ base.toList.getLast? = some '/' then base ++ path
  else base ++ "/" ++ path

/-- Whether the piece at a place is a component of the path. -/
def isComponent (absolute : Bool) (piece : List Char) (place : Nat) : Bool :=
  piece ≠ [] && (piece ≠ ['.'] || (place = 0 && !absolute))

/-- The components of a path with their places among its pieces. -/
def components (path : String) : List (List Char × Nat) :=
  (pieces path).zipIdx.filter fun p => isComponent (isAbsolute path) p.1 p.2

/-- The text of a path up to the component at a place. -/
def upTo (path : String) (place : Nat) : String :=
  String.ofList (['/'].intercalate ((pieces path).take (place + 1)))

/-- The path and its parents, nearest first, down to the root or the empty path. -/
def ancestors (path : String) : List String :=
  match (components path).reverse with
  | [] => [path]
  | _ :: above =>
    path :: above.map (fun p => upTo path p.2) ++ [if isAbsolute path then "/" else ""]

def parent? (path : String) : Option String := (ancestors path).tail.head?

/-- The last component, if it is a name. -/
def fileName? (path : String) : Option String :=
  match (components path).getLast? with
  | some (name, _) => if name = ['.'] ∨ name = ['.', '.'] then none else some (String.ofList name)
  | none => none

/-- Whether a path means the directory it is read in. -/
def isHere (path : String) : Bool := !isAbsolute path && (components path).map Prod.fst = [['.']]

/-- The order key of a component: the root first, then the dots, then names; a name ends before any
of its extensions. -/
def componentKey (name : List Char) : List Nat :=
  if name = ['.'] then [2] else if name = ['.', '.'] then [3]
  else 4 :: name.map (fun c => c.toNat + 1) ++ [0]

def orderKey (path : String) : List Nat :=
  (if isAbsolute path then [1] else []) ++ (components path).flatMap fun p => componentKey p.1

end Path

end TypeCorpus
