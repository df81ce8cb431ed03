/-! Names of types. A reference such as `P_NSTEL::T_Int32` is a path joined by two colons; what
follows the last pair is its short name, and two references with one short name may mean one
declaration even when their paths differ. `inScope` joins a path and a name, `flatten` puts another
text in place of every pair of colons, pairs taken from the left. -/

namespace TypeCorpus

namespace Name

/-- What follows the last pair of colons, if there is one; overlapping pairs count. -/
def afterLastPair? : List Char → Option (List Char)
  | [] => none
  | [_] => none
  | a :: b :: s =>
    match afterLastPair? (b :: s) with
    | some r => some r
    | none => if a = ':' ∧ b = ':' then some s else none

def lastSegment (s : List Char) : List Char := (afterLastPair? s).getD s

/-- The final segment of a reference. -/
def short (name : String) : String := String.ofList (lastSegment name.toList)

/-- A name inside a scope; no scope and the empty scope add nothing. -/
def inScope (scope : Option String) (name : String) : String :=
  match scope with
  | none => name
  | some scope => if scope = "" then name else scope ++ "::" ++ name

/-- Puts `w` in place of each pair of colons. -/
def replacePairs (w : List Char) : List Char → List Char
  | [] => []
  | [c] => [c]
  | a :: b :: s => if a = ':' ∧ b = ':' then w ++ replacePairs w s else a :: replacePairs w (b :: s)

def flatten (w name : String) : String := String.ofList (replacePairs w.toList name.toList)

@[simp] theorem toList_short (name : String) : (short name).toList = lastSegment name.toList := by
  simp [short]

@[simp] theorem toList_flatten (w name : String) :
    (flatten w name).toList = replacePairs w.toList name.toList := by
  simp [flatten]

@[simp] theorem inScope_none (name : String) : inScope none name = name := rfl

@[simp] theorem inScope_empty (name : String) : inScope (some "") name = name := by simp [inScope]

end Name

/-- The name of a declaration with the path of the modules around it, if there are any. -/
structure QualifiedName where
  scope : Option String
  name : String
  scope_ne_empty : scope ≠ some "" := by simp
  deriving DecidableEq

namespace QualifiedName

/-- A name in a scope; an empty scope is none. -/
def ofScope (scope : Option String) (name : String) : QualifiedName where
  scope := scope.filter (· ≠ "")
  name := name
  scope_ne_empty := by cases scope <;> simp [Option.filter_eq_some_iff]

/-- The name of the module that directly holds the declaration. -/
def innermost (q : QualifiedName) : Option String := q.scope.map Name.short

/-- The name with its whole path. -/
def qualified (q : QualifiedName) : String := Name.inScope q.scope q.name

/-- The name with its innermost module only. -/
def logical (q : QualifiedName) : String := Name.inScope q.innermost q.name

/-- The name as it is shown: the path, a pair of colons, the name. -/
def display (q : QualifiedName) : String :=
  match q.scope with
  | some scope => scope ++ "::" ++ q.name
  | none => q.name

end QualifiedName

end TypeCorpus
