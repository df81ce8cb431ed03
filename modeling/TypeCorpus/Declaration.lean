import TypeCorpus.Text.Occurrence

/-! Declarations: what a schema says about a type, in one shape for every dialect. A typedef gives
another name to a type reference, an enumeration lists its enumerators, a structure lists its
members and may name a base. -/

namespace TypeCorpus

/-- A member of a structure; an absent attribute is `none`. -/
structure Member where
  name : String
  typeName : Option String := none
  nonBasicTypeName : Option String := none
  sequenceMaxLength : Option String := none
  arrayDimensions : Option String := none
  deriving DecidableEq

namespace Member

/-- A text that is there and not empty. -/
def given (text : Option String) : Option String := text.filter (· ≠ "")

/-- The type that a member refers to: a user-defined one before a basic one. -/
def typeRef? (m : Member) : Option String := (given m.nonBasicTypeName).or (given m.typeName)

/-- A member holds several values if it has a length or dimensions, or its type name says so. -/
def isRepeated (m : Member) : Bool :=
  (given m.sequenceMaxLength).isSome || (given m.arrayDimensions).isSome ||
    m.typeName.any fun t => Text.occursIn "sequence".toList t.toList

end Member

structure StructDecl where
  name : String
  baseType : Option String := none
  members : List Member := []
  deriving DecidableEq

inductive Declaration where
  | typedef (name underlying : String)
  | enum (name : String) (enumerators : List String)
  | struct (decl : StructDecl)
  deriving DecidableEq

def Declaration.name : Declaration → String
  | typedef name _ => name
  | enum name _ => name
  | struct decl => decl.name

end TypeCorpus
