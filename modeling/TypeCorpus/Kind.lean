import TypeCorpus.Primitive
import TypeCorpus.Registry.Resolution

/-! What a reference turns out to be: a structure, an enumeration, a primitive type or nothing
known. -/

namespace TypeCorpus

inductive Kind where
  | struct (members : Nat)
  | enum (enumerators : Nat)
  | primitive
  | unknown
  deriving DecidableEq

def Kind.text : Kind → String
  | struct members => "struct (" ++ toString members ++ " member(s))"
  | enum enumerators => "enum (" ++ toString enumerators ++ " enumerator(s))"
  | primitive => "primitive"
  | unknown => "unknown"

/-- The kind of a reference that resolves to `name`. -/
def Registry.kind (r : Registry) (ref name : String) : Kind :=
  match r.struct? ref with
  | some decl => .struct decl.members.length
  | none =>
    match r.enum? ref with
    | some enumerators => .enum enumerators.length
    | none => if (Primitive.ofName? name).isSome then .primitive else .unknown

end TypeCorpus
