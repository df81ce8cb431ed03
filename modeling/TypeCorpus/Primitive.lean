import TypeCorpus.Text.Case
import TypeCorpus.Text.Occurrence

/-! Primitive types, told by the words in their names whatever their case. The families are tried in
a fixed order, so a name with words of two families belongs to the earlier one. -/

namespace TypeCorpus

inductive Primitive where
  | boolean
  | float
  | integer
  | text
  deriving DecidableEq

namespace Primitive

/-- The families in the order in which they are tried. -/
def families : List Primitive := [boolean, float, integer, text]

def words : Primitive → List String
  | boolean => ["boolean", "bool"]
  | float => ["float", "double"]
  | integer => ["int", "long", "short", "byte"]
  | text => ["char", "string"]

/-- The name holds a word of the family. -/
def recognises (p : Primitive) (name : String) : Bool :=
  p.words.any fun word => Text.occursIn word.toList (Text.lowercase name.toList)

def ofName? (name : String) : Option Primitive := families.find? (·.recognises name)

end Primitive

end TypeCorpus
