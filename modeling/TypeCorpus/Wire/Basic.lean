import TypeCorpus.Name
import TypeCorpus.Text.Occurrence

/-! Wire structures: C types named `Wire_` and a base, each published on a topic under a type name.
A documented one takes both from the canonical name in its comment, a guessed one from its base,
where the first underscore parts the module from the structure. -/

namespace TypeCorpus

structure WireStruct where
  full : String
  base : String
  header : String
  topicName : String
  typeName : String
  deriving DecidableEq

namespace WireStruct

def documented (base header canonical : String) : WireStruct where
  full := "Wire_" ++ base
  base := base
  header := header
  topicName := Name.flatten "__" canonical
  typeName := canonical

/-- The base with its first underscore replaced. -/
def parted (w base : String) : String := String.ofList (Text.replaceFirst '_' w.toList base.toList)

def guessed (base header : String) : WireStruct where
  full := "Wire_" ++ base
  base := base
  header := header
  topicName := parted "__" base
  typeName := parted "::" base

end WireStruct

end TypeCorpus
