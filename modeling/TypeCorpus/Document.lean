import TypeCorpus.Registry.Basic
import TypeCorpus.Xml.Element

/-! Schema documents. The elements at and below the types root are visited in document order, each
with the path of the named modules around it; a typedef, an enumeration or a structure with a name
is a declaration, named by that path and its own name. A nameless module adds nothing to the path,
and an empty attribute is absent. -/

namespace TypeCorpus

open Xml (Element)

namespace Schema

def isEnumerator (e : Element) : Bool := ["enumerator", "value", "literal"].contains e.tag

def isMember (e : Element) : Bool := ["member", "field", "element"].contains e.tag

/-- The element that holds the declarations: the root if it is one for types, else its first such
child, else the root. -/
def typesRoot (root : Element) : Element :=
  if root.tag = "types" then root else (root.child? "types").getD root

/-- The path inside an element: a named module extends it. -/
def innerScope (scope : Option String) (e : Element) : Option String :=
  if e.tag = "module" then
    match e.attr? "name" with
    | some name => some (Name.inScope scope name)
    | none => scope
  else scope

mutual

/-- The elements of a tree in document order, each with the path around it. -/
def visits (scope : Option String) : Element → List (Option String × Element)
  | ⟨tag, attributes, children⟩ =>
    (scope, ⟨tag, attributes, children⟩) ::
      visitsAll (innerScope scope ⟨tag, attributes, []⟩) children

def visitsAll (scope : Option String) : List Element → List (Option String × Element)
  | [] => []
  | e :: es => visits scope e ++ visitsAll scope es

end

def member? (e : Element) : Option Member :=
  (e.attr? "name").map fun name =>
    { name
      typeName := e.attr? "type"
      nonBasicTypeName := e.attr? "nonBasicTypeName"
      sequenceMaxLength := e.attr? "sequenceMaxLength"
      arrayDimensions := e.attr? "arrayDimensions" }

/-- The structure that an element declares under a name. -/
def structNamed (name : String) (e : Element) : StructDecl where
  name := name
  baseType := e.attr? "baseType"
  members := (e.children.filter isMember).filterMap member?

def enumerators (e : Element) : List String :=
  (e.children.filter isEnumerator).filterMap (·.attr? "name")

/-- The type reference that a typedef element gives another name to. -/
def underlying? (e : Element) : Option String := (e.attr? "nonBasicTypeName").or (e.attr? "type")

def declaration? (scope : Option String) (e : Element) : Option Declaration :=
  match e.attr? "name" with
  | none => none
  | some name =>
    let full := Name.inScope scope name
    match e.tag with
    | "typedef" => (underlying? e).map (.typedef full ·)
    | "enum" => some (.enum full (enumerators e))
    | "struct" => some (.struct (structNamed full e))
    | _ => none

def declarations (root : Element) : List Declaration :=
  (visits none (typesRoot root)).filterMap fun v => declaration? v.1 v.2

/-- A structure with its name and its path apart. -/
def struct? (scope : Option String) (e : Element) : Option (QualifiedName × StructDecl) :=
  if e.tag = "struct" then
    (e.attr? "name").map fun name =>
      (.ofScope scope name, structNamed (Name.inScope scope name) e)
  else none

def structs (root : Element) : List (QualifiedName × StructDecl) :=
  (visits none (typesRoot root)).filterMap fun v => struct? v.1 v.2

end Schema

/-- A structure of a module as something to publish. -/
structure Topic where
  name : QualifiedName
  deriving DecidableEq

namespace Topic

/-- The topic's name on the wire; outer modules do not show in it. -/
def topicName (t : Topic) : String := Name.flatten "__" t.name.logical

/-- The part of a generated function's name that tells the topic. -/
def apiSuffix (t : Topic) : String := Name.flatten "_" t.name.logical

def typeName (t : Topic) : String := t.name.qualified

end Topic

/-- A document that was read, with the path it came from. -/
structure Document where
  path : String
  root : Element

/-- Why a document could not be read from its text. -/
structure DocumentError where
  label : String
  cause : Xml.Error
  deriving DecidableEq

def DocumentError.message (e : DocumentError) : String :=
  "failed to parse '" ++ e.label ++ "': " ++ e.cause.message

namespace Document

def parse (path text : String) : Except DocumentError Document :=
  match Element.parse text with
  | .ok root => .ok ⟨path, root⟩
  | .error cause => .error ⟨path, cause⟩

def declarations (d : Document) : List Declaration := Schema.declarations d.root

def structs (d : Document) : List (QualifiedName × StructDecl) := Schema.structs d.root

/-- The structures that lie in a module. -/
def topics (d : Document) : List Topic :=
  (d.structs.filter (·.1.scope.isSome)).map fun s => ⟨s.1⟩

end Document

end TypeCorpus
