import TypeCorpus.Declaration
import TypeCorpus.Json.Value

/-! Declarations as JSON. A structured value is written as an object with all its fields, an absent
text as null. It is read from an object in any order of keys, with unknown keys passed over and
optional texts left out, or from the array of exactly its fields in order; a declaration carries its
kind under its own key, or as the first element of the array. -/

namespace TypeCorpus

open Json (Value)

namespace Json.Value

/-- The values of the given fields, from an object by key or from an array by place. -/
def fields? (keys : List String) : Value → Option (List (Option Value))
  | object members => some (keys.map fun key => members.lookup key)
  | array items => if items.length = keys.length then some (items.map some) else none
  | _ => none

/-- An optional text: left out, null or a string. -/
def optionalText? : Option Value → Option (Option String)
  | none => some none
  | some null => some none
  | some (string s) => some (some s)
  | _ => none

def text? : Option Value → Option String
  | some (string s) => some s
  | _ => none

/-- A list that has to be there, each item read by `item`. -/
def list? {α : Type} (item : Value → Option α) : Option Value → Option (List α)
  | some (array items) => items.mapM item
  | _ => none

end Json.Value

namespace Member

def keys : List String :=
  ["name", "type_name", "non_basic_type_name", "sequence_max_length", "array_dimensions"]

def toJson (m : Member) : Value :=
  .object [("name", .string m.name), ("type_name", .ofOption m.typeName),
    ("non_basic_type_name", .ofOption m.nonBasicTypeName),
    ("sequence_max_length", .ofOption m.sequenceMaxLength),
    ("array_dimensions", .ofOption m.arrayDimensions)]

def ofJson? (v : Value) : Option Member :=
  match v.fields? keys with
  | some [name, typeName, nonBasic, length, dimensions] =>
    match Value.text? name, Value.optionalText? typeName, Value.optionalText? nonBasic,
      Value.optionalText? length, Value.optionalText? dimensions with
    | some name, some typeName, some nonBasic, some length, some dimensions =>
      some ⟨name, typeName, nonBasic, length, dimensions⟩
    | _, _, _, _, _ => none
  | _ => none

end Member

namespace StructDecl

def keys : List String := ["name", "base_type", "members"]

/-- The fields as they stand in an object. -/
def entries (s : StructDecl) : List (String × Value) :=
  [("name", .string s.name), ("base_type", .ofOption s.baseType),
    ("members", .array (s.members.map Member.toJson))]

def toJson (s : StructDecl) : Value := .object s.entries

def ofFields? : List (Option Value) → Option StructDecl
  | [name, base, members] =>
    match Value.text? name, Value.optionalText? base, Value.list? Member.ofJson? members with
    | some name, some base, some members => some ⟨name, base, members⟩
    | _, _, _ => none
  | _ => none

def ofJson? (v : Value) : Option StructDecl := (v.fields? keys).bind ofFields?

end StructDecl

namespace Declaration

/-- A declaration of the kind from the values of its fields. -/
def ofKind? (kind : String) (v : Value) : Option Declaration :=
  match kind with
  | "typedef" =>
    match v.fields? ["name", "underlying"] with
    | some [name, underlying] =>
      match Value.text? name, Value.text? underlying with
      | some name, some underlying => some (.typedef name underlying)
      | _, _ => none
    | _ => none
  | "enum" =>
    match v.fields? ["name", "enumerators"] with
    | some [name, enumerators] =>
      match Value.text? name, Value.list? Value.string? enumerators with
      | some name, some enumerators => some (.enum name enumerators)
      | _, _ => none
    | _ => none
  | "struct" => (StructDecl.ofJson? v).map .struct
  | _ => none

def ofJson? : Value → Option Declaration
  | .object members =>
    match members.lookup "kind" with
    | some (.string kind) => ofKind? kind (.object members)
    | _ => none
  | .array (.string kind :: fields) => ofKind? kind (.array fields)
  | _ => none

def toJson : Declaration → Value
  | typedef name underlying =>
    .object [("kind", .string "typedef"), ("name", .string name),
      ("underlying", .string underlying)]
  | enum name enumerators =>
    .object [("kind", .string "enum"), ("name", .string name),
      ("enumerators", .array (enumerators.map .string))]
  | struct decl => .object (("kind", .string "struct") :: decl.entries)

end Declaration

end TypeCorpus
