import TypeCorpus.Json.Printer
import TypeCorpus.Sample.Basic

/-! Samples as JSON. A sample is written straight from its tree, and it can also be turned into a
JSON value first; both give one text. A number that is not finite is null. -/

namespace TypeCorpus.Sample

open Json (Value Piece Token)

mutual

/-- The JSON value of a sample, record fields in order. -/
def toJson : Sample → Value
  | bool b => .bool b
  | float (.finite x) => .number (.real x)
  | float _ => .null
  | int i => .number (.integer i)
  | record fields => .object (fieldsToJson fields)
  | list items => .array (itemsToJson items)
  | s => .string (s.text?.getD "")

def fieldsToJson : List (String × Sample) → List (String × Value)
  | [] => []
  | (k, s) :: fields => (k, toJson s) :: fieldsToJson fields

def itemsToJson : List Sample → List Value
  | [] => []
  | s :: items => toJson s :: itemsToJson items

end

/-- The token of a sample without parts. -/
def scalarToken : Sample → Token
  | bool b => .bool b
  | float (.finite x) => .number (.real x)
  | float _ => .null
  | int i => .number (.integer i)
  | s => .string (s.text?.getD "")

mutual

/-- Lays a sample out as JSON at a depth. -/
def pieces (depth : Nat) : Sample → List Piece
  | record fields =>
    Json.enclosed .openBrace .closeBrace depth (fieldPieces (depth + 1) fields)
  | list items =>
    Json.enclosed .openBracket .closeBracket depth (itemPieces (depth + 1) items)
  | s => [.token s.scalarToken]

def fieldPieces (depth : Nat) : List (String × Sample) → List (List Piece)
  | [] => []
  | (k, s) :: fields => Json.memberPieces k (pieces depth s) :: fieldPieces depth fields

def itemPieces (depth : Nat) : List Sample → List (List Piece)
  | [] => []
  | s :: items => pieces depth s :: itemPieces depth items

end

def compact (s : Sample) : String := String.ofList ((s.pieces 0).flatMap Piece.compact)

def pretty (s : Sample) : String := String.ofList ((s.pieces 0).flatMap Piece.pretty)

end TypeCorpus.Sample
