import TypeCorpus.Json.Token

/-! Printed JSON. A value is laid out as its tokens with the places between them at which a pretty
text breaks the line or leaves a space; the compact text leaves nothing there. An empty container
has no place inside it. -/

namespace TypeCorpus.Json

/-- A token, or a place between tokens: a new line at a depth, or a space. -/
inductive Piece where
  | token (t : Token)
  | newline (depth : Nat)
  | space
  deriving DecidableEq

namespace Piece

def compact : Piece → List Char
  | token t => t.text
  | newline _ => []
  | space => []

/-- Each level is indented by two more spaces. -/
def pretty : Piece → List Char
  | token t => t.text
  | newline depth => '\n' :: List.replicate (2 * depth) ' '
  | space => [' ']

end Piece

/-- Lays out a list with a comma before every item but the first. -/
def separated (depth : Nat) : List (List Piece) → List Piece
  | [] => []
  | p :: ps => .newline depth :: p ++ ps.flatMap fun p => .token .comma :: .newline depth :: p

/-- Lays out the items of a container between its brackets. -/
def enclosed (first last : Token) (depth : Nat) (items : List (List Piece)) : List Piece :=
  match items with
  | [] => [.token first, .token last]
  | items => .token first :: separated (depth + 1) items ++ [.newline depth, .token last]

def memberPieces (key : String) (value : List Piece) : List Piece :=
  .token (.string key) :: .token .colon :: .space :: value

namespace Value

mutual

def pieces (depth : Nat) : Value → List Piece
  | null => [.token .null]
  | bool b => [.token (.bool b)]
  | number n => [.token (.number n)]
  | string s => [.token (.string s)]
  | array items => enclosed .openBracket .closeBracket depth (itemPieces (depth + 1) items)
  | object members => enclosed .openBrace .closeBrace depth (memberPieces (depth + 1) members)

def itemPieces (depth : Nat) : List Value → List (List Piece)
  | [] => []
  | v :: vs => pieces depth v :: itemPieces depth vs

def memberPieces (depth : Nat) : List (String × Value) → List (List Piece)
  | [] => []
  | (k, v) :: ms => Json.memberPieces k (pieces depth v) :: memberPieces depth ms

end

def compact (v : Value) : String := String.ofList ((v.pieces 0).flatMap Piece.compact)

def pretty (v : Value) : String := String.ofList ((v.pieces 0).flatMap Piece.pretty)

end Value

end TypeCorpus.Json
