import TypeCorpus.Json.Token
import TypeCorpus.Table

/-! Reading JSON: tokens are read one after the other by a machine that keeps the containers it is
inside of, innermost first. A key that comes again in an object keeps its place and takes the later
value. -/

namespace TypeCorpus.Json

/-- A container that is not closed yet, with what it holds so far. -/
inductive Frame where
  | items (items : List Value)
  | members (members : List (String × Value))
  | member (members : List (String × Value)) (key : String)

/-- What may come next, inside which containers. -/
inductive Expected where
  | value (inside : List Frame)
  | firstItem (inside : List Frame)
  | firstKey (inside : List Frame)
  | key (members : List (String × Value)) (inside : List Frame)
  | colon (members : List (String × Value)) (key : String) (inside : List Frame)
  | separator (inside : List Frame)
  | nothing (v : Value)

namespace Expected

/-- Puts a finished value where it belongs. -/
def deliver (v : Value) : List Frame → Option Expected
  | [] => some (nothing v)
  | .items vs :: inside => some (separator (.items (vs ++ [v]) :: inside))
  | .member ms k :: inside => some (separator (.members (Table.insert ms k v) :: inside))
  | .members _ :: _ => none

/-- Reads a token where a value may begin. -/
def begin (inside : List Frame) : Token → Option Expected
  | .openBrace => some (firstKey inside)
  | .openBracket => some (firstItem inside)
  | .null => deliver .null inside
  | .bool b => deliver (.bool b) inside
  | .number n => deliver (.number n) inside
  | .string s => deliver (.string s) inside
  | _ => none

def step : Expected → Token → Option Expected
  | value inside, t => begin inside t
  | firstItem inside, .closeBracket => deliver (.array []) inside
  | firstItem inside, t => begin (.items [] :: inside) t
  | firstKey inside, .closeBrace => deliver (.object []) inside
  | firstKey inside, .string k => some (colon [] k inside)
  | key ms inside, .string k => some (colon ms k inside)
  | colon ms k inside, .colon => some (value (.member ms k :: inside))
  | separator (.items vs :: inside), .comma => some (value (.items vs :: inside))
  | separator (.items vs :: inside), .closeBracket => deliver (.array vs) inside
  | separator (.members ms :: inside), .comma => some (key ms inside)
  | separator (.members ms :: inside), .closeBrace => deliver (.object ms) inside
  | _, _ => none

def run (e : Expected) : List Token → Option Expected
  | [] => some e
  | t :: ts =>
    match e.step t with
    | some e => run e ts
    | none => none

end Expected

namespace Value

/-- The value that a list of tokens spells. -/
def ofTokens? (ts : List Token) : Option Value :=
  match (Expected.value []).run ts with
  | some (.nothing v) => some v
  | _ => none

/-- The value that a text spells, as the standard of JSON has it: a number is read as the nearest
double, however many digits it has, and containers lie inside each other to any depth. It is no
library's deserializer: one of those may round some long decimals to a neighbour of that double, and
stop at a depth of 128. -/
def parse? (text : String) : Option Value :=
  match tokens? text.toList with
  | some ts => ofTokens? ts
  | none => none

end Value

end TypeCorpus.Json
