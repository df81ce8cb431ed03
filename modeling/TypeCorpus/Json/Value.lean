import TypeCorpus.Number.Binary64

/-! JSON values. An object is the list of its members in order; a number is a whole number or a
finite binary floating point number. -/

namespace TypeCorpus.Json

inductive Numeral where
  | integer (i : Int)
  | real (x : Number.Finite)
  deriving DecidableEq

inductive Value where
  | null
  | bool (b : Bool)
  | number (n : Numeral)
  | string (s : String)
  | array (items : List Value)
  | object (members : List (String × Value))

namespace Value

/-- The member of an object under a key, the first if there are several. -/
def get? (key : String) : Value → Option Value
  | object members => members.lookup key
  | _ => none

def string? : Value → Option String
  | string s => some s
  | _ => none

def array? : Value → Option (List Value)
  | array items => some items
  | _ => none

def bool? : Value → Option Bool
  | bool b => some b
  | _ => none

/-- A text, or null for none. -/
def ofOption (s : Option String) : Value := s.elim null string

def ofNat (n : Nat) : Value := number (.integer n)

end Value

end TypeCorpus.Json
