import TypeCorpus.Number.Binary64
import TypeCorpus.Table

/-! Sample values. A record holds its fields in the order in which they were first written. Where a
type has no sample of its own a placeholder tells why: the enumeration has no enumerators, the
reference means nothing, or the structure is being expanded already. A member's string sample is its
own name, without one leading `A_`. -/

namespace TypeCorpus

inductive Sample where
  | bool (b : Bool)
  | float (x : Number.Binary64)
  | int (i : Int)
  | genericString
  | text (s : String)
  | enumerator (name : String)
  | unknownEnum
  | unknownType (ref : String)
  | recursiveType (ref : String)
  | record (fields : List (String × Sample))
  | list (items : List Sample)

namespace Sample

def isPlaceholder : Sample → Bool
  | unknownEnum | unknownType _ | recursiveType _ => true
  | _ => false

mutual

/-- The number of placeholders anywhere in a sample. -/
def placeholders : Sample → Nat
  | record fields => fieldPlaceholders fields
  | list items => itemPlaceholders items
  | s => s.isPlaceholder.toNat

def fieldPlaceholders : List (String × Sample) → Nat
  | [] => 0
  | (_, s) :: fields => placeholders s + fieldPlaceholders fields

def itemPlaceholders : List Sample → Nat
  | [] => 0
  | s :: items => placeholders s + itemPlaceholders items

end

def fields? : Sample → Option (Table String Sample)
  | record fields => some fields
  | _ => none

def get? (s : Sample) (field : String) : Option Sample := s.fields?.bind (Table.get? · field)

/-- The text of a sample that is written as a string. -/
def text? : Sample → Option String
  | genericString => some "string"
  | text s => some s
  | enumerator name => some name
  | unknownEnum => some "UNKNOWN_ENUM"
  | unknownType ref => some ("UnknownType(" ++ ref ++ ")")
  | recursiveType ref => some ("RecursiveType(" ++ ref ++ ")")
  | _ => none

/-- What a string sample of the member is called. -/
def memberLabel (name : String) : String :=
  match name.toList with
  | 'A' :: '_' :: rest => String.ofList rest
  | _ => name

mutual

/-- Gives the generic string, also inside lists, the label of a member. -/
def labelled (name : String) : Sample → Sample
  | genericString => text (memberLabel name)
  | list items => list (itemsLabelled name items)
  | s => s

def itemsLabelled (name : String) : List Sample → List Sample
  | [] => []
  | s :: items => labelled name s :: itemsLabelled name items

end

theorem itemsLabelled_eq_map (name : String) (items : List Sample) :
    itemsLabelled name items = items.map (labelled name) := by
  induction items with
  | nil => simp [itemsLabelled]
  | cons s items ih => simp [itemsLabelled, ih]

end Sample

end TypeCorpus
