import TypeCorpus.Number.Digits
import TypeCorpus.Yaml.Scalar

/-! Names of anchors and tags, and directives. A tag is a suffix after a handle: `!` for local ones,
`!!` for standard ones, or a handle that a directive declares; between angle brackets it stands in
full. In a suffix a character may be written as octets in hexadecimal, which have to have the shape
of its UTF-8 encoding; a zero octet ends the suffix. -/

namespace TypeCorpus.Yaml

def isNameChar (c : Char) : Bool := c.isAlphanum || c = '-' || c = '_'

/-- A character of a tag that is written as itself; `full` lets in those that end a node inside
brackets. -/
def isTagChar (full : Bool) (c : Char) : Bool :=
  isNameChar c || ";/?:@&=+$.!~*\x27()".toList.contains c || (full && [',', '[', ']'].contains c)

/-- The number of octets that have to follow the first one of a character. -/
def octetsAfter? (octet : Nat) : Option Nat :=
  if octet < 0x80 then some 0
  else if octet / 0x20 = 0x06 then some 1
  else if octet / 0x10 = 0x0E then some 2
  else if octet / 0x08 = 0x1E then some 3
  else none

/-- The characters of a tag, one for each octet, and the text after them; `missing` octets still
belong to the last character. -/
def tagText (full : Bool) (missing : Nat) : List Char → Option (List Char × List Char)
  | '%' :: a :: b :: s => do
    let octet := 16 * (← hexDigit? a) + (← hexDigit? b)
    let missing ←
      match missing with
      | 0 => octetsAfter? octet
      | n + 1 => if octet / 0x40 = 0x02 then some n else none
    let (text, rest) ← tagText full missing s
    some (Char.ofNat octet :: text, rest)
  | c :: s =>
    if missing ≠ 0 ∨ c = '%' then none
    else if isTagChar full c then (tagText full 0 s).map fun t => (c :: t.1, t.2)
    else some ([], c :: s)
  | [] => if missing = 0 then some ([], []) else none

/-- A text up to its first zero octet. -/
def untilZero (s : List Char) : List Char := s.takeWhile (· ≠ '\x00')

/-- A tag as it is written; one in full has the empty handle. -/
structure Tag where
  handle : List Char
  suffix : List Char
  deriving DecidableEq

namespace Tag

/-- What stands for a handle, declared before or known to every text. -/
def origin? (declared : List (List Char × List Char)) (handle : List Char) : Option (List Char) :=
  if handle = [] then some []
  else (declared ++ [(['!'], ['!']), (['!', '!'], "tag:yaml.org,2002:".toList)]).lookup handle

/-- The tag in full. -/
def full? (declared : List (List Char × List Char)) (t : Tag) : Option (List Char) :=
  (origin? declared t.handle).map (· ++ t.suffix)

/-- The tag of truth values. -/
def truth : List Char := "tag:yaml.org,2002:bool".toList

/-- Reads a handle and the name after its mark, if no second mark follows it. -/
def readHandle (s : List Char) : List Char × List Char :=
  let name := s.takeWhile isNameChar
  match s.drop name.length with
  | '!' :: rest => ('!' :: name ++ ['!'], rest)
  | _ => (['!'], s)

/-- Reads a tag after its mark. -/
def read? : List Char → Option (Tag × List Char)
  | '<' :: s => do
    let (text, rest) ← tagText true 0 s
    match rest with
    | '>' :: rest => if text = [] then none else some (⟨[], untilZero text⟩, rest)
    | _ => none
  | s => do
    let (handle, s) := readHandle s
    let (text, rest) ← tagText false 0 s
    if handle ≠ ['!'] then
      if text = [] then none else some (⟨handle, untilZero text⟩, rest)
    else if untilZero text = [] then some (⟨[], ['!']⟩, rest)
    else some (⟨handle, untilZero text⟩, rest)

end Tag

/-- What a line that begins with a percent sign declares. -/
inductive Directive where
  | version (major minor : Nat)
  | handle (handle origin : List Char)

namespace Directive

def afterSpacing (s : List Char) : List Char := s.dropWhile isSpacing

/-- Reads a number of at most nine digits. -/
def number? (s : List Char) : Option (Nat × List Char) :=
  let ds := s.takeWhile Char.isDigit
  if ds = [] ∨ 9 < ds.length then none else some (Number.ofDigits ds, s.drop ds.length)

/-- Reads what the named directive declares. -/
def content? (name s : List Char) : Option (Directive × List Char) :=
  if name = "YAML".toList then do
    let (major, s) ← number? (afterSpacing s)
    match s with
    | '.' :: s =>
      let (minor, s) ← number? s
      some (version major minor, s)
    | _ => none
  else if name = "TAG".toList then
    match afterSpacing s with
    | '!' :: s => do
      let (h, s) := Tag.readHandle s
      if !s.head?.any isSpacing then none
      else
        let (text, rest) ← tagText true 0 (afterSpacing s)
        if text = [] ∨ !isBounded rest then none else some (handle h (untilZero text), rest)
    | _ => none
  else none

/-- Reads a directive after its mark; only a comment may follow it on its line. -/
def read? (s : List Char) : Option Directive := do
  let name := s.takeWhile isNameChar
  let s := s.drop name.length
  if !isBounded s then none
  else
    let (d, rest) ← content? name s
    let rest := afterSpacing rest
    if rest = [] ∨ rest.head? = some '#' then some d else none

end Directive

end TypeCorpus.Yaml
