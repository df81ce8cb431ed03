import TypeCorpus.Yaml.Tag

/-! The tokens of a YAML text. In block style the beginning and the end of a mapping are tokens of
their own, found from the columns of its keys. That a node was a key is known only at the colon
after it: until then its tokens are kept apart, from the place where it began. Such a key stands on
one line, at most 1024 characters before its colon, and where the column leaves no other reading it
has to be one. There are no tokens for sequences, so a text with one is refused. -/

namespace TypeCorpus.Yaml

/-- How a scalar was written; `other` is between quotes or folded. -/
inductive Style where
  | plain
  | literal
  | other
  deriving DecidableEq

inductive Token where
  | directive (d : Directive)
  | documentStart
  | documentEnd
  | blockStart
  | blockEnd
  | openBrace
  | closeBrace
  | comma
  | key
  | value
  | aliasOf (name : List Char)
  | anchor (name : List Char)
  | tag (t : Tag)
  | scalar (style : Style) (text : List Char)

/-- What may turn out to be a key: its place, whether nothing else is possible there, and the tokens
from there on, the last one first. -/
structure Candidate where
  column : Nat
  height : Nat
  required : Bool
  tokens : List Token

/-- Whether a candidate is out of reach of a colon at a place. -/
def Candidate.isStale (k : Candidate) (c : Cursor) : Bool :=
  k.height ≠ c.height || decide (k.column + 1024 < c.column)

/-- Reading of tokens: the place, the columns of the open block mappings, innermost first, whether a
key may begin here, the candidate for one, and the tokens before it, the last one first. -/
structure Scan where
  place : Cursor
  inBrackets : Bool := false
  columns : List Nat := []
  mayBegin : Bool := true
  candidate : Option Candidate := none
  tokens : List Token := []

namespace Scan

def emit (s : Scan) (t : Token) : Scan :=
  match s.candidate with
  | some k => { s with candidate := some { k with tokens := t :: k.tokens } }
  | none => { s with tokens := t :: s.tokens }

/-- Gives the candidate up, unless it has to be a key. -/
def withoutKey (s : Scan) : Option Scan :=
  match s.candidate with
  | some k =>
    if k.required then none
    else some { s with candidate := none, tokens := k.tokens ++ s.tokens }
  | none => some s

/-- Makes what begins here the candidate, where a key may begin. -/
def withKey (s : Scan) : Option Scan :=
  if s.mayBegin then do
    let s ← s.withoutKey
    let required := !s.inBrackets && s.columns.head? = some s.place.column
    some { s with candidate := some ⟨s.place.column, s.place.height, required, []⟩ }
  else some s

/-- Ends the open block mappings whose columns meet a condition, innermost first. -/
def leaveBlocks (deeper : Nat → Bool) (s : Scan) : Scan :=
  if s.inBrackets then s
  else
    let ends := (s.columns.takeWhile deeper).map fun _ => Token.blockEnd
    { ends.foldl emit s with columns := s.columns.dropWhile deeper }

def leaveAllBlocks (s : Scan) : Scan := s.leaveBlocks fun _ => true

/-- Begins a block mapping at a column, unless one as deep is open. -/
def enterBlock (column : Nat) (s : Scan) : Scan :=
  if s.inBrackets || s.columns.head?.any (column ≤ ·) then s
  else { s.emit .blockStart with columns := column :: s.columns }

/-- The least column of a value that goes on below its first line. -/
def least (s : Scan) : Nat :=
  match s.columns with
  | [] => 0
  | column :: _ => column + 1

/-- Goes on to the next token. In block style a new line may begin with a key, and a tab does not
count as spacing where a key may begin. -/
def advance (s : Scan) : Option Scan := do
  let c := s.place.afterSpacing (s.inBrackets || !s.mayBegin)
  let s :=
    if c.atLineEnd then
      { s with
        place := .firstToken s.inBrackets c.below
        mayBegin := s.mayBegin || !s.inBrackets }
    else { s with place := c }
  let s ← if s.candidate.any (·.isStale s.place) then s.withoutKey else some s
  some (s.leaveBlocks (s.place.column < ·))

/-- Takes a token that ends before `rest` on its line. -/
def take (t : Token) (mayBegin : Bool) (rest : List Char) (s : Scan) : Scan :=
  { s.emit t with place := s.place.skipTo rest, mayBegin }

/-! ### The kinds of tokens

Each function reads a token whose mark stands before `rest`. -/

def readDirective (rest : List Char) (s : Scan) : Option Scan := do
  let s ← s.leaveAllBlocks.withoutKey
  let d ← Directive.read? rest
  some { s.emit (.directive d) with place := s.place.nextLine, mayBegin := false }

def readMarker (t : Token) (rest : List Char) (s : Scan) : Option Scan :=
  s.leaveAllBlocks.withoutKey.map (take t false rest)

def readOpenBrace (rest : List Char) (s : Scan) : Option Scan :=
  if s.inBrackets then none
  else s.withoutKey.map fun s => { s.take .openBrace true rest with inBrackets := true }

def readCloseBrace (rest : List Char) (s : Scan) : Option Scan :=
  if !s.inBrackets then none
  else s.withoutKey.map fun s => { s.take .closeBrace false rest with inBrackets := false }

def readComma (rest : List Char) (s : Scan) : Option Scan :=
  if !s.inBrackets then none else s.withoutKey.map (take .comma true rest)

/-- Reads the mark of an explicit key. -/
def readKey (rest : List Char) (s : Scan) : Option Scan :=
  if !s.inBrackets && !s.mayBegin then none
  else (s.enterBlock s.place.column).withoutKey.map (take .key (!s.inBrackets) rest)

/-- Reads a colon, which makes the candidate a key. -/
def readValue (rest : List Char) (s : Scan) : Option Scan :=
  match s.candidate with
  | some k =>
    let s := (enterBlock k.column { s with candidate := none }).emit .key
    some (take .value false rest { s with tokens := k.tokens ++ s.tokens })
  | none =>
    if s.inBrackets then some (s.take .value false rest)
    else if s.mayBegin then some ((s.enterBlock s.place.column).take .value true rest)
    else none

/-- Whether the name of an anchor or alias may end in front of a text. -/
def endsName (s : List Char) : Bool :=
  isBounded s || s.head?.any ['?', ':', ',', ']', '\x7d', '%', '@', '\x60'].contains

def readName (token : List Char → Token) (rest : List Char) (s : Scan) : Option Scan :=
  let name := rest.takeWhile isNameChar
  let rest := rest.drop name.length
  if name = [] ∨ !endsName rest then none else s.withKey.map (take (token name) false rest)

def readTag (rest : List Char) (s : Scan) : Option Scan := do
  let (t, rest) ← Tag.read? rest
  if isBounded rest || (s.inBrackets && rest.head? = some ',') then
    s.withKey.map (take (.tag t) false rest)
  else none

def readQuoted (q : Quote) (rest : List Char) (s : Scan) : Option Scan := do
  let (text, after) ← (s.place.skipTo rest).quoted q
  let s ← s.withKey
  some { s.emit (.scalar .other text) with place := after, mayBegin := false }

/-- Reads a block scalar, which is no key, but after which one may begin. -/
def readBlock (folds : Bool) (rest : List Char) (s : Scan) : Option Scan := do
  let (text, after) ← (s.place.skipTo rest).block folds s.least
  let s ← s.withoutKey
  let style := if folds then Style.other else .literal
  some { s.emit (.scalar style text) with place := after, mayBegin := true }

/-- Reads a plain scalar from its first character on. -/
def readPlain (s : Scan) : Option Scan := do
  let p ← s.place.plain s.inBrackets s.least
  let s ← s.withKey
  some { s.emit (.scalar .plain p.text) with place := p.after, mayBegin := p.broken }

/-- Reads the token that begins with a character. -/
def read (c : Char) (rest : List Char) (s : Scan) : Option Scan :=
  if s.place.column = 0 ∧ c = '%' then s.readDirective rest
  else if s.place.isAt '-' then s.readMarker .documentStart (rest.drop 2)
  else if s.place.isAt '.' then s.readMarker .documentEnd (rest.drop 2)
  else if c = '\x7b' then s.readOpenBrace rest
  else if c = '\x7d' then s.readCloseBrace rest
  else if c = ',' then s.readComma rest
  else if c = '?' ∧ (s.inBrackets ∨ isBounded rest) then s.readKey rest
  else if c = ':' ∧ (s.inBrackets ∨ isBounded rest) then s.readValue rest
  else if c = '*' then s.readName .aliasOf rest
  else if c = '&' then s.readName .anchor rest
  else if c = '!' then s.readTag rest
  else if c = Quote.single.mark then s.readQuoted .single rest
  else if c = Quote.double.mark then s.readQuoted .double rest
  else if c = '|' ∧ !s.inBrackets then s.readBlock false rest
  else if c = '>' ∧ !s.inBrackets then s.readBlock true rest
  else if startsPlain s.inBrackets (c :: rest) then s.readPlain
  else none

/-- Reads tokens to the end of the text, at most so many. -/
def run : Nat → Scan → Option (List Token)
  | 0, _ => none
  | more + 1, s => do
    let s ← s.advance
    match s.place.here with
    | [] => s.leaveAllBlocks.withoutKey.map (·.tokens.reverse)
    | c :: rest => (← s.read c rest).run more

end Scan

/-- The tokens of a text; each takes at least one character. -/
def tokens? (text : List Char) : Option (List Token) :=
  if !text.all isAllowed then none
  else Scan.run (text.length + 1) { place := .ofLines (lines (withPlainBreaks text)) }

end TypeCorpus.Yaml
