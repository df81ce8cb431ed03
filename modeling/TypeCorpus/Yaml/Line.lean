import TypeCorpus.Text.Bytes

/-! The lines of a YAML text, and cursors in it. A text is cut after each line break, with the
several spellings of one made alike first. A cursor knows its column, the rest of its line and the
lines below. A gap is what may stand between two tokens: spacing, comments, line breaks, and a byte
order mark at the front of a line. -/

namespace TypeCorpus.Yaml

/-- Whether a text may hold a character at all. -/
def isAllowed (c : Char) : Bool :=
  let n := c.toNat
  n = 0x09 || n = 0x0A || n = 0x0D || (0x20 ≤ n && n ≤ 0x7E) || n = 0x85 ||
    (0xA0 ≤ n && n ≤ 0xFFFD) || 0x10000 ≤ n

def isSpacing (c : Char) : Bool := c = ' ' || c = '\t'

def isBreak (c : Char) : Bool := c = '\n' || c = '\u2028' || c = '\u2029'

/-- The rest of a line ends here, or spacing follows. -/
def isBounded (s : List Char) : Bool :=
  match s with
  | [] => true
  | c :: _ => isSpacing c

/-- Writes each carriage return, line feed, pair of both and next-line control as one line feed. -/
def withPlainBreaks : List Char → List Char
  | '\r' :: '\n' :: s => '\n' :: withPlainBreaks s
  | c :: s => (if c = '\r' ∨ c = '\x85' then '\n' else c) :: withPlainBreaks s
  | [] => []

/-- A line with the break that ends it; the last one may have none. -/
structure Line where
  text : List Char
  ending : Option Char

def lines : List Char → List Line
  | [] => []
  | c :: s =>
    if isBreak c then ⟨[], some c⟩ :: lines s
    else
      match lines s with
      | [] => [⟨[c], none⟩]
      | line :: more => ⟨c :: line.text, line.ending⟩ :: more

structure Cursor where
  column : Nat
  here : List Char
  ending : Option Char
  below : List Line

namespace Cursor

/-- Where every line has been read. -/
def finish : Cursor := ⟨0, [], none, []⟩

/-- At the front of a line. -/
def ofLine (line : Line) (below : List Line) : Cursor := ⟨0, line.text, line.ending, below⟩

/-- At the front of some lines. -/
def ofLines : List Line → Cursor
  | [] => finish
  | line :: more => ofLine line more

/-- At the front of the next line. -/
def nextLine (c : Cursor) : Cursor := ofLines c.below

/-- Goes on to a later place on the line. -/
def skipTo (c : Cursor) (rest : List Char) : Cursor :=
  { c with column := c.column + (c.here.length - rest.length), here := rest }

/-- The number of lines below, which tells the lines of a text apart. -/
def height (c : Cursor) : Nat := c.below.length

/-- Whether three dots or dashes stand alone at the front of the line. -/
def isAt (c : Cursor) (marker : Char) : Bool :=
  c.column = 0 && c.here.take 3 = [marker, marker, marker] && isBounded (c.here.drop 3)

def atMarker (c : Cursor) : Bool := c.isAt '-' || c.isAt '.'

/-- Skips spaces, and tabs where they count as spacing. -/
def afterSpacing (tabs : Bool) (c : Cursor) : Cursor :=
  let s := if c.column = 0 then Text.withoutMark c.here else c.here
  c.skipTo (s.dropWhile fun d => d = ' ' || (tabs && d = '\t'))

/-- Whether nothing but a comment is left of the line. -/
def atLineEnd (c : Cursor) : Bool := c.here.isEmpty || c.here.head? = some '#'

/-- The first token on some lines. -/
def firstToken (tabs : Bool) : List Line → Cursor
  | [] => finish
  | line :: more =>
    let c := (ofLine line more).afterSpacing tabs
    if c.atLineEnd then firstToken tabs more else c

end Cursor

end TypeCorpus.Yaml
