import TypeCorpus.Yaml.Line

/-! The texts of scalars. A plain one runs until a colon or a comment with spacing around it, a
quoted one to its closing quote, and both may go on over several lines, whose breaks are folded: a
single one becomes a space, and of several the first is dropped. A block scalar is all lines
indented deep enough. Inside brackets also commas and brackets end a plain scalar. -/

namespace TypeCorpus.Yaml

/-- What line breaks between two parts of a scalar become. -/
def folded : List Char → List Char
  | ['\n'] => [' ']
  | '\n' :: more => more
  | breaks => breaks

/-! ### Plain scalars -/

def isBracketing (c : Char) : Bool := [',', '[', ']', '\x7b', '\x7d'].contains c

/-- Whether a character at the front of a node says what kind of node it is. -/
def isIndicator (c : Char) : Bool :=
  ['#', '&', '*', '!', '|', '>', '\x27', '"', '%', '@', '\x60'].contains c

def startsPlain (inBrackets : Bool) : List Char → Bool
  | [] => false
  | c :: s =>
    if c = '-' then !isBounded s
    else if c = '?' ∨ c = ':' then !inBrackets && !isBounded s
    else !isSpacing c && !isBracketing c && !isIndicator c

/-- The text of a plain scalar on one line, and what ends it; `spacing` was read since its last
character. -/
def plainText (inBrackets : Bool) (spacing : List Char) : List Char → Option (List Char × List Char)
  | [] => some ([], [])
  | c :: s =>
    if isSpacing c then plainText inBrackets (spacing ++ [c]) s
    else if c = '#' ∧ spacing ≠ [] then some ([], c :: s)
    else if inBrackets ∧ c = ':' ∧ s.head?.any (fun d => d = '?' || isBracketing d) then none
    else if (c = ':' ∧ isBounded s) ∨ (inBrackets ∧ isBracketing c) then some ([], c :: s)
    else (plainText inBrackets [] s).map fun t => (spacing ++ c :: t.1, t.2)

/-- A plain scalar that was read; `broken` tells whether a line break stands between it and the
place after it. -/
structure PlainText where
  text : List Char
  broken : Bool
  after : Cursor

/-- The part of a plain scalar on later lines, at least so far indented. -/
def plainBelow (inBrackets : Bool) (least : Nat) (breaks : List Char) : List Line → Option PlainText
  | [] => some ⟨[], true, .finish⟩
  | line :: more => do
    let front := line.text.takeWhile isSpacing
    let c := (Cursor.ofLine line more).skipTo (line.text.drop front.length)
    if '\t' ∈ front.take least then none
    else if c.here = [] then plainBelow inBrackets least (breaks ++ line.ending.toList) more
    else if (!inBrackets && c.column < least) || c.atMarker || c.here.head? = some '#' then
      some ⟨[], true, c⟩
    else
      let (text, rest) ← plainText inBrackets [] c.here
      if text = [] then some ⟨[], true, c⟩
      else if rest ≠ [] then some ⟨folded breaks ++ text, false, c.skipTo rest⟩
      else
        let p ← plainBelow inBrackets least line.ending.toList more
        some { p with text := folded breaks ++ text ++ p.text }

def Cursor.plain (c : Cursor) (inBrackets : Bool) (least : Nat) : Option PlainText := do
  let (text, rest) ← plainText inBrackets [] c.here
  if rest ≠ [] then some ⟨text, false, c.skipTo rest⟩
  else
    let p ← plainBelow inBrackets least c.ending.toList c.below
    some { p with text := text ++ p.text }

/-! ### Quoted scalars -/

inductive Quote where
  | single
  | double
  deriving DecidableEq

def Quote.mark : Quote → Char
  | single => '\x27'
  | double => '"'

/-- How a line of a quoted scalar ends: with the closing quote, with a break, or with an escaped
one. -/
inductive QuoteEnd where
  | closed (rest : List Char)
  | broken
  | escaped

/-- The character that a letter after a backslash stands for. -/
def escape? (c : Char) : Option Char :=
  match c with
  | '0' => some '\x00'
  | 'a' => some '\x07'
  | 'b' => some '\x08'
  | 't' => some '\t'
  | '\t' => some '\t'
  | 'n' => some '\n'
  | 'v' => some '\x0b'
  | 'f' => some '\x0c'
  | 'r' => some '\r'
  | 'e' => some '\x1b'
  | ' ' => some ' '
  | '"' => some '"'
  | '/' => some '/'
  | '\\' => some '\\'
  | 'N' => some '\x85'
  | '_' => some '\xa0'
  | 'L' => some '\u2028'
  | 'P' => some '\u2029'
  | _ => none

/-- How many digits give a character's number after a letter. -/
def escapeDigits? (c : Char) : Option Nat :=
  match c with
  | 'x' => some 2
  | 'u' => some 4
  | 'U' => some 8
  | _ => none

def hexDigit? (c : Char) : Option Nat :=
  if '0'.toNat ≤ c.toNat ∧ c.toNat ≤ '9'.toNat then some (c.toNat - '0'.toNat)
  else if 'a'.toNat ≤ c.toNat ∧ c.toNat ≤ 'f'.toNat then some (c.toNat - 'a'.toNat + 10)
  else if 'A'.toNat ≤ c.toNat ∧ c.toNat ≤ 'F'.toNat then some (c.toNat - 'A'.toNat + 10)
  else none

/-- The character of a number, if it is one. -/
def charOf? (n : Nat) : Option Char := if n.isValidChar then some (Char.ofNat n) else none

/-- The text of a double-quoted scalar on one line. After an escape `digits` more digits belong to
`number`. -/
def doubleText (spacing : List Char) (digits number : Nat) :
    List Char → Option (List Char × QuoteEnd)
  | [] => if digits = 0 then some ([], .broken) else none
  | c :: s =>
    match digits with
    | 0 =>
      if isSpacing c then doubleText (spacing ++ [c]) 0 0 s
      else if c = '"' then some (spacing, .closed s)
      else if c = '\\' then
        match s with
        | [] => some (spacing, .escaped)
        | e :: s =>
          match escapeDigits? e with
          | some digits => (doubleText [] digits 0 s).map fun t => (spacing ++ t.1, t.2)
          | none => do
            let d ← escape? e
            let t ← doubleText [] 0 0 s
            some (spacing ++ d :: t.1, t.2)
      else (doubleText [] 0 0 s).map fun t => (spacing ++ c :: t.1, t.2)
    | digits + 1 => do
      let number := 16 * number + (← hexDigit? c)
      if digits = 0 then
        let d ← charOf? number
        (doubleText [] 0 0 s).map fun t => (d :: t.1, t.2)
      else doubleText [] digits number s

/-- The text of a single-quoted scalar on one line; a quote is written twice. -/
def singleText (spacing : List Char) : List Char → List Char × QuoteEnd
  | [] => ([], .broken)
  | '\x27' :: '\x27' :: s =>
    let t := singleText [] s
    (spacing ++ '\x27' :: t.1, t.2)
  | c :: s =>
    if isSpacing c then singleText (spacing ++ [c]) s
    else if c = '\x27' then (spacing, .closed s)
    else
      let t := singleText [] s
      (spacing ++ c :: t.1, t.2)

def Quote.text (q : Quote) (s : List Char) : Option (List Char × QuoteEnd) :=
  match q with
  | single => some (singleText [] s)
  | double => doubleText [] 0 0 s

/-- The part of a quoted scalar on later lines. -/
def quotedBelow (q : Quote) (escaped : Bool) (breaks : List Char) :
    List Line → Option (List Char × Cursor)
  | [] => none
  | line :: more => do
    let front := line.text.takeWhile isSpacing
    let c := (Cursor.ofLine line more).skipTo (line.text.drop front.length)
    if c.here = [] then quotedBelow q escaped (breaks ++ line.ending.toList) more
    else if c.atMarker then none
    else
      let (text, last) ← q.text c.here
      let text := (if escaped then breaks else folded breaks) ++ text
      match last with
      | .closed rest => some (text, c.skipTo rest)
      | .broken =>
        let (text', c) ← quotedBelow q false line.ending.toList more
        some (text ++ text', c)
      | .escaped =>
        let (text', c) ← quotedBelow q true [] more
        some (text ++ text', c)

/-- Reads a quoted scalar after its opening quote. -/
def Cursor.quoted (c : Cursor) (q : Quote) : Option (List Char × Cursor) := do
  let (text, last) ← q.text c.here
  match last with
  | .closed rest => some (text, c.skipTo rest)
  | .broken =>
    let (text', c) ← quotedBelow q false c.ending.toList c.below
    some (text ++ text', c)
  | .escaped =>
    let (text', c) ← quotedBelow q true [] c.below
    some (text ++ text', c)

/-! ### Block scalars -/

/-- What becomes of the breaks at the end of a block scalar. -/
inductive Chomping where
  | strip
  | clip
  | keep

def chomping? (c : Char) : Option Chomping :=
  if c = '-' then some .strip else if c = '+' then some .keep else none

/-- A digit for the indentation; zero is none. -/
def depth? (c : Char) : Option Nat :=
  if '1'.toNat ≤ c.toNat ∧ c.toNat ≤ '9'.toNat then hexDigit? c else none

/-- The chomping and the indentation in a block scalar's first line, in any order. -/
def blockHeader (s : List Char) : Chomping × Option Nat × List Char :=
  match s with
  | [] => (.clip, none, [])
  | a :: s =>
    match chomping? a, depth? a with
    | some ch, _ =>
      match s with
      | [] => (ch, none, [])
      | b :: t =>
        match depth? b with
        | some n => (ch, some n, t)
        | none => (ch, none, s)
    | none, some n =>
      match s with
      | [] => (.clip, some n, [])
      | b :: t =>
        match chomping? b with
        | some ch => (ch, some n, t)
        | none => (.clip, some n, s)
    | none, none => (.clip, none, a :: s)

def spaces (s : List Char) : Nat := (s.takeWhile (· = ' ')).length

/-- The deepest indentation up to the first line that is not made of spaces. A tab may not follow
it. -/
def deepest : List Line → Option Nat
  | [] => some 0
  | line :: more =>
    let n := spaces line.text
    match line.text.drop n with
    | [] => (deepest more).map (Nat.max n ·)
    | '\t' :: _ => none
    | _ => some n

structure BlockText where
  text : List Char
  lastBreak : List Char
  breaks : List Char
  after : Cursor

/-- The lines of a block scalar with an indentation. `lastBreak` ended the line before, and `breaks`
the blank lines after it. -/
def blockLines (folds : Bool) (indentation : Nat) (lastBreak : List Char) (spaced : Bool)
    (breaks : List Char) : List Line → Option BlockText
  | [] => some ⟨[], lastBreak, breaks, .finish⟩
  | line :: more =>
    let column := Nat.min (spaces line.text) indentation
    let rest := line.text.drop column
    if column < indentation ∧ rest.head? = some '\t' then none
    else if rest = [] then
      blockLines folds indentation lastBreak spaced (breaks ++ line.ending.toList) more
    else if column = indentation then
      let spacedNow := rest.head?.any isSpacing
      let joint :=
        if folds ∧ lastBreak = ['\n'] ∧ !spaced ∧ !spacedNow then
          if breaks = [] then [' '] else breaks
        else lastBreak ++ breaks
      (blockLines folds indentation line.ending.toList spacedNow [] more).map fun b =>
        { b with text := joint ++ rest ++ b.text }
    else some ⟨[], lastBreak, breaks, (Cursor.ofLine line more).skipTo rest⟩

/-- Reads a block scalar after its mark, at least so far indented. -/
def Cursor.block (c : Cursor) (folds : Bool) (least : Nat) : Option (List Char × Cursor) := do
  let (chomping, depth, rest) := blockHeader c.here
  match rest.dropWhile isSpacing with
  | [] => pure ()
  | '#' :: _ => pure ()
  | _ => none
  let indentation ←
    match depth with
    | some n => some (least - 1 + n)
    | none => (deepest c.below).map fun n => Nat.max (Nat.max n least) 1
  let b ← blockLines folds indentation [] false [] c.below
  let tail :=
    match chomping with
    | .strip => []
    | .clip => b.lastBreak
    | .keep => b.lastBreak ++ b.breaks
  some (b.text ++ tail, b.after)

end TypeCorpus.Yaml
