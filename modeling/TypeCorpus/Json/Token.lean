import TypeCorpus.Json.Value
import TypeCorpus.Number.Decimal
import TypeCorpus.Text.Occurrence

/-! The tokens of a JSON text, written and read. In a string the quote, the backslash and the
control characters are escaped, and every other character stands for itself. -/

namespace TypeCorpus.Json

inductive Token where
  | openBrace | closeBrace | openBracket | closeBracket | comma | colon
  | null
  | bool (b : Bool)
  | number (n : Numeral)
  | string (s : String)
  deriving DecidableEq

/-- Real numbers are positional from a hundred-thousandth up to sixteen digits; other exponents have
a sign, and a half goes to the even digit. -/
def realStyle : Number.Style := ⟨-4, 16, true, .toEven⟩

def Numeral.text : Numeral → List Char
  | integer i => Number.integerDigits i
  | real x => x.text realStyle

/-- The digit of a number below sixteen, in lower case. -/
def hexDigit (n : Nat) : Char := Char.ofNat (if n < 10 then 48 + n else 87 + n)

/-- A character as it is written between quotes. -/
def escapeChar (c : Char) : List Char :=
  if c = '"' then ['\\', '"']
  else if c = '\\' then ['\\', '\\']
  else if c.toNat < 32 then
    if c.toNat = 8 then ['\\', 'b']
    else if c.toNat = 9 then ['\\', 't']
    else if c.toNat = 10 then ['\\', 'n']
    else if c.toNat = 12 then ['\\', 'f']
    else if c.toNat = 13 then ['\\', 'r']
    else ['\\', 'u', '0', '0', hexDigit (c.toNat / 16), hexDigit (c.toNat % 16)]
  else [c]

def quote (s : List Char) : List Char := '"' :: s.flatMap escapeChar ++ ['"']

namespace Token

def text : Token → List Char
  | openBrace => ['\x7b']
  | closeBrace => ['\x7d']
  | openBracket => ['[']
  | closeBracket => [']']
  | comma => [',']
  | colon => [':']
  | null => "null".toList
  | bool b => if b then "true".toList else "false".toList
  | number n => n.text
  | string s => quote s.toList

end Token

def hexValue? (c : Char) : Option Nat :=
  if c.isDigit then some (c.toNat - 48)
  else if 97 ≤ c.toNat ∧ c.toNat ≤ 102 then some (c.toNat - 87)
  else if 65 ≤ c.toNat ∧ c.toNat ≤ 70 then some (c.toNat - 55)
  else none

/-- The number of four hexadecimal digits. -/
def hexUnit? (a b c d : Char) : Option Nat :=
  match hexValue? a, hexValue? b, hexValue? c, hexValue? d with
  | some a, some b, some c, some d => some (((16 * a + b) * 16 + c) * 16 + d)
  | _, _, _, _ => none

/-- The character of a short escape. -/
def unescapeChar? (c : Char) : Option Char :=
  match c with
  | '"' => some '"'
  | '\\' => some '\\'
  | '/' => some '/'
  | 'b' => some '\x08'
  | 'f' => some '\x0c'
  | 'n' => some '\n'
  | 'r' => some '\r'
  | 't' => some '\t'
  | _ => none

/-- Reads a string after its opening quote: its characters and what follows the closing quote. -/
def unquote : List Char → Option (List Char × List Char)
  | [] => none
  | '"' :: s => some ([], s)
  | '\\' :: 'u' :: a :: b :: c :: d :: s =>
    match hexUnit? a b c d with
    | none => none
    | some n =>
      if n < 0xD800 ∨ 0xE000 ≤ n then (unquote s).map fun r => (Char.ofNat n :: r.1, r.2)
      else if 0xDC00 ≤ n then none
      else
        match s with
        | '\\' :: 'u' :: e :: f :: g :: h :: s =>
          match hexUnit? e f g h with
          | none => none
          | some m =>
            if 0xDC00 ≤ m ∧ m < 0xE000 then
              (unquote s).map fun r =>
                (Char.ofNat (0x10000 + (n - 0xD800) * 0x400 + (m - 0xDC00)) :: r.1, r.2)
            else none
        | _ => none
  | '\\' :: c :: s =>
    match unescapeChar? c with
    | some c => (unquote s).map fun r => (c :: r.1, r.2)
    | none => none
  | c :: s => if c.toNat < 32 then none else (unquote s).map fun r => (c :: r.1, r.2)

/-- Reads an exponent part, if there is one. -/
def exponentPart (s : List Char) : Option (Option Int × List Char) :=
  match s with
  | e :: s =>
    if e = 'e' ∨ e = 'E' then
      let negative := s.head? = some '-'
      let s := if negative ∨ s.head? = some '+' then s.drop 1 else s
      let ds := s.takeWhile Char.isDigit
      if ds = [] then none
      else
        let n : Int := Number.ofDigits ds
        some (some (if negative then -n else n), s.dropWhile Char.isDigit)
    else some (none, e :: s)
  | [] => some (none, [])

/-- Reads a fraction part, if there is one. -/
def fractionPart (s : List Char) : Option (Option (List Char) × List Char) :=
  match s with
  | '.' :: s =>
    let ds := s.takeWhile Char.isDigit
    if ds = [] then none else some (some ds, s.dropWhile Char.isDigit)
  | s => some (none, s)

/-- The number that its parts stand for. A decimal far out of range is not raised to its power. -/
def numberOfParts (negative : Bool) (whole : List Char) (fraction : Option (List Char))
    (exponent : Option Int) : Option Numeral :=
  match fraction, exponent with
  | none, none =>
    if negative ∧ Number.ofDigits whole = 0 then some (.real (.zero true))
    else
      let n := Number.ofDigits whole
      some (.integer (if negative then -(n : Int) else n))
  | _, _ =>
    let ds := whole ++ fraction.getD []
    let c := Number.ofDigits ds
    let e := exponent.getD 0 - (fraction.getD []).length
    if c = 0 ∨ e + ds.length < -400 then some (.real (.zero negative))
    else if 400 + ds.length < e then none
    else (Number.Finite.ofDecimal? negative ⟨c, e⟩).map .real

/-- Reads a number: a sign, digits without leading zeros, a fraction and an exponent. -/
def readNumber (s : List Char) : Option (Numeral × List Char) :=
  let negative := s.head? = some '-'
  let s := if negative then s.drop 1 else s
  let whole := s.takeWhile Char.isDigit
  if whole = [] ∨ (whole.head? = some '0' ∧ 1 < whole.length) then none
  else
    match fractionPart (s.dropWhile Char.isDigit) with
    | none => none
    | some (fraction, s) =>
      match exponentPart s with
      | none => none
      | some (exponent, s) => (numberOfParts negative whole fraction exponent).map (·, s)

/-- Reads one token at the front of a text. -/
def readToken (c : Char) (s : List Char) : Option (Token × List Char) :=
  match c with
  | '\x7b' => some (.openBrace, s)
  | '\x7d' => some (.closeBrace, s)
  | '[' => some (.openBracket, s)
  | ']' => some (.closeBracket, s)
  | ',' => some (.comma, s)
  | ':' => some (.colon, s)
  | '"' => (unquote s).map fun r => (.string (String.ofList r.1), r.2)
  | 'n' => (Text.after? "ull".toList s).map (Token.null, ·)
  | 't' => (Text.after? "rue".toList s).map (Token.bool true, ·)
  | 'f' => (Text.after? "alse".toList s).map (Token.bool false, ·)
  | c => (readNumber (c :: s)).map fun r => (.number r.1, r.2)

/-- The blanks of JSON. -/
def isBlank (c : Char) : Bool := c = ' ' || c = '\n' || c = '\r' || c = '\t'

/-- The tokens of a text; `none` if some part of it is no token. -/
def tokens? (s : List Char) : Option (List Token) :=
  match s with
  | [] => some []
  | c :: s =>
    if isBlank c then tokens? s
    else
      match readToken c s with
      | none => none
      | some (t, r) => if r.length ≤ s.length then (tokens? r).map (t :: ·) else none
termination_by s.length
decreasing_by
  · simp_wf
  · simp_wf; omega

end TypeCorpus.Json
