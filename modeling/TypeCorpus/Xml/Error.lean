import TypeCorpus.Text.Bytes

/-! Why a text is no document: its markup is not well formed, an attribute or a reference in it
cannot be read, or its elements do not make one tree. Markup errors come with the place, in bytes,
up to which the text had been read. -/

namespace TypeCorpus.Xml

/-- The constructs that begin with an opening angle bracket. -/
inductive Construct where
  | comment
  | characterData
  | documentType
  | instruction
  | tag
  deriving DecidableEq

inductive MarkupError where
  | unclosed (what : Construct)
  | unknownMarkup
  | namelessDocumentType
  | mismatched (expected found : String)
  | unopened (name : String)
  deriving DecidableEq

/-- Places are counted from the beginning of the tag's content. -/
inductive AttributeError where
  | noEquals (place : Nat)
  | noValue (place : Nat)
  | unquoted (place : Nat)
  | unclosedQuote (place : Nat) (quote : Char)
  | duplicate (place previous : Nat)
  deriving DecidableEq

/-- Places are counted from the beginning of the attribute's value. -/
inductive ReferenceError where
  | unterminated (first last : Nat)
  | unknownEntity (first last : Nat) (name : String)
  | signed
  | noDigits
  | notADigit
  | tooLarge
  | null
  | notACharacter (code : Nat)
  deriving DecidableEq

inductive Error where
  | inMarkup (e : MarkupError) (place : Nat)
  | inAttribute (e : AttributeError)
  | inReference (e : ReferenceError)
  | strayClose
  | secondRoot (tag : String)
  | unclosedElement (tag : String)
  | noRoot
  deriving DecidableEq

namespace Construct

def title : Construct → String
  | comment => "comment"
  | characterData => "CDATA"
  | documentType => "DOCTYPE"
  | instruction => "processing instruction or xml declaration"
  | tag => "tag"

/-- The text that closes a construct. -/
def closing : Construct → String
  | comment => "-->"
  | characterData => "]]>"
  | documentType => ">"
  | instruction => "?>"
  | tag => ">"

end Construct

/-- A text between grave accents. -/
def accented (s : String) : String := "\x60" ++ s ++ "\x60"

def MarkupError.message : MarkupError → String
  | unclosed what =>
    "syntax error: " ++ what.title ++ " not closed: " ++ accented what.closing ++
      " not found before end of input"
  | unknownMarkup => "syntax error: unknown or missed symbol in markup"
  | namelessDocumentType =>
    "ill-formed document: " ++ accented "<!DOCTYPE>" ++
      " declaration does not contain a name of a document type"
  | mismatched expected found =>
    "ill-formed document: expected " ++ accented ("</" ++ expected ++ ">") ++ ", but " ++
      accented ("</" ++ found ++ ">") ++ " was found"
  | unopened name =>
    "ill-formed document: close tag " ++ accented ("</" ++ name ++ ">") ++
      " does not match any open tag"

def AttributeError.message : AttributeError → String
  | noEquals place =>
    atPlace place ++ "attribute key must be directly followed by " ++ accented "=" ++ " or space"
  | noValue place => atPlace place ++ accented "=" ++ " must be followed by an attribute value"
  | unquoted place =>
    atPlace place ++ "attribute value must be enclosed in " ++ accented "\"" ++ " or " ++
      accented "'"
  | unclosedQuote place quote =>
    atPlace place ++ "missing closing quote " ++ accented quote.toString ++ " in attribute value"
  | duplicate place previous =>
    atPlace place ++ "duplicated attribute, previous declaration at position " ++ toString previous
where
  atPlace (place : Nat) : String := "position " ++ toString place ++ ": "

def ReferenceError.message : ReferenceError → String
  | unterminated first last =>
    "Error while escaping character at range " ++ Text.range first last ++
      ": Cannot find ';' after '&'"
  | unknownEntity first last name =>
    "at " ++ Text.range first last ++ ": unrecognized entity " ++ accented name
  | signed => number ++ "unexpected number sign"
  | noDigits => number ++ "cannot parse integer from empty string"
  | notADigit => number ++ "invalid digit found in string"
  | tooLarge => number ++ "number too large to fit in target type"
  | null => number ++ "0x0 character is not permitted in XML"
  | notACharacter code => number ++ accented (toString code) ++ " is not a valid codepoint"
where
  number : String := "invalid character reference: "

def Error.message : Error → String
  | inMarkup e place => e.message ++ " (at byte " ++ toString place ++ ")"
  | inAttribute e => "error while parsing attribute: " ++ e.message
  | inReference e => e.message
  | strayClose => "closing tag without opening tag"
  | secondRoot tag => "multiple root elements (second is <" ++ tag ++ ">)"
  | unclosedElement tag => "unclosed element <" ++ tag ++ ">"
  | noRoot => "document has no root element"

end TypeCorpus.Xml
