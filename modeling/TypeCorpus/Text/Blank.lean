/-! Blank characters: the Unicode property White_Space. It holds tab, line feed, vertical tab, form
feed, carriage return, the space, the next-line control, the no-break space and the spaces and
separators outside Latin-1. -/

namespace TypeCorpus.Text

/-- The runs of blank code points, first and last of each. -/
def blankRuns : List (Nat × Nat) := [
  (0x09, 0x0D), (0x20, 0x20), (0x85, 0x85), (0xA0, 0xA0), (0x1680, 0x1680), (0x2000, 0x200A),
  (0x2028, 0x2029), (0x202F, 0x202F), (0x205F, 0x205F), (0x3000, 0x3000)]

def isBlank (c : Char) : Bool := blankRuns.any fun run => run.1 ≤ c.toNat && c.toNat ≤ run.2

/-- The part of a text after its leading blanks. -/
def skipBlanks (s : List Char) : List Char := s.dropWhile isBlank

theorem length_skipBlanks_le (s : List Char) : (skipBlanks s).length ≤ s.length :=
  (List.dropWhile_suffix _).length_le

end TypeCorpus.Text
