/-! Places in a text are counted in the bytes of its UTF-8 encoding. -/

namespace TypeCorpus.Text

/-- The number of bytes that encode a text. -/
def byteCount : List Char → Nat
  | [] => 0
  | c :: s => c.utf8Size + byteCount s

@[simp] theorem byteCount_nil : byteCount [] = 0 := rfl

@[simp] theorem byteCount_cons (c : Char) (s : List Char) :
    byteCount (c :: s) = c.utf8Size + byteCount s := rfl

@[simp] theorem byteCount_append (s t : List Char) :
    byteCount (s ++ t) = byteCount s + byteCount t := by
  induction s with
  | nil => simp
  | cons c s ih => simp [ih, Nat.add_assoc]

/-- A byte order mark at the front of a text is not part of it. -/
def withoutMark : List Char → List Char
  | c :: s => if c.toNat = 0xFEFF then s else c :: s
  | [] => []

/-- Two decimal places joined as a range. -/
def range (first last : Nat) : String := toString first ++ ".." ++ toString last

end TypeCorpus.Text
