import TypeCorpus.Text.Blank
import TypeCorpus.Text.Word
import TypeCorpus.Wire.Basic

/-! Finding wire structures in the text of a header. A definition begins with a fixed text, and its
base is the longest run of word characters after that. It is documented when, some way before it, a
documentation comment begins, names a canonical type, and ends right before the definition but for
blanks; between these parts anything may stand, and the earliest place is taken for each in turn.
Definitions do not overlap. A header with no documented definition has its plain ones guessed. -/

namespace TypeCorpus.WireStruct

open Text

/-- The text that a definition begins with. -/
def definitionStart : List Char := "typedef struct Wire_".toList

/-- Reads a definition at the front of a text: its base and what follows. -/
def definition? (s : List Char) : Option (List Char × List Char) :=
  match after? definitionStart s with
  | none => none
  | some r =>
    if r.takeWhile isWord = [] then none else some (r.takeWhile isWord, r.dropWhile isWord)

/-- The first place in a text where `read?` finds something. -/
def firstPlace? {α : Type} (read? : List Char → Option α) : List Char → Option α
  | [] => read? []
  | c :: s =>
    match read? (c :: s) with
    | some a => some a
    | none => firstPlace? read? s

/-- A character of a canonical name. -/
def inCanonical (c : Char) : Bool := isWord c || c = ':'

/-- Reads the canonical name that a comment gives, at the front of a text. -/
def canonical? (s : List Char) : Option (List Char × List Char) :=
  match after? "Wire struct for ".toList s with
  | none => none
  | some r =>
    if r.takeWhile inCanonical = [] then none
    else some (r.takeWhile inCanonical, r.dropWhile inCanonical)

/-- Reads the end of a comment and the definition after it, at the front of a text. -/
def commented? (s : List Char) : Option (List Char × List Char) :=
  match after? "*/".toList s with
  | none => none
  | some r => definition? (skipBlanks r)

/-- The first documented definition in a text: its canonical name, its base and what follows. -/
def firstDocumented? (s : List Char) : Option (List Char × List Char × List Char) :=
  match firstAfter? "/**".toList s with
  | none => none
  | some s =>
    match firstPlace? canonical? s with
    | none => none
    | some (canonical, s) => (firstPlace? commented? s).map (canonical, ·)

theorem length_of_definition? {s w r : List Char} (h : definition? s = some (w, r)) :
    r.length < s.length := by
  simp only [definition?] at h
  split at h
  · cases h
  · rename_i r' hr
    split at h
    · cases h
    · cases h
      have h₁ := congrArg List.length (eq_append_of_after? hr)
      have h₂ := (List.dropWhile_suffix (l := r') isWord).length_le
      have h₃ : definitionStart.length = 20 := by decide
      simp only [List.length_append] at h₁
      omega

theorem length_of_firstPlace? {α : Type} {read? : List Char → Option α} (size : α → Nat)
    (hr : ∀ s a, read? s = some a → size a ≤ s.length) {s : List Char} {a : α}
    (h : firstPlace? read? s = some a) : size a ≤ s.length := by
  induction s with
  | nil => exact hr _ _ h
  | cons c s ih =>
    simp only [firstPlace?] at h
    split at h
    · cases h; exact hr _ _ ‹_›
    · exact Nat.le_succ_of_le (ih h)

theorem length_of_firstPlace?_lt {α : Type} {read? : List Char → Option α} (size : α → Nat)
    (hr : ∀ s a, read? s = some a → size a < s.length) {s : List Char} {a : α}
    (h : firstPlace? read? s = some a) : size a < s.length := by
  induction s with
  | nil => exact hr _ _ h
  | cons c s ih =>
    simp only [firstPlace?] at h
    split at h
    · cases h; exact hr _ _ ‹_›
    · exact Nat.lt_succ_of_lt (ih h)

theorem length_of_canonical? {s w r : List Char} (h : canonical? s = some (w, r)) :
    r.length ≤ s.length := by
  simp only [canonical?] at h
  split at h
  · cases h
  · rename_i r' hr
    split at h
    · cases h
    · cases h
      have h₁ := congrArg List.length (eq_append_of_after? hr)
      have h₂ := (List.dropWhile_suffix (l := r') inCanonical).length_le
      simp only [List.length_append] at h₁
      omega

theorem length_of_commented? {s w r : List Char} (h : commented? s = some (w, r)) :
    r.length ≤ s.length := by
  simp only [commented?] at h
  split at h
  · cases h
  · rename_i r' hr
    have h₁ := congrArg List.length (eq_append_of_after? hr)
    have h₂ := length_of_definition? h
    have h₃ := length_skipBlanks_le r'
    simp only [List.length_append] at h₁
    omega

theorem length_of_firstDocumented? {s c b r : List Char}
    (h : firstDocumented? s = some (c, b, r)) : r.length < s.length := by
  simp only [firstDocumented?] at h
  split at h
  · cases h
  · rename_i s₁ h₁
    split at h
    · cases h
    · rename_i c' s₂ h₂
      obtain ⟨⟨b', r'⟩, h₃, he⟩ := Option.map_eq_some_iff.1 h
      cases he
      have l₁ := length_of_firstAfter? h₁
      have l₂ := length_of_firstPlace? (fun a => a.2.length)
        (fun s a ha => length_of_canonical? (w := a.1) (r := a.2) ha) h₂
      have l₃ := length_of_firstPlace? (fun a => a.2.length)
        (fun s a ha => length_of_commented? (w := a.1) (r := a.2) ha) h₃
      have : "/**".toList.length = 3 := by decide
      simp only at l₂ l₃
      omega

/-- The documented definitions of a text in order, each a canonical name and a base. -/
def documentedIn (s : List Char) : List (List Char × List Char) :=
  match _h : firstDocumented? s with
  | none => []
  | some (canonical, base, r) => (canonical, base) :: documentedIn r
termination_by s.length
decreasing_by exact length_of_firstDocumented? _h

/-- The bases of all definitions of a text in order. -/
def basesIn (s : List Char) : List (List Char) :=
  match _h : firstPlace? definition? s with
  | none => []
  | some (base, r) => base :: basesIn r
termination_by s.length
decreasing_by
  exact length_of_firstPlace?_lt (fun a => a.2.length)
    (fun s a ha => length_of_definition? (w := a.1) (r := a.2) ha) _h

/-- The wire structures of a header's text. -/
def scan (header content : String) : List WireStruct :=
  match documentedIn content.toList with
  | [] => (basesIn content.toList).map fun base => guessed (String.ofList base) header
  | found => found.map fun d => documented (String.ofList d.2) header (String.ofList d.1)

end TypeCorpus.WireStruct
