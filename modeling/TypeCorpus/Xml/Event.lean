import TypeCorpus.Text.Occurrence
import TypeCorpus.Xml.Tag

/-! The events of a document: opening, closing and empty tags in the order of the text, and a blank
event for every comment, section of character data, document type or instruction. Text between the
markup is passed over. A closing tag has to repeat the name that the innermost open tag has, prefix
and all. Reading stops at the first fault; `Stream` holds the events up to there and the fault. -/

namespace TypeCorpus.Xml

open Text (byteCount)

inductive Event where
  | opening (tag : Tag)
  | closing (name : String)
  | empty (tag : Tag)
  | other
  deriving DecidableEq

/-- Splits a text at the first character that ends what is read, which is left out; `ends` and
`next` see what was read so far through a state. -/
def splitWhen {σ : Type} (ends : σ → Char → Bool) (next : σ → Char → σ) :
    σ → List Char → Option (List Char × List Char)
  | _, [] => none
  | q, c :: s =>
    if ends q c then some ([], s)
    else (splitWhen ends next (next q c) s).map fun r => (c :: r.1, r.2)

theorem length_of_splitWhen {σ : Type} {ends : σ → Char → Bool} {next : σ → Char → σ} {q : σ}
    {s t r : List Char} (h : splitWhen ends next q s = some (t, r)) : r.length < s.length := by
  induction s generalizing q t with
  | nil => simp [splitWhen] at h
  | cons c s ih =>
    simp only [splitWhen] at h
    split at h
    · cases h; simp
    · obtain ⟨⟨t', r'⟩, hr, he⟩ := Option.map_eq_some_iff.1 h
      cases he
      exact Nat.lt_succ_of_lt (ih hr)

namespace Construct

/-- What begins after an opening angle bracket. -/
def begins : List Char → Option Construct
  | '!' :: '-' :: _ => some comment
  | '!' :: '[' :: _ => some characterData
  | '!' :: 'D' :: _ => some documentType
  | '!' :: 'd' :: _ => some documentType
  | '!' :: _ => none
  | '?' :: _ => some instruction
  | _ => some tag

/-- Splits a text at a closing bracket before which `w` stands, with at least `n` characters. -/
def splitAfter (n : Nat) (w : List Char) (s : List Char) : Option (List Char × List Char) :=
  splitWhen (fun read c => c = '>' && n ≤ read.length && (Text.after? w read).isSome)
    (fun read c => c :: read) [] s

/-- In a document type angle brackets nest. -/
def splitNested (s : List Char) : Option (List Char × List Char) :=
  splitWhen (fun depth c => c = '>' && depth = 0)
    (fun depth c => if c = '<' then depth + 1 else if c = '>' then depth - 1 else depth) 0 s

/-- In a tag a bracket between quotes is text. -/
def splitQuoted (s : List Char) : Option (List Char × List Char) :=
  splitWhen (fun quote c => c = '>' && quote = none)
    (fun quote c =>
      match quote with
      | none => if c = '"' ∨ c = '\'' then some c else none
      | some q => if c = q then none else some q) (none : Option Char) s

/-- Splits what follows an opening angle bracket into the construct, without its last bracket, and
the rest. -/
def split? : Construct → List Char → Option (List Char × List Char)
  | comment, s => splitAfter 5 ['-', '-'] s
  | characterData, s => splitAfter 0 [']', ']'] s
  | documentType, s => splitNested s
  | instruction, s => splitAfter 0 ['?'] s
  | tag, s => splitQuoted s

theorem length_of_split? {k : Construct} {s t r : List Char} (h : k.split? s = some (t, r)) :
    r.length < s.length := by
  cases k <;> exact length_of_splitWhen h

end Construct

/-- The names of the open tags, innermost first, as they were written. -/
abbrev OpenNames := List (List Char)

/-- The name in a closing tag: blanks at its end are left out, unless there is nothing else. -/
def closingName (s : List Char) : List Char :=
  if s.all isBlank then s else (s.reverse.dropWhile isBlank).reverse

theorem closingName_of_not_blank {s : List Char} (h : ∀ c ∈ s, isBlank c = false) :
    closingName s = s := by
  unfold closingName
  split
  · rfl
  · cases hr : s.reverse with
    | nil => simp_all
    | cons c r =>
      have hc : isBlank c = false := h c (by rw [← List.mem_reverse, hr]; exact List.mem_cons_self)
      rw [List.dropWhile_cons_of_neg (by simp [hc]), ← hr, List.reverse_reverse]

/-- The event of a tag that ends at `place`, and the tags that are open after it. -/
def tagEvent (opened : OpenNames) (place : Nat) (content : List Char) :
    Except Error (Event × OpenNames) :=
  match content with
  | '/' :: name =>
    let name := closingName name
    match opened with
    | [] => .error (.inMarkup (.unopened (String.ofList name)) place)
    | top :: opened =>
      if top = name then .ok (.closing (localPart name), opened)
      else .error (.inMarkup (.mismatched (String.ofList top) (String.ofList name)) place)
  | content =>
    if content.getLast? = some '/' then
      (Tag.ofContent content.dropLast).map fun tag => (.empty tag, opened)
    else (Tag.ofContent content).map fun tag => (.opening tag, tagName content :: opened)

/-- The event of a construct that ends at `place`. -/
def Construct.event (k : Construct) (opened : OpenNames) (place : Nat) (content : List Char) :
    Except Error (Event × OpenNames) :=
  match k with
  | comment =>
    if (Text.after? "!--".toList content).isSome then .ok (.other, opened)
    else .error (.inMarkup (.unclosed comment) place)
  | characterData =>
    if (Text.after? "![CDATA[".toList content).isSome then .ok (.other, opened)
    else .error (.inMarkup (.unclosed characterData) place)
  | documentType =>
    if (content.take 8).map Char.toUpper ≠ "!DOCTYPE".toList then
      .error (.inMarkup (.unclosed documentType) place)
    else if (content.drop 8).all isBlank then .error (.inMarkup .namelessDocumentType place)
    else .ok (.other, opened)
  | instruction =>
    if content = ['?'] then .error (.inMarkup (.unclosed instruction) place)
    else .ok (.other, opened)
  | tag => tagEvent opened place content

/-- The events read from a text, and the fault at which reading stopped, if it did. -/
structure Stream where
  events : List Event
  fault : Option Error

/-- Reads on from a place in the text. -/
def streamFrom (opened : OpenNames) (place : Nat) (s : List Char) : Stream :=
  match _h₁ : s.dropWhile (· ≠ '<') with
  | [] => ⟨[], none⟩
  | _ :: body =>
    let place := place + byteCount (s.takeWhile (· ≠ '<')) + 1
    match Construct.begins body with
    | none => ⟨[], some (.inMarkup .unknownMarkup place)⟩
    | some k =>
      match _h₂ : k.split? body with
      | none => ⟨[], some (.inMarkup (.unclosed k) (place + byteCount body))⟩
      | some (content, rest) =>
        let place := place + byteCount content + 1
        match k.event opened place content with
        | .error e => ⟨[], some e⟩
        | .ok (event, opened) =>
          let stream := streamFrom opened place rest
          ⟨event :: stream.events, stream.fault⟩
termination_by s.length
decreasing_by
  have h₁ := (List.dropWhile_suffix (l := s) (· ≠ '<')).length_le
  rw [_h₁] at h₁
  have h₂ := Construct.length_of_split? _h₂
  simp only [List.length_cons] at h₁
  omega

/-- The events of a text. -/
def Stream.ofText (text : String) : Stream := streamFrom [] 0 (Text.withoutMark text.toList)

end TypeCorpus.Xml
