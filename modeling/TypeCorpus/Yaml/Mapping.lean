import TypeCorpus.Table
import TypeCorpus.Yaml.Token

/-! YAML texts that hold one mapping of scalars to scalars, in block or in bracket style; a text
whose only node is left out holds the empty mapping, and every other text is refused. A node may
have a tag and an anchor, by which a later alias repeats it. -/

namespace TypeCorpus.Yaml

/-- A scalar with its tag in full. -/
structure Scalar where
  text : List Char
  style : Style
  tag : Option (List Char)
  deriving DecidableEq

/-- A scalar that was left out. -/
def Scalar.missing (tag : Option (List Char)) : Scalar := ⟨[], .plain, tag⟩

inductive Node where
  | scalar (anchor : Option (List Char)) (s : Scalar)
  | aliasOf (name : List Char)

/-- A piece of a document: a node, the beginning of a mapping with the anchor on it, or a token of
its own. -/
inductive Part where
  | node (n : Node)
  | blockStart (anchor : Option (List Char))
  | openBrace (anchor : Option (List Char))
  | mark (t : Token)

namespace Part

/-- The part that a token makes with the properties before it, unless it makes none with them. -/
def ofToken? (anchor : Option (List Char)) (tag : Option (List Char)) : Token → Option Part
  | .scalar style text => some (node (.scalar anchor ⟨text, style, tag⟩))
  | .blockStart => some (blockStart anchor)
  | .openBrace => some (openBrace anchor)
  | _ => none

/-- The node that properties make without content, if there are any. -/
def ofProperties (anchor : Option (List Char)) (tag : Option (List Char)) : List Part :=
  if anchor.isNone && tag.isNone then [] else [node (.scalar anchor (.missing tag))]

/-- The parts that tokens make, given the declared handles and the properties read so far, each at
most once. -/
def ofTokens? (declared : List (List Char × List Char)) (anchor tag : Option (List Char)) :
    List Token → Option (List Part)
  | [] => some (ofProperties anchor tag)
  | .anchor a :: rest =>
    if anchor.isNone then ofTokens? declared (some a) tag rest
    else (ofTokens? declared (some a) none rest).map (ofProperties anchor tag ++ ·)
  | .tag t :: rest => do
    let t ← t.full? declared
    if tag.isNone then ofTokens? declared anchor (some t) rest
    else (ofTokens? declared none (some t) rest).map (ofProperties anchor tag ++ ·)
  | .aliasOf name :: rest =>
    (ofTokens? declared none none rest).map
      (ofProperties anchor tag ++ node (.aliasOf name) :: ·)
  | t :: rest =>
    let parts :=
      match ofToken? anchor tag t with
      | some p => [p]
      | none => ofProperties anchor tag ++ [mark t]
    (ofTokens? declared none none rest).map (parts ++ ·)

/-- A scalar that was left out altogether. -/
def absent : Node := .scalar none (.missing none)

/-- Takes one entry off the front of some parts. Its value may be left out, and inside brackets the
mark of its key. -/
def splitEntry (inBrackets : Bool) : List Part → Option ((Node × Node) × List Part)
  | mark .key :: node k :: mark .value :: node v :: rest => some ((k, v), rest)
  | mark .key :: node k :: mark .value :: rest => some ((k, absent), rest)
  | mark .key :: node k :: rest => some ((k, absent), rest)
  | node k :: rest => if inBrackets then some ((k, absent), rest) else none
  | _ => none

theorem length_of_splitEntry {inBrackets : Bool} {s r : List Part} {e : Node × Node}
    (h : splitEntry inBrackets s = some (e, r)) : r.length < s.length := by
  unfold splitEntry at h
  repeat' split at h
  all_goals cases h
  all_goals simp only [List.length_cons]; omega

/-- The entries of a block mapping, up to its end. -/
def blockEntries (s : List Part) : Option (List (Node × Node) × List Part) :=
  match s with
  | mark .blockEnd :: rest => some ([], rest)
  | s =>
    match _h : splitEntry false s with
    | some (e, rest) => (blockEntries rest).map fun r => (e :: r.1, r.2)
    | none => none
termination_by s.length
decreasing_by exact length_of_splitEntry _h

/-- The entries of a mapping in brackets, up to the closing one. A comma may stand before it. -/
def bracketEntries (s : List Part) : Option (List (Node × Node) × List Part) :=
  match s with
  | mark .closeBrace :: rest => some ([], rest)
  | s =>
    match _h : splitEntry true s with
    | some (e, mark .comma :: rest) => (bracketEntries rest).map fun r => (e :: r.1, r.2)
    | some (e, mark .closeBrace :: rest) => some ([e], rest)
    | _ => none
termination_by s.length
decreasing_by
  have := length_of_splitEntry _h
  simp only [List.length_cons] at this
  omega

end Part

/-- The declarations at the front of some tokens, each made once, and whether a document is said to
begin after them; it has to be if there are any. -/
def prologue? (version : Bool) (declared : List (List Char × List Char)) :
    List Token → Option (List (List Char × List Char) × Bool × List Token)
  | .directive (.version major minor) :: rest =>
    if version ∨ major ≠ 1 ∨ (minor ≠ 1 ∧ minor ≠ 2) then none else prologue? true declared rest
  | .directive (.handle handle origin) :: rest =>
    if (declared.lookup handle).isSome then none
    else prologue? version ((handle, origin) :: declared) rest
  | .documentStart :: rest => some (declared, true, rest)
  | rest => if version ∨ declared ≠ [] then none else some ([], false, rest)

/-- A document: the anchor on its mapping and the entries of it. -/
structure Document where
  anchor : Option (List Char)
  entries : List (Node × Node)

namespace Document

/-- Whether nothing but marks that end a document is left. -/
def isOver (s : List Part) : Bool :=
  s.all fun
    | .mark .documentEnd => true
    | _ => false

/-- The document that some parts make; `explicit` tells whether it was said to begin. -/
def ofParts? (explicit : Bool) (s : List Part) : Option Document := do
  let (d, rest) : Document × List Part ←
    match s with
    | .blockStart anchor :: s => (Part.blockEntries s).map fun r => (⟨anchor, r.1⟩, r.2)
    | .openBrace anchor :: s => (Part.bracketEntries s).map fun r => (⟨anchor, r.1⟩, r.2)
    | .node (.scalar _ ⟨[], .plain, _⟩) :: s => some (⟨none, []⟩, s)
    | s => if s.isEmpty || explicit then some (⟨none, []⟩, s) else none
  if isOver rest then some d else none

def ofTokens? (s : List Token) : Option Document := do
  let (declared, explicit, s) ← prologue? false [] s
  ofParts? explicit (← Part.ofTokens? declared none none s)

end Document

/-! ### Anchors -/

/-- The slot of every anchor's name and what the slots hold; that of the mapping holds no scalar. -/
structure Anchors where
  slots : Table (List Char) Nat := []
  held : Table Nat (Option Scalar) := []

/-- Names a node. It is held in the slot with the number of names in use, also if the name is one of
them; so two names can come to share a slot, and what it held is lost. -/
def Anchors.add (name : List Char) (s : Option Scalar) (a : Anchors) : Anchors :=
  ⟨a.slots.insert name a.slots.length, a.held.insert a.slots.length s⟩

/-- A scalar or the slot of one. -/
inductive Content where
  | scalar (s : Scalar)
  | slot (n : Nat)

/-- The content of a node. An alias has the slot that its name had there. -/
def Node.content? (a : Anchors) : Node → Option (Content × Anchors)
  | scalar anchor s => some (.scalar s, anchor.elim a fun name => a.add name (some s))
  | aliasOf name => (a.slots.get? name).map fun n => (.slot n, a)

def contents? (a : Anchors) : List (Node × Node) → Option (List (Content × Content) × Anchors)
  | [] => some ([], a)
  | (k, v) :: rest => do
    let (k, a) ← k.content? a
    let (v, a) ← v.content? a
    let (rest, a) ← contents? a rest
    some ((k, v) :: rest, a)

/-- What a slot holds counts at the end of the document. -/
def Content.scalar? (a : Anchors) : Content → Option Scalar
  | scalar s => some s
  | slot n => (a.held.get? n).join

/-- The keys of a document's mapping with their values. -/
def Document.mapping? (d : Document) : Option (List (String × Scalar)) := do
  let (entries, a) ← contents? (d.anchor.elim {} fun name => Anchors.add name none {}) d.entries
  entries.mapM fun (k, v) => do
    let k ← k.scalar? a
    let v ← v.scalar? a
    some (String.ofList k.text, v)

/-- Reads a text that holds a single mapping of scalars. -/
def mapping? (text : String) : Option (List (String × Scalar)) := do
  (← Document.ofTokens? (← tokens? text.toList)).mapping?

end TypeCorpus.Yaml
