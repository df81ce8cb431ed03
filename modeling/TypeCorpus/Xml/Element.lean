import TypeCorpus.Xml.Event

/-! Element trees. A tree is built from events by keeping the elements that are open, innermost
first: an opening tag opens one, a closing tag finishes the innermost, an empty tag finishes at
once, and a finished element goes to the end of its parent's children or becomes the root. -/

namespace TypeCorpus.Xml

structure Element where
  tag : String
  attributes : List (String × String) := []
  children : List Element := []

namespace Element

def ofTag (t : Tag) : Element := { tag := t.name, attributes := t.attributes }

/-- The value of the first attribute under a key; an empty value counts as none. -/
def attr? (e : Element) (key : String) : Option String :=
  (e.attributes.lookup key).filter (· ≠ "")

/-- The first child with a tag. -/
def child? (e : Element) (tag : String) : Option Element := e.children.find? (·.tag = tag)

def addChild (e c : Element) : Element := { e with children := e.children ++ [c] }

end Element

/-- The elements that are open and the finished root. -/
structure Builder where
  opened : List Element := []
  root : Option Element := none

namespace Builder

/-- Puts a finished element into its parent, or makes it the root. -/
def finish (b : Builder) (e : Element) : Except Error Builder :=
  match b.opened, b.root with
  | parent :: rest, _ => .ok { b with opened := parent.addChild e :: rest }
  | [], none => .ok { b with root := some e }
  | [], some _ => .error (.secondRoot e.tag)

def step (b : Builder) : Event → Except Error Builder
  | .opening tag => .ok { b with opened := .ofTag tag :: b.opened }
  | .empty tag => b.finish (.ofTag tag)
  | .closing _ =>
    match b.opened with
    | [] => .error .strayClose
    | e :: rest => { b with opened := rest }.finish e
  | .other => .ok b

def run (b : Builder) : List Event → Except Error Builder
  | [] => .ok b
  | e :: events => do (← b.step e).run events

/-- The tree, once all events are read. -/
def tree (b : Builder) : Except Error Element :=
  match b.opened, b.root with
  | e :: _, _ => .error (.unclosedElement e.tag)
  | [], some root => .ok root
  | [], none => .error .noRoot

end Builder

namespace Element

/-- The tree of a stream of events. A fault of the reading comes after those of the events before
it. -/
def ofStream (s : Stream) : Except Error Element := do
  let b ← Builder.run {} s.events
  match s.fault with
  | some e => .error e
  | none => b.tree

def parse (text : String) : Except Error Element := ofStream (.ofText text)

end Element

end TypeCorpus.Xml
