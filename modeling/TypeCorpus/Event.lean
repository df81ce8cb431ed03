import TypeCorpus.Document
import TypeCorpus.Files.Error
import TypeCorpus.Files.Wildcard
import TypeCorpus.Registry.Resolution

/-! Errors of reading schemas, and the events that a run reports on the side: each is a cause, with
a level, a message and named fields. -/

namespace TypeCorpus

/-- Why a directory cannot be enumerated. -/
inductive EnumerateFault where
  | notADirectory
  | pattern (e : Wildcard.Error)
  deriving DecidableEq

def EnumerateFault.text : EnumerateFault → String
  | notADirectory => "not a directory"
  | pattern e => e.message

inductive SchemaError where
  | document (e : DocumentError)
  | enumerate (dir : String) (fault : EnumerateFault)
  | file (e : FileError)
  deriving DecidableEq

namespace SchemaError

def message : SchemaError → String
  | document e => e.message
  | enumerate dir fault => "cannot enumerate '" ++ dir ++ "': " ++ fault.text
  | file e => "io error: " ++ e.message

/-- The message followed by its cause, where there is one below it. -/
def fullMessage (e : SchemaError) : String :=
  match e with
  | file cause => e.message ++ ": " ++ cause.message
  | _ => e.message

end SchemaError

inductive Event where
  | cycle (notice : CycleNotice)
  | documentSkipped (path : String) (e : SchemaError)
  | headerSkipped (path : String) (e : FileError)
  | directorySkipped (dir : String) (e : SchemaError)
  | invalidPattern (pattern : String) (e : Wildcard.Error)
  | nothingMatched (pattern : String)
  | unresolvedSample (name : String) (placeholders : Nat)
  | failed (message : String)

namespace Event

/-- A failed run is an error, everything else a warning. -/
def level : Event → String
  | failed _ => "ERROR"
  | _ => "WARN"

def message : Event → String
  | cycle (.stopped _) => "typedef cycle; resolution stopped"
  | cycle (.placeholder _ _) => "typedef cycle; emitting placeholder"
  | documentSkipped _ _ => "skipping malformed schema document"
  | headerSkipped _ _ => "skipping unreadable header"
  | directorySkipped _ _ => "cannot scan directory"
  | invalidPattern _ _ => "invalid wildcard pattern"
  | nothingMatched _ => "no files matched pattern"
  | unresolvedSample _ _ => "sample contains unresolved types"
  | failed message => message

def fields : Event → List (String × String)
  | cycle (.stopped c) => [("err", c.message)]
  | cycle (.placeholder ref c) => [("type_ref", ref), ("err", c.message)]
  | documentSkipped path e => [("path", path), ("err", e.message)]
  | headerSkipped path e => [("path", path), ("err", e.message)]
  | directorySkipped dir e => [("dir", dir), ("err", e.message)]
  | invalidPattern pattern e => [("pattern", pattern), ("err", e.message)]
  | nothingMatched pattern => [("pattern", pattern)]
  | unresolvedSample name n => [("name", name), ("unresolved", toString n)]
  | failed _ => []

/-- The event as it is logged: level, message and fields. -/
def text (e : Event) : String :=
  e.level ++ " " ++ e.message ++ String.join (e.fields.map fun f => " " ++ f.1 ++ "=" ++ f.2)

end Event

end TypeCorpus
