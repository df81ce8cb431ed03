import TypeCorpus.Corpus.Inputs
import TypeCorpus.Settings
import TypeCorpus.Wire.Headers

/-! What a command leaves behind: remarks, which are printed lines and events in the order in which
they came, a file system, and either a status or a failure that ended it. -/

namespace TypeCorpus

/-- Something said while a command runs. -/
inductive Remark where
  | line (text : String)
  | event (e : Event)

namespace Remark

def line? : Remark → Option String
  | line text => some text
  | event _ => none

def event? : Remark → Option Event
  | line _ => none
  | event e => some e

end Remark

/-- Prints a line. -/
def say (text : String) : Traced Remark Unit := Traced.note (.line text)

/-- Reports an event. -/
def report (e : Event) : Traced Remark Unit := Traced.note (.event e)

/-- Reports the events of a computation. -/
def reporting {α : Type} (x : Traced Event α) : Traced Remark α := x.mapEvents .event

/-- Why a command ended early, or passed over an input. -/
inductive Failure where
  | settings (e : SettingsError)
  | document (e : SchemaError)
  | schemaDirectory (dir : String) (e : SchemaError)
  | topics (dir : String) (e : SchemaError)
  | headers (dir : String) (e : HeaderError)
  | outputDirectory (dir : String) (e : FileError)
  | write (path : String) (e : FileError)
  deriving DecidableEq

/-- The message, from what was being done down to the cause. -/
def Failure.message : Failure → String
  | settings e => e.message
  | document e => e.fullMessage
  | schemaDirectory dir e => "failed to scan schema directory " ++ dir ++ ": " ++ e.fullMessage
  | topics dir e => "failed to collect topics from " ++ dir ++ ": " ++ e.fullMessage
  | headers dir e => "failed to scan struct headers in " ++ dir ++ ": " ++ e.message
  | outputDirectory dir e => "failed to create output directory " ++ dir ++ ": " ++ e.message
  | write path e => "failed to write " ++ path ++ ": " ++ e.message

/-- How a command that was not ended early went. -/
inductive Status where
  | succeeded
  | failed
  deriving DecidableEq

def Status.code : Status → Nat
  | succeeded => 0
  | failed => 1

structure Outcome (α : Type) where
  files : FileSystem
  result : Except Failure α

namespace FileSystem

/-- Makes the directory for a command's output. -/
def makeOutput (fs : FileSystem) (dir : String) : Outcome Unit :=
  let made := fs.makeDirectories dir
  ⟨made.1, made.2.mapError (.outputDirectory dir)⟩

/-- Writes a text to a file. What a run does next is proved from the outcome, so nothing has to
reduce the writing itself. -/
@[irreducible] def writeOutput (fs : FileSystem) (path text : String) : Outcome Unit :=
  match fs.write path text.toUTF8 with
  | .ok fs => ⟨fs, .ok ()⟩
  | .error e => ⟨fs, .error (.write path e)⟩

end FileSystem

end TypeCorpus
