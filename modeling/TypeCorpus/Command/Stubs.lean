import TypeCorpus.Command.Basic
import TypeCorpus.Corpus.Topics
import TypeCorpus.Stub

/-! The command that writes publish stubs. Everything is read before anything is written, and with
nothing to publish nothing is written. -/

namespace TypeCorpus

structure StubsCommand where
  xmlDirectory : String
  structDirectory : Option String := none
  output : String := "."
  apiPrefix : Option String := none

namespace StubsCommand

/-- What is to be published, and the headers to include. -/
structure Subjects where
  topics : List Topic
  scan : HeaderScan := {}

/-- Adds the wire structures of a directory, if there is one. -/
def readHeaders (fs : FileSystem) (dir : Option String) :
    Except Failure (Traced Event HeaderScan) :=
  match dir with
  | none => .ok (pure {})
  | some dir => (fs.scanHeaders dir).mapError (.headers dir)

def subjects (c : StubsCommand) (fs : FileSystem) : Traced Event (Except Failure Subjects) :=
  match fs.collectTopics c.xmlDirectory with
  | .error e => pure (.error (.topics c.xmlDirectory e))
  | .ok topics => do
    let topics ← topics
    match readHeaders fs c.structDirectory with
    | .error e => pure (.error e)
    | .ok scan => (fun scan => .ok { topics, scan }) <$> scan

/-- Writes two files, the second one only after the first. -/
def writeBoth (fs : FileSystem) (first second : String × String) : Outcome Unit :=
  let written := fs.writeOutput first.1 first.2
  match written.result with
  | .error e => ⟨written.files, .error e⟩
  | .ok () => written.files.writeOutput second.1 second.2

/-- Writes the stubs for something to publish. -/
def write (c : StubsCommand) (pre : String) (fs : FileSystem) (s : Subjects) :
    Traced Remark (Outcome Status) := do
  let header := Path.join c.output (pre ++ "_api.h")
  let source := Path.join c.output (pre ++ "_api.c")
  let made := fs.makeOutput c.output
  match made.result with
  | .error e => pure ⟨made.files, .error e⟩
  | .ok () =>
    let written := writeBoth made.files
      (header, Stub.renderHeader pre s.topics s.scan.wires s.scan.headers)
      (source, Stub.renderSource pre s.topics s.scan.wires)
    match written.result with
    | .error e => pure ⟨written.files, .error e⟩
    | .ok () => do
      say ("Generated " ++ toString s.topics.length ++ " topic function(s) and " ++
        toString s.scan.wires.length ++ " struct function(s):")
      say ("  " ++ header)
      say ("  " ++ source)
      pure ⟨written.files, .ok .succeeded⟩

def run (c : StubsCommand) (settings : Settings) (fs : FileSystem) :
    Traced Remark (Outcome Status) := do
  match ← reporting (c.subjects fs) with
  | .error e => pure ⟨fs, .error e⟩
  | .ok s =>
    if s.topics.isEmpty && s.scan.wires.isEmpty then do
      say ("ERROR: no module-level structs found in " ++ c.xmlDirectory)
      pure ⟨fs, .ok .failed⟩
    else c.write (c.apiPrefix.getD settings.apiPrefix) fs s

end StubsCommand

end TypeCorpus
