import TypeCorpus.Command.Basic
import TypeCorpus.Sample.FileName
import TypeCorpus.Sample.Json
import TypeCorpus.Sample.Synthesis

/-! The command that writes samples: for each input document, in order, one file for each chosen
structure, in document order. An input that is missing, cannot be read, or has a sample that cannot
be written is told of and makes the run fail, and the others are still processed; samples of a
document after the one that could not be written are not tried, and none of that document's are
counted. -/

namespace TypeCorpus

structure SampleCommand where
  inputs : List String
  output : Option String := none
  structPrefix : Option String := none

/-- The chosen structures of a document. -/
def Document.chosen (d : Document) (start : String) : List QualifiedName :=
  (d.structs.map Prod.fst).filter fun q => beginsWith start q.name

namespace SampleCommand

/-- The sample of a structure, told of where a part of it has no sample. -/
def sample (r : Registry) (q : QualifiedName) : Traced Remark Sample := do
  let s ← reporting ((r.sample q.qualified false).mapEvents .cycle)
  if s.placeholders > 0 then report (.unresolvedSample q.logical s.placeholders)
  pure s

/-- Where the sample of a structure goes. -/
def path (dir : String) (q : QualifiedName) : String := Path.join dir (sampleFileName q.logical)

/-- Writes the sample of a structure. -/
def writeSample (r : Registry) (dir : String) (fs : FileSystem) (q : QualifiedName) :
    Traced Remark (Outcome Unit) := do
  let s ← sample r q
  let written := fs.writeOutput (path dir q) (s.pretty ++ "\n")
  match written.result with
  | .ok () => say ("  " ++ q.logical ++ " -> " ++ sampleFileName q.logical)
  | .error _ => pure ()
  pure written

/-- Writes samples up to the first that cannot be written, and counts them. -/
def writeSamples (r : Registry) (dir : String) (fs : FileSystem) :
    List QualifiedName → Traced Remark (Outcome Nat)
  | [] => pure ⟨fs, .ok 0⟩
  | q :: qs => do
    let written ← writeSample r dir fs q
    match written.result with
    | .error e => pure ⟨written.files, .error e⟩
    | .ok () => do
      let more ← writeSamples r dir written.files qs
      pure ⟨more.files, more.result.map (· + 1)⟩

/-- Writes the samples of an input. -/
def processInput (r : Registry) (dir start : String) (fs : FileSystem) (input : String) :
    Traced Remark (Outcome Nat) := do
  match fs.loadDocument input with
  | .error e => pure ⟨fs, .error (.document e)⟩
  | .ok d =>
    say ("Processing " ++ input)
    writeSamples r dir fs (d.chosen start)

/-- How far a run has come. -/
structure Progress where
  files : FileSystem
  written : Nat := 0
  status : Status := .succeeded

/-- Processes inputs one after the other. -/
def processInputs (r : Registry) (dir start : String) (p : Progress) :
    List String → Traced Remark Progress
  | [] => pure p
  | input :: inputs => do
    let processed ← processInput r dir start p.files input
    match processed.result with
    | .ok n =>
      processInputs r dir start { p with files := processed.files, written := p.written + n } inputs
    | .error e => do
      say ("ERROR: " ++ input ++ ": " ++ e.message)
      processInputs r dir start { p with files := processed.files, status := .failed } inputs

/-- Prints a line for each of some texts. -/
def sayAll (line : String → String) : List String → Traced Remark Unit
  | [] => pure ()
  | text :: texts => do
    say (line text)
    sayAll line texts

def run (c : SampleCommand) (settings : Settings) (fs : FileSystem) :
    Traced Remark (Outcome Status) := do
  let dir := c.output.getD settings.outputDirectory
  let found ← reporting (fs.expandInputs c.inputs)
  let inputs := found.filter fs.isFile
  let missing := found.filter fun input => !fs.isFile input
  sayAll ("ERROR: input file not found: " ++ ·) missing
  let corpus ← reporting (Corpus.ofInputs fs inputs settings.scanSiblings)
  let made := fs.makeOutput dir
  match made.result with
  | .error e => pure ⟨made.files, .error e⟩
  | .ok () => do
    let p ← processInputs corpus.registry dir (c.structPrefix.getD settings.structPrefix)
      { files := made.files, status := if missing.isEmpty then .succeeded else .failed } inputs
    say ("Generated " ++ toString p.written ++ " sample(s) from " ++ toString inputs.length ++
      " document(s) in " ++ dir)
    pure ⟨p.files, .ok p.status⟩

end SampleCommand

end TypeCorpus
