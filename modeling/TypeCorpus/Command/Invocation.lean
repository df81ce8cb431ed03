import TypeCorpus.Command.Arguments
import TypeCorpus.Command.Resolve
import TypeCorpus.Command.Sample
import TypeCorpus.Command.Stubs

/-! Invocations: the commands, what each takes on the command line, and a whole run from the
arguments to the exit code. The settings file and the verbosity may be given before or after the
name of the command; of two settings files the one after it counts. -/

namespace TypeCorpus

open Arguments (Switch Shape Given Stop)

inductive Command where
  | sample (c : SampleCommand)
  | resolve (c : ResolveCommand)
  | stubs (c : StubsCommand)

structure Invocation where
  settings : Option String
  command : Command

namespace Invocation

def version : String := "idlgen 0.1.0"

def settingsSwitch : Switch := ⟨"config", none, .value true⟩

/-- The switches that every command has. -/
def everywhere : List Switch :=
  [⟨"verbose", some 'v', .count⟩, settingsSwitch, ⟨"help", some 'h', .help⟩]

def topShape : Shape := ⟨⟨"version", some 'V', .version⟩ :: everywhere, none⟩

def outputSwitch : Switch := ⟨"output", some 'o', .value true⟩

/-- A command as it stands on the command line. -/
structure Entry where
  name : String
  switches : List Switch
  words : Nat
  read : Given → Option Command

/-- The samples' command takes any number of inputs, but at least one. -/
def sampleEntry (most : Nat) : Entry where
  name := "sample"
  switches := [outputSwitch, ⟨"prefix", none, .value false⟩]
  words := most
  read g :=
    if g.words.isEmpty then none
    else some (.sample
      { inputs := g.words, output := g.value? "output", structPrefix := g.value? "prefix" })

def resolveEntry : Entry where
  name := "resolve"
  switches := [⟨"schema-dir", none, .values⟩, ⟨"sample", none, .flag⟩]
  words := 1
  read g :=
    match g.words, g.values "schema-dir" with
    | [ref], dir :: dirs =>
      some (.resolve { ref, schemaDirectories := dir :: dirs, sample := g.has "sample" })
    | _, _ => none

def stubsEntry : Entry where
  name := "stubs"
  switches := [⟨"xml-dir", none, .value true⟩, ⟨"struct-dir", none, .value true⟩, outputSwitch,
    ⟨"api-prefix", none, .value false⟩]
  words := 0
  read g := do
    let xmlDirectory ← g.value? "xml-dir"
    some (.stubs
      { xmlDirectory
        structDirectory := g.value? "struct-dir"
        output := (g.value? "output").getD "."
        apiPrefix := g.value? "api-prefix" })

/-- The commands, of which the samples' one takes at most so many words. -/
def commands (most : Nat) : List Entry := [sampleEntry most, resolveEntry, stubsEntry]

/-- Whether the words after `help` name a command that there is help for. -/
def helps (words : List String) : Bool :=
  let names := "help" :: (commands 0).map Entry.name
  match words with
  | [] => true
  | [name] => names.contains name
  | ["help", name] => names.contains name
  | _ => false

/-- Reads the arguments of a run. -/
def parse (arguments : List String) : Except Stop Invocation := do
  let (top, rest) ← Arguments.read topShape {} arguments
  match rest with
  | [] => .error .misuse
  | name :: rest =>
    if name = "help" then .error (if helps rest then .help else .misuse)
    else
      match (commands rest.length).find? (·.name = name) with
      | none => .error .misuse
      | some entry => do
        let (given, _) ← Arguments.read ⟨entry.switches ++ everywhere, some entry.words⟩ {} rest
        match entry.read given with
        | none => .error .misuse
        | some command =>
          .ok ⟨(given.value? settingsSwitch.long).or (top.value? settingsSwitch.long), command⟩

def runCommand (settings : Settings) (fs : FileSystem) : Command → Traced Remark (Outcome Status)
  | .sample c => c.run settings fs
  | .resolve c => c.run fs
  | .stubs c => c.run settings fs

/-- Loads the settings and runs the command. -/
def run (i : Invocation) (fs : FileSystem) : Traced Remark (Outcome Status) :=
  match Settings.loadOrDefault fs i.settings with
  | .error e => pure ⟨fs, .error (.settings e)⟩
  | .ok settings => runCommand settings fs i.command

end Invocation

/-- A finished run: the files as it leaves them and its exit code. -/
structure Finished where
  files : FileSystem
  code : Nat

/-- Runs a command line. A failure is reported, and its exit code is that of a failed command; wrong
arguments have a code of their own. -/
def runCommandLine (fs : FileSystem) (arguments : List String) : Traced Remark Finished :=
  match Invocation.parse arguments with
  | .error .help => pure ⟨fs, 0⟩
  | .error .version => do
    say Invocation.version
    pure ⟨fs, 0⟩
  | .error .misuse => pure ⟨fs, 2⟩
  | .ok invocation => do
    let outcome ← invocation.run fs
    match outcome.result with
    | .ok status => pure ⟨outcome.files, status.code⟩
    | .error e => do
      report (.failed e.message)
      pure ⟨outcome.files, Status.failed.code⟩

end TypeCorpus
