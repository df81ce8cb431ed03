import TypeCorpus.Document
import TypeCorpus.Event
import TypeCorpus.Files.Expansion

/-! A corpus of schema documents: a registry with a report of what went into it. Documents are read
in a given order; one that cannot be read or parsed is skipped with a notice and leaves the registry
as it is. The documents of a directory are its files with the schema extension, in order of their
names. -/

namespace TypeCorpus

/-- What a scan did: documents read, declarations entered, and the paths of skipped documents. -/
structure ScanReport where
  documents : Nat := 0
  declarations : Nat := 0
  skipped : List String := []

structure Corpus where
  registry : Registry := .empty
  report : ScanReport := {}

namespace FileSystem

/-- The files directly in a directory whose names end in an extension. -/
def filesWith (fs : FileSystem) (dir extension : String) : Except Wildcard.Error (List String) := do
  let pattern := String.ofList (Wildcard.escape dir.toList) ++ "/*." ++ extension
  .ok ((fs.expand (← Wildcard.Pattern.parse pattern)).filter fs.isFile)

/-- The schema documents of a directory. -/
def schemaFiles (fs : FileSystem) (dir : String) : Except SchemaError (List String) :=
  if fs.isDirectory dir then
    match fs.filesWith dir "xml" with
    | .ok files => .ok files
    | .error e => .error (.enumerate dir (.pattern e))
  else .error (.enumerate dir .notADirectory)

def loadDocument (fs : FileSystem) (path : String) : Except SchemaError Document :=
  match fs.readText path with
  | .error e => .error (.file e)
  | .ok text =>
    match Document.parse path text with
    | .ok d => .ok d
    | .error e => .error (.document e)

end FileSystem

namespace Corpus

/-- Enters the declarations of a document. -/
def add (c : Corpus) (d : Document) : Corpus where
  registry := c.registry.registerAll d.declarations
  report := { c.report with
    documents := c.report.documents + 1
    declarations := c.report.declarations + d.declarations.length }

def skip (c : Corpus) (path : String) : Corpus :=
  { c with report := { c.report with skipped := c.report.skipped ++ [path] } }

/-- Reads documents one after the other. -/
def load (fs : FileSystem) (c : Corpus) : List String → Traced Event Corpus
  | [] => pure c
  | path :: rest =>
    match fs.loadDocument path with
    | .ok d => load fs (c.add d) rest
    | .error e => do
      Traced.note (.documentSkipped path e)
      load fs (c.skip path) rest

/-- Reads the documents of a directory. -/
def scan (fs : FileSystem) (c : Corpus) (dir : String) : Except SchemaError (Traced Event Corpus) :=
  match fs.schemaFiles dir with
  | .ok files => .ok (load fs c files)
  | .error e => .error e

end Corpus

end TypeCorpus
