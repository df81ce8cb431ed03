import TypeCorpus.Event
import TypeCorpus.Files.Expansion
import TypeCorpus.Corpus.Basic
import TypeCorpus.Wire.Scan

/-! Directories of C headers. The headers are read in order of their names; of several wire
structures with one C name the first is kept, and a header that cannot be read is left out with a
notice. -/

namespace TypeCorpus

/-- Why the headers of a directory cannot be listed. -/
inductive HeaderError where
  | notADirectory (dir : String)
  | pattern (e : Wildcard.Error)
  deriving DecidableEq

def HeaderError.message : HeaderError → String
  | notADirectory dir => "struct directory " ++ dir ++ " is not a directory"
  | pattern e => e.message

/-- The wire structures of some headers, and the names of the headers that could be read. -/
structure HeaderScan where
  wires : List WireStruct := []
  headers : List String := []

namespace HeaderScan

/-- Adds the structures that are new by their C names. -/
def addWires (known : List WireStruct) : List WireStruct → List WireStruct
  | [] => known
  | w :: ws =>
    if w.full ∈ known.map WireStruct.full then addWires known ws else addWires (known ++ [w]) ws

/-- Adds what a header holds. -/
def add (h : HeaderScan) (name content : String) : HeaderScan where
  wires := addWires h.wires (WireStruct.scan name content)
  headers := h.headers ++ [name]

end HeaderScan

namespace FileSystem

def headerFiles (fs : FileSystem) (dir : String) : Except HeaderError (List String) :=
  if fs.isDirectory dir then
    match fs.filesWith dir "h" with
    | .ok files => .ok files
    | .error e => .error (.pattern e)
  else .error (.notADirectory dir)

def readHeaders (fs : FileSystem) (h : HeaderScan) : List String → Traced Event HeaderScan
  | [] => pure h
  | path :: rest =>
    match fs.readText path with
    | .ok content => fs.readHeaders (h.add ((Path.fileName? path).getD "") content) rest
    | .error e => do
      Traced.note (.headerSkipped path e)
      fs.readHeaders h rest

/-- The wire structures in the headers of a directory. -/
def scanHeaders (fs : FileSystem) (dir : String) : Except HeaderError (Traced Event HeaderScan) :=
  match fs.headerFiles dir with
  | .ok files => .ok (fs.readHeaders {} files)
  | .error e => .error e

end FileSystem

end TypeCorpus
