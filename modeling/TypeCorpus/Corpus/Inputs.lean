import TypeCorpus.Corpus.Basic

/-! Inputs of a run. Arguments with wildcards are expanded, the others stand for themselves whether
or not the file exists. A corpus is read from the inputs alone, or from every directory that holds
one; such a directory is named by its path from the root where the input exists, each is read once,
in the order of their paths. -/

namespace TypeCorpus

/-- Whether an argument is a wildcard pattern. -/
def isPattern (argument : String) : Bool :=
  argument.toList.any fun c => c = '*' || c = '?' || c = '['

namespace FileSystem

/-- The paths that an argument stands for. -/
def expandInput (fs : FileSystem) (argument : String) : Traced Event (List String) :=
  if isPattern argument then
    match Wildcard.Pattern.parse argument with
    | .error e => ⟨[], [.invalidPattern argument e]⟩
    | .ok p =>
      match fs.expand p with
      | [] => ⟨[], [.nothingMatched argument]⟩
      | found => pure found
  else pure [argument]

def expandInputs (fs : FileSystem) : List String → Traced Event (List String)
  | [] => pure []
  | argument :: rest => do
    let found ← fs.expandInput argument
    let more ← fs.expandInputs rest
    pure (found ++ more)

/-- The directory that holds an input. -/
def containingDirectory (fs : FileSystem) (input : String) : String :=
  match Path.parent? ((fs.absolute? input).getD input) with
  | some dir => if dir = "" then "." else dir
  | none => "."

end FileSystem

namespace Path

/-- Leaves out each path that is followed by one of the same components. -/
def withoutRepeats : List String → List String
  | [] => []
  | [p] => [p]
  | p :: q :: rest =>
    if orderKey p = orderKey q then withoutRepeats (q :: rest) else p :: withoutRepeats (q :: rest)

/-- Paths in order, of several with the same components the last. -/
def sortedSet (paths : List String) : List String :=
  withoutRepeats (paths.mergeSort fun p q => Text.notAfter (orderKey p) (orderKey q))

end Path

namespace Corpus

/-- Reads the documents of directories, those that cannot be enumerated left out with a notice. -/
def scanEach (fs : FileSystem) (c : Corpus) : List String → Traced Event Corpus
  | [] => pure c
  | dir :: rest =>
    match scan fs c dir with
    | .ok scanned => do
      let c ← scanned
      scanEach fs c rest
    | .error e => do
      Traced.note (.directorySkipped dir e)
      scanEach fs c rest

/-- The corpus for some inputs: the documents beside them, or they alone. -/
def ofInputs (fs : FileSystem) (inputs : List String) (siblings : Bool) : Traced Event Corpus :=
  if siblings then scanEach fs {} (Path.sortedSet (inputs.map fs.containingDirectory))
  else load fs {} inputs

/-- Reads the documents of directories in the given order; one that cannot be enumerated ends it. -/
def scanAll (fs : FileSystem) (c : Corpus) :
    List String → Traced Event (Except (String × SchemaError) Corpus)
  | [] => pure (.ok c)
  | dir :: rest =>
    match scan fs c dir with
    | .ok scanned => do
      let c ← scanned
      scanAll fs c rest
    | .error e => pure (.error (dir, e))

/-- The corpus of some directories. -/
def ofDirectories (fs : FileSystem) (dirs : List String) :
    Traced Event (Except (String × SchemaError) Corpus) := scanAll fs {} dirs

end Corpus

end TypeCorpus
