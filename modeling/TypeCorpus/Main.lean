import TypeCorpus.Command.Invocation

/-! The program. It takes a picture of the places that its arguments name, runs the command line on
it, carries out what changed, and prints the remarks. -/

namespace TypeCorpus

/-- A place to look at: a path, and how many levels below it count. -/
structure Sight where
  path : String
  levels : Nat

/-- The deepest nesting of directories that a pattern is followed through. -/
def deepestSight : Nat := 64

/-- What has to be seen for an input: its directory, and for a pattern everything below the part
before the wildcards. -/
def Sight.ofInput (input : String) : Sight :=
  let literal := input.toList.takeWhile fun c => !isPattern (String.singleton c)
  if isPattern input then
    let above := (literal.reverse.dropWhile (· ≠ '/')).reverse
    ⟨if above = [] then "." else String.ofList above, deepestSight⟩
  else
    match Path.parent? input with
    | none => ⟨".", 1⟩
    | some dir => ⟨if dir = "" then "." else dir, 1⟩

/-- What a command has to see. -/
def Command.sights (settings : Settings) : Command → List Sight
  | .sample c => ⟨c.output.getD settings.outputDirectory, 1⟩ :: c.inputs.map Sight.ofInput
  | .resolve c => c.schemaDirectories.map (⟨·, 1⟩)
  | .stubs c => ⟨c.output, 1⟩ :: ⟨c.xmlDirectory, 1⟩ :: (c.structDirectory.toList.map (⟨·, 1⟩))

/-- The names from the root to an absolute path, dots followed. -/
def locationOf (path : String) : Location :=
  (Path.pieces path).foldl (fun place piece =>
    if piece = [] ∨ piece = ['.'] then place
    else if piece = ['.', '.'] then place.dropLast
    else place ++ [String.ofList piece]) []

/-- Adds what is at an absolute path, and so many levels below it. -/
def look (fs : FileSystem) (path : String) : Nat → IO FileSystem
  | levels => do
    let place := locationOf path
    try
      let here := (← IO.FS.realPath path)
      if ← here.isDir then
        let fs := if (fs.get? place).isSome then fs else fs.place [] place .directory
        below fs levels (← here.readDir).toList
      else if ← here.pathExists then
        pure (fs.place [] place (.file (← IO.FS.readBinFile path)))
      else pure fs
    catch _ => pure fs
where
  below (fs : FileSystem) (levels : Nat) (names : List IO.FS.DirEntry) : IO FileSystem :=
    match levels with
    | 0 => pure fs
    | levels + 1 => names.foldlM (fun fs name => look fs (Path.join path name.fileName) levels) fs

/-- Adds what a sight shows, and what is at the paths above it. -/
def Sight.look (fs : FileSystem) (here : String) (s : Sight) : IO FileSystem := do
  let path := Path.join here s.path
  let fs ← (Path.ancestors path).tail.foldrM (fun above fs => TypeCorpus.look fs above 0) fs
  TypeCorpus.look fs path s.levels

/-- The part of the files that a command line depends on. -/
def picture (here : String) (arguments : List String) : IO FileSystem := do
  let place := locationOf here
  let fs := { ({} : FileSystem).place [] place .directory with workingDirectory := place }
  match Invocation.parse arguments with
  | .error _ => pure fs
  | .ok invocation => do
    let fs ← invocation.settings.toList.foldlM (fun fs path => (Sight.mk path 0).look fs here) fs
    let settings := match Settings.loadOrDefault fs invocation.settings with
      | .ok settings => settings
      | .error _ => {}
    (invocation.command.sights settings).foldlM (fun fs sight => sight.look fs here) fs

/-- Makes the directories and writes the files that are new or changed. -/
def carryOut (old new : FileSystem) : IO Unit :=
  new.entries.forM fun (place, entry) => do
    if old.get? place ≠ some entry then
      let path := "/" ++ "/".intercalate place
      match entry with
      | .directory => IO.FS.createDir path
      | .file content => IO.FS.writeBinFile path content

def Remark.text : Remark → String
  | line text => text
  | event e => e.text

end TypeCorpus

open TypeCorpus in
def main (arguments : List String) : IO UInt32 := do
  let fs ← picture (← IO.currentDir).toString arguments
  let finished := runCommandLine fs arguments
  carryOut fs finished.value.files
  finished.events.forM fun remark => IO.println remark.text
  return UInt32.ofNat finished.value.code
