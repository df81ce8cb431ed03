import TypeCorpus.Files.Error
import TypeCorpus.Files.Path
import TypeCorpus.Table
import TypeCorpus.Text.Bytes
import TypeCorpus.Text.Order

/-! File systems as values. A location is the list of names from the root, and a table says what is
there, a file with its bytes or a directory; the root is always a directory. A path is walked piece
by piece from the root or the working directory. What changes a file system gives a new one, and
changes one location. -/

namespace TypeCorpus

abbrev Location := List String

inductive Entry where
  | file (content : ByteArray)
  | directory

instance : DecidableEq Entry := fun e f =>
  match e, f with
  | .file a, .file b =>
    if h : a.data = b.data then isTrue (by cases a; cases b; subst h; rfl)
    else isFalse fun he => h (by cases he; rfl)
  | .directory, .directory => isTrue rfl
  | .file _, .directory => isFalse nofun
  | .directory, .file _ => isFalse nofun

structure FileSystem where
  entries : Table Location Entry := []
  workingDirectory : Location := []

namespace FileSystem

/-- The longest name of a file, in bytes. -/
def longestName : Nat := 255

/-- The longest path, in bytes. -/
def longestPath : Nat := 4095

def get? (fs : FileSystem) : Location → Option Entry
  | [] => some .directory
  | place => fs.entries.get? place

def put (fs : FileSystem) (place : Location) (e : Entry) : FileSystem :=
  { fs with entries := fs.entries.insert place e }

/-- Follows pieces of a path from a location. -/
def walk (fs : FileSystem) (here : Location) : List (List Char) → Except FileError Location
  | [] => .ok here
  | piece :: rest =>
    match fs.get? here with
    | some .directory =>
      if piece = [] ∨ piece = ['.'] then fs.walk here rest
      else if piece = ['.', '.'] then fs.walk here.dropLast rest
      else if longestName < Text.byteCount piece then .error .nameTooLong
      else
        let next := here ++ [String.ofList piece]
        if (fs.get? next).isSome then fs.walk next rest else .error .notFound
    | _ => .error .notADirectory

/-- Refuses paths that the operating system does not look at. -/
def checked (path : String) : Except FileError Unit :=
  if '\x00' ∈ path.toList then .error .nulInName
  else if path = "" then .error .notFound
  else if longestPath < Text.byteCount path.toList then .error .nameTooLong
  else .ok ()

/-- Where the walk of a path begins. -/
def origin (fs : FileSystem) (path : String) : Location :=
  if Path.isAbsolute path then [] else fs.workingDirectory

/-- The location that a path names. -/
def locate (fs : FileSystem) (path : String) : Except FileError Location := do
  checked path
  fs.walk (fs.origin path) (Path.pieces path)

def find? (fs : FileSystem) (path : String) : Option Entry :=
  match fs.locate path with
  | .ok place => fs.get? place
  | .error _ => none

def isFile (fs : FileSystem) (path : String) : Bool :=
  match fs.find? path with
  | some (.file _) => true
  | _ => false

def isDirectory (fs : FileSystem) (path : String) : Bool := fs.find? path = some .directory

/-- The path from the root, if there is anything at a path. -/
def absolute? (fs : FileSystem) (path : String) : Option String :=
  match fs.locate path with
  | .ok place => some ("/" ++ "/".intercalate place)
  | .error _ => none

def readBytes (fs : FileSystem) (path : String) : Except FileError ByteArray := do
  match fs.get? (← fs.locate path) with
  | some (.file content) => .ok content
  | some .directory => .error .isADirectory
  | none => .error .notFound

def readText (fs : FileSystem) (path : String) : Except FileError String := do
  match String.fromUTF8? (← fs.readBytes path) with
  | some text => .ok text
  | none => .error .invalidEncoding

/-- The directory and the name at which a path would make something new; no name where the path ends
in dots. Slashes at the end do not count. -/
def target (fs : FileSystem) (path : String) : Except FileError (Location × Option String) := do
  checked path
  match (Path.pieces path).reverse.dropWhile (· = []) with
  | [] => .ok ([], none)
  | last :: above =>
    let here ← fs.walk (fs.origin path) above.reverse
    if fs.get? here ≠ some .directory then .error .notADirectory
    else if last = ['.'] ∨ last = ['.', '.'] then .ok (here, none)
    else if longestName < Text.byteCount last then .error .nameTooLong
    else .ok (here, some (String.ofList last))

/-- Writes a file, over the one that is there. -/
def write (fs : FileSystem) (path : String) (content : ByteArray) :
    Except FileError FileSystem := do
  match ← fs.target path with
  | (_, none) => .error .isADirectory
  | (here, some name) =>
    if fs.get? (here ++ [name]) = some .directory ∨ path.toList.getLast? = some '/' then
      .error .isADirectory
    else .ok (fs.put (here ++ [name]) (.file content))

/-- Makes a directory where nothing is. -/
def makeDirectory (fs : FileSystem) (path : String) : Except FileError FileSystem := do
  match ← fs.target path with
  | (_, none) => .error .alreadyThere
  | (here, some name) =>
    if (fs.get? (here ++ [name])).isSome then .error .alreadyThere
    else .ok (fs.put (here ++ [name]) .directory)

/-- Makes the first of some nested directories, after the others if they are missing. What was made
stays when a later step fails. -/
def makeNested (fs : FileSystem) : List String → FileSystem × Except FileError Unit
  | [] => (fs, .error .notFound)
  | path :: above =>
    if path = "" then (fs, .ok ())
    else
      match fs.makeDirectory path with
      | .ok fs => (fs, .ok ())
      | .error .notFound =>
        match fs.makeNested above with
        | (fs, .error e) => (fs, .error e)
        | (fs, .ok ()) =>
          match fs.makeDirectory path with
          | .ok fs => (fs, .ok ())
          | .error e => (fs, if fs.isDirectory path then .ok () else .error e)
      | .error e => (fs, if fs.isDirectory path then .ok () else .error e)

/-- Makes a directory with the parents that are missing. -/
def makeDirectories (fs : FileSystem) (path : String) : FileSystem × Except FileError Unit :=
  fs.makeNested (Path.ancestors path)

/-- The name of an entry that lies directly in a directory. -/
def nameIn (dir : Location) (place : Location) : Option String :=
  if place.dropLast = dir then place.getLast? else none

/-- The names in a directory, in order. -/
def names (fs : FileSystem) (dir : Location) : List String :=
  (fs.entries.keys.filterMap (nameIn dir)).mergeSort Text.ordered

/-- Puts an entry at a location together with the directories above it that are missing. -/
def place (fs : FileSystem) (above : Location) : Location → Entry → FileSystem
  | [], _ => fs
  | [name], e => fs.put (above ++ [name]) e
  | name :: rest, e =>
    let fs := if (fs.get? (above ++ [name])).isSome then fs else fs.put (above ++ [name]) .directory
    fs.place (above ++ [name]) rest e

/-- The number of names in the longest location. -/
def depth (fs : FileSystem) : Nat := fs.entries.foldr (fun e n => Nat.max e.1.length n) 0

theorem length_le_depth {fs : FileSystem} {place : Location} (h : place ∈ fs.entries.keys) :
    place.length ≤ fs.depth := by
  obtain ⟨entries, _⟩ := fs
  simp only [depth]
  induction entries with
  | nil => cases h
  | cons e entries ih =>
    simp only [List.foldr_cons]
    rcases List.mem_cons.1 h with h | h
    · rw [h]; exact Nat.le_max_left _ _
    · exact Nat.le_trans (ih h) (Nat.le_max_right _ _)

theorem length_lt_depth_of_mem_names {fs : FileSystem} {dir : Location} {name : String}
    (h : name ∈ fs.names dir) : dir.length < fs.depth := by
  rw [names, List.mem_mergeSort] at h
  obtain ⟨place, hp, hn⟩ := List.mem_filterMap.1 h
  simp only [nameIn] at hn
  split at hn
  · rename_i hd
    have hne : place ≠ [] := by rintro rfl; cases hn
    have hl := length_le_depth hp
    have := @List.length_dropLast _ place
    have := List.length_pos_iff.2 hne
    rw [hd] at *
    omega
  · cases hn

theorem get?_put_of_ne (fs : FileSystem) {place other : Location} (h : place ≠ other) (e : Entry) :
    (fs.put place e).get? other = fs.get? other := by
  cases other with
  | nil => rfl
  | cons name rest => exact Table.get?_insert_ne _ h e

end FileSystem

end TypeCorpus
