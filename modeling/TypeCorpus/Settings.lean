import TypeCorpus.Files.Basic
import TypeCorpus.Text.Blank
import TypeCorpus.Yaml.Mapping

/-! Settings of a run. A settings file is a YAML mapping with any of four keys; what it leaves out
keeps its default, and a blank file leaves out everything. Any scalar is a text, but only the words
for true and false without quotes are truth values. -/

namespace TypeCorpus

structure Settings where
  structPrefix : String := "C_"
  outputDirectory : String := "output_json"
  apiPrefix : String := "legacy"
  scanSiblings : Bool := true
  deriving DecidableEq

/-- Why settings could not be loaded. -/
inductive SettingsError where
  | unreadable (path : String) (e : FileError)
  | invalid (path : String)
  deriving DecidableEq

namespace SettingsError

/-- What went wrong, without the cause below it. -/
def summary : SettingsError → String
  | unreadable path _ => "failed to read config: " ++ path
  | invalid path => "invalid config: " ++ path

def message (e : SettingsError) : String :=
  match e with
  | unreadable _ cause => e.summary ++ ": " ++ cause.message
  | invalid _ => e.summary

end SettingsError

namespace Settings

/-- The truth value of a plain scalar, or of a literal one with the tag of truth values. -/
def truth? (s : Yaml.Scalar) : Option Bool :=
  let text := String.ofList s.text
  if s.style ≠ .plain ∧ ¬(s.style = .literal ∧ s.tag = some Yaml.Tag.truth) then none
  else if ["true", "True", "TRUE"].contains text then some true
  else if ["false", "False", "FALSE"].contains text then some false
  else none

/-- The settings with one key set. -/
def set? (settings : Settings) (key : String) (value : Yaml.Scalar) : Option Settings :=
  let text := String.ofList value.text
  match key with
  | "struct_prefix" => some { settings with structPrefix := text }
  | "output_dir" => some { settings with outputDirectory := text }
  | "api_prefix" => some { settings with apiPrefix := text }
  | "scan_sibling_documents" => (truth? value).map fun b => { settings with scanSiblings := b }
  | _ => none

/-- The settings with every key of a mapping set; a key may not come twice. -/
def setAll? (settings : Settings) : List (String × Yaml.Scalar) → Option Settings
  | [] => some settings
  | (key, value) :: rest =>
    if key ∈ rest.map Prod.fst then none
    else (settings.set? key value).bind fun settings => settings.setAll? rest

def parse? (text : String) : Option Settings :=
  if text.toList.all Text.isBlank then some {}
  else (Yaml.mapping? text).bind fun entries => setAll? {} entries

/-- Loads the settings at a path. -/
def load (fs : FileSystem) (path : String) : Except SettingsError Settings :=
  match fs.readText path with
  | .error e => .error (.unreadable path e)
  | .ok text =>
    match parse? text with
    | some settings => .ok settings
    | none => .error (.invalid path)

/-- Loads the settings at a path, or takes the defaults where there is none. -/
def loadOrDefault (fs : FileSystem) (path : Option String) : Except SettingsError Settings :=
  match path with
  | some path => load fs path
  | none => .ok {}

end Settings

end TypeCorpus
