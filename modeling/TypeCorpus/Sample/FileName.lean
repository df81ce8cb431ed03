import TypeCorpus.Name
import TypeCorpus.Text.Case
import TypeCorpus.Text.Occurrence

/-! Names of sample files, and the choice of structures that get one. A file is named by the logical
name of its structure, flattened, with each character that file names do not have on every system
replaced by an underscore. A structure is chosen by how its own name begins, whatever the case. -/

namespace TypeCorpus

/-- Whether a character is kept out of file names. -/
def isForbidden (c : Char) : Bool :=
  ['<', '>', ':', '"', '/', '\\', '|', '?', '*', ' '].contains c

/-- The name with underscores in place of forbidden characters. -/
def sanitized (name : String) : String :=
  String.ofList (name.toList.map fun c => if isForbidden c then '_' else c)

/-- The file that holds the sample of a structure with this logical name. -/
def sampleFileName (logical : String) : String := sanitized (Name.flatten "__" logical) ++ ".json"

/-- Whether a name begins with a text, compared in upper case. -/
def beginsWith (start name : String) : Bool :=
  (Text.after? (Text.uppercase start.toList) (Text.uppercase name.toList)).isSome

@[simp] theorem toList_sanitized (name : String) :
    (sanitized name).toList = name.toList.map fun c => if isForbidden c then '_' else c := by
  simp [sanitized]

theorem isForbidden_eq_false_of_mem_sanitized {name : String} {c : Char}
    (h : c ∈ (sanitized name).toList) : isForbidden c = false := by
  rw [toList_sanitized, List.mem_map] at h
  obtain ⟨d, _, rfl⟩ := h
  split
  · rfl
  · simpa using ‹¬ isForbidden d = true›

end TypeCorpus
