import TypeCorpus.Proofs.Command.Summary
import TypeCorpus.Proofs.Corpus

/-! What the sample files hold after a run. Where no input lies in the place of a sample, what is
read does not depend on what was written before, so every input adds what it would add alone. Each
file then holds the sample of the last structure with its name. -/

namespace TypeCorpus

namespace FileSystem

variable {fs fs' : FileSystem} {input : String} {place : Location} {bytes : ByteArray}

/-- An input is the file at a place. -/
structure IsFileAt (fs : FileSystem) (input : String) (place : Location) (bytes : ByteArray) :
    Prop where
  locate_eq : fs.locate input = .ok place
  get?_eq : fs.get? place = some (.file bytes)

theorem isFile_iff : fs.isFile input = true ↔ ∃ place bytes, fs.IsFileAt input place bytes := by
  rw [isFile, find?]
  cases hlocate : fs.locate input with
  | error e =>
    refine iff_of_false Bool.false_ne_true ?_
    rintro ⟨place, bytes, h⟩
    cases hlocate.symm.trans h.locate_eq
  | ok place =>
    dsimp only
    constructor
    · intro h
      split at h
      · rename_i bytes hget
        exact ⟨place, bytes, hlocate, hget⟩
      · cases h
    · rintro ⟨place', bytes, h⟩
      rw [Except.ok.inj (hlocate.symm.trans h.locate_eq), h.get?_eq]

/-- A file that is still there is read as it was. -/
theorem IsFileAt.loadDocument_eq (h : fs.IsFileAt input place bytes)
    (hkeeps : KeepsDirectories fs fs') (hget : fs'.get? place = some (.file bytes)) :
    fs'.loadDocument input = fs.loadDocument input := by
  have hlocate := hkeeps.locate_eq h.locate_eq (by rw [hget]; rfl)
  have hread := readBytes_eq_ok_iff.2 ⟨place, h.locate_eq, h.get?_eq⟩
  have hread' := readBytes_eq_ok_iff.2 ⟨place, hlocate, hget⟩
  rw [loadDocument, loadDocument, readText, readText, hread, hread']

end FileSystem

namespace SampleCommand

open FileSystem

variable {r : Registry} {dir start input : String} {fs : FileSystem} {out : Location}
  {qs : List QualifiedName}

/-! ### Inputs apart from the samples -/

/-- An input is a file, and not in the place of a sample. -/
def IsApart (fs : FileSystem) (out : Location) (qs : List QualifiedName) (input : String) : Prop :=
  ∃ place bytes, fs.IsFileAt input place bytes ∧ ∀ q ∈ qs, out ++ [fileName q] ≠ place

theorem IsApart.loadDocument_stored (hinput : IsApart fs out qs input) (r : Registry)
    (hout : fs.outputPlace dir = .ok out) (hqs : ∀ q ∈ qs, takes fs dir q = true) :
    (stored r out fs qs).loadDocument input = fs.loadDocument input := by
  obtain ⟨place, bytes, hfile, hplace⟩ := hinput
  exact hfile.loadDocument_eq (sameDirectories_stored r hout hqs).1.keepsDirectories
    ((get?_stored_of_notMem hplace).trans hfile.get?_eq)

theorem part_stored (r : Registry) (hout : fs.outputPlace dir = .ok out)
    (hqs : ∀ q ∈ qs, takes fs dir q = true) (hinput : IsApart fs out qs input) (start : String) :
    part (stored r out fs qs) dir start input = part fs dir start input := by
  simp only [part, hinput.loadDocument_stored r hout hqs,
    taken_eq_of_sameDirectories (sameDirectories_stored r hout hqs).1]

/-- Inputs that are apart from all samples add what they would add alone. -/
theorem parts_stored (r : Registry) (hout : fs.outputPlace dir = .ok out) {inputs : List String}
    (hqs : ∀ q ∈ qs, takes fs dir q = true)
    (hinputs : ∀ input ∈ inputs, IsApart fs out
      (qs ++ (inputs.map (part fs dir start)).flatMap Part.written) input) :
    parts r out dir start (stored r out fs qs) inputs = inputs.map (part fs dir start) := by
  induction inputs generalizing qs with
  | nil => rfl
  | cons input inputs ih =>
    obtain ⟨⟨place, bytes, hfile, hplace⟩, hrest⟩ := List.forall_mem_cons.1 hinputs
    have hpart := part_stored r hout hqs
      ⟨place, bytes, hfile, fun q hq => hplace q (List.mem_append_left _ hq)⟩ start
    rw [parts, hpart, ← stored_append, List.map_cons]
    refine congrArg _ (ih (fun q hq => ?_) fun input' hinput' => ?_)
    · rcases List.mem_append.1 hq with hq | hq
      · exact hqs q hq
      · exact takes_of_mem_written hq
    · rw [List.append_assoc, ← List.flatMap_cons]
      exact hrest input' hinput'

/-! ### Runs -/

variable {c : SampleCommand} {settings : Settings}

/-- What comes of the inputs of a run where each is read before anything is written. -/
def plan (c : SampleCommand) (settings : Settings) (fs : FileSystem) : List Part :=
  (c.existing fs).map (part (c.made settings fs) (c.directory settings) (c.beginning settings))

/-- The structures whose samples are to be written, in order: of each document those that are chosen
up to the first whose sample cannot be written. -/
def planned (c : SampleCommand) (settings : Settings) (fs : FileSystem) : List QualifiedName :=
  (c.plan settings fs).flatMap Part.written

/-- No input lies in the place of a sample. -/
def Apart (c : SampleCommand) (settings : Settings) (fs : FileSystem) : Prop :=
  ∀ out, (c.made settings fs).outputPlace (c.directory settings) = .ok out →
    ∀ input ∈ c.existing fs, ∀ q ∈ c.planned settings fs,
      fs.locate input ≠ .ok (out ++ [fileName q])

theorem isFileAt_made {place : Location} {bytes : ByteArray} (h : fs.IsFileAt input place bytes)
    (c : SampleCommand) (settings : Settings) :
    (c.made settings fs).IsFileAt input place bytes ∧
      (c.made settings fs).loadDocument input = fs.loadDocument input := by
  have hadds := (fs.makeOutput_spec (c.directory settings)).1
  have hget : (c.made settings fs).get? place = some (.file bytes) := hadds.get?_of_get? h.get?_eq
  have hsome : ((c.made settings fs).get? place).isSome = true := by rw [hget]; rfl
  exact ⟨⟨hadds.keepsDirectories.locate_eq h.locate_eq hsome, hget⟩,
    h.loadDocument_eq hadds.keepsDirectories hget⟩

theorem exists_isFileAt (h : input ∈ c.existing fs) :
    ∃ place bytes, fs.IsFileAt input place bytes := isFile_iff.1 (List.mem_filter.1 h).2

theorem Apart.isApart (h : c.Apart settings fs)
    (hout : (c.made settings fs).outputPlace (c.directory settings) = .ok out)
    (hinput : input ∈ c.existing fs) :
    IsApart (c.made settings fs) out (c.planned settings fs) input := by
  obtain ⟨place, bytes, hfile⟩ := exists_isFileAt hinput
  refine ⟨place, bytes, (isFileAt_made hfile c settings).1, fun q hq hplace => ?_⟩
  exact h out hout input hinput q hq (hplace ▸ hfile.locate_eq)

theorem Apart.account_eq (h : c.Apart settings fs)
    (hout : (c.made settings fs).outputPlace (c.directory settings) = .ok out) :
    c.account settings fs out = c.plan settings fs :=
  parts_stored (c.registry settings fs) hout (List.forall_mem_nil _) fun _ => h.isApart hout

theorem taken_subset_planned {d : Document} (hinput : input ∈ c.existing fs)
    (hload : fs.loadDocument input = .ok d) :
    taken (c.made settings fs) (c.directory settings) (d.chosen (c.beginning settings)) ⊆
      c.planned settings fs := by
  obtain ⟨place, bytes, hfile⟩ := exists_isFileAt hinput
  have hpart : (part (c.made settings fs) (c.directory settings) (c.beginning settings)
      input).written =
        taken (c.made settings fs) (c.directory settings) (d.chosen (c.beginning settings)) := by
    rw [part, (isFileAt_made hfile c settings).2, hload]
  exact fun q hq => List.mem_flatMap.2 ⟨_, List.mem_map_of_mem hinput, hpart.symm ▸ hq⟩

end SampleCommand

end TypeCorpus
