import Mathlib.Algebra.GroupWithZero.Nat
import TypeCorpus.Command.Sample
import TypeCorpus.Proofs.Files.Output
import TypeCorpus.Proofs.Table

/-! The account of a run that writes samples. What an input adds are the samples of its chosen
structures up to the first that cannot be written; the run stores them one over the other and tells
in its last line how many the inputs that went well have added. Every sample goes into the output
directory under a name that is one plain component of a path, so nothing else is written. -/

namespace TypeCorpus

open FileSystem

/-! ### Names of sample files -/

theorem toList_sampleFileName (logical : String) : (sampleFileName logical).toList =
    (sanitized (Name.flatten "__" logical)).toList ++ ".json".toList := by
  rw [sampleFileName, String.toList_append]

theorem isForbidden_of_mem_sampleFileName {logical : String} {c : Char}
    (h : c ∈ (sampleFileName logical).toList) : isForbidden c = false := by
  rw [toList_sampleFileName, List.mem_append] at h
  rcases h with h | h
  · exact isForbidden_eq_false_of_mem_sanitized h
  · have hend : (".json".toList.all fun c => !isForbidden c) = true := by decide
    simpa using List.all_eq_true.1 hend c h

theorem isEntryName_sampleFileName (logical : String) :
    Path.IsEntryName (sampleFileName logical) := by
  have hlength : 5 ≤ (sampleFileName logical).toList.length := by
    rw [toList_sampleFileName, List.length_append]
    exact Nat.le_add_left _ _
  refine ⟨?_, ?_, ?_, fun hslash => ?_⟩
  · intro h
    rw [h] at hlength
    exact absurd hlength (by decide)
  · intro h
    rw [h] at hlength
    exact absurd hlength (by decide)
  · intro h
    rw [h] at hlength
    exact absurd hlength (by decide)
  · exact absurd (isForbidden_of_mem_sampleFileName hslash) (by decide)

namespace SampleCommand

/-- The name of the file for the sample of a structure. -/
def fileName (q : QualifiedName) : String := sampleFileName q.logical

/-- What the file for the sample of a structure holds. -/
def content (r : Registry) (q : QualifiedName) : ByteArray :=
  ((r.sample q.qualified false).value.pretty ++ "\n").toUTF8

/-- The file system with the samples of some structures in a directory, later ones over earlier
ones. -/
def stored (r : Registry) (out : Location) (fs : FileSystem) (qs : List QualifiedName) :
    FileSystem :=
  qs.foldl (fun fs q => fs.put (out ++ [fileName q]) (.file (content r q))) fs

variable {r : Registry} {dir start input : String} {fs fs' : FileSystem} {out place : Location}
  {q : QualifiedName} {qs : List QualifiedName}

theorem isEntryName_fileName (q : QualifiedName) : Path.IsEntryName (fileName q) :=
  isEntryName_sampleFileName _

/-! ### Stored samples -/

theorem stored_cons (r : Registry) (out : Location) (fs : FileSystem) (q : QualifiedName)
    (qs : List QualifiedName) : stored r out fs (q :: qs) =
      stored r out (fs.put (out ++ [fileName q]) (.file (content r q))) qs := rfl

theorem stored_append (r : Registry) (out : Location) (fs : FileSystem)
    (qs qs' : List QualifiedName) :
    stored r out fs (qs ++ qs') = stored r out (stored r out fs qs) qs' := List.foldl_append

theorem get?_stored_of_notMem (h : ∀ q ∈ qs, out ++ [fileName q] ≠ place) :
    (stored r out fs qs).get? place = fs.get? place := by
  induction qs generalizing fs with
  | nil => rfl
  | cons q qs ih =>
    obtain ⟨hq, hqs⟩ := List.forall_mem_cons.1 h
    rw [stored_cons, ih hqs, fs.get?_put_of_ne hq]

/-- The last sample under a name is the one that is found. -/
theorem get?_stored_append_cons {front back : List QualifiedName}
    (h : fileName q ∉ back.map fileName) :
    (stored r out fs (front ++ q :: back)).get? (out ++ [fileName q]) =
      some (.file (content r q)) := by
  rw [stored_append, stored_cons, get?_stored_of_notMem]
  · exact get?_put_self _ (by simp) _
  · intro q' hq' hplace
    exact h (List.mem_map.2 ⟨q', hq', List.singleton_inj.1 (List.append_cancel_left hplace)⟩)

/-- Under each name that was written there is a sample, of the last structure with it. -/
theorem exists_get?_stored (r : Registry) (out : Location) (fs : FileSystem) {name : String}
    (h : name ∈ qs.map fileName) : ∃ front q back, qs = front ++ q :: back ∧ fileName q = name ∧
      name ∉ back.map fileName ∧
        (stored r out fs qs).get? (out ++ [name]) = some (.file (content r q)) := by
  obtain ⟨front, q, back, rfl, rfl, hback, -⟩ := Table.exists_last (fun q => (fileName q, q)) h
  have hnone : fileName q ∉ back.map fileName := by simpa using hback
  exact ⟨front, q, back, rfl, rfl, hnone, get?_stored_append_cons hnone⟩

/-! ### Samples that can be written -/

/-- Whether the sample of a structure can be written. -/
def takes (fs : FileSystem) (dir : String) (q : QualifiedName) : Bool := fs.takesFile (path dir q)

theorem takes_iff (hout : fs.outputPlace dir = .ok out) :
    takes fs dir q = true ↔ fs.Accepts dir (fileName q) out := by
  refine (takesFile_join_iff (isEntryName_fileName q)).trans
    ⟨fun ⟨here, haccepts⟩ => ?_, fun haccepts => ⟨out, haccepts⟩⟩
  rwa [Except.ok.inj (hout.symm.trans haccepts.outputPlace_eq)]

theorem takes_eq_of_sameDirectories (hsame : SameDirectories fs fs') :
    takes fs dir = takes fs' dir := by
  have himp : ∀ {a b : FileSystem}, SameDirectories a b → ∀ q, takes a dir q = true →
      takes b dir q = true := by
    intro a b hab q h
    obtain ⟨here, haccepts⟩ := (takesFile_join_iff (isEntryName_fileName q)).1 h
    exact (takesFile_join_iff (isEntryName_fileName q)).2 ⟨here, haccepts.of_sameDirectories hab⟩
  exact funext fun q => Bool.eq_iff_iff.2 ⟨himp hsame q, himp hsame.symm q⟩

/-- Writing what can be written keeps the directories. -/
theorem sameDirectories_stored (r : Registry) (hout : fs.outputPlace dir = .ok out)
    (hqs : ∀ q ∈ qs, takes fs dir q = true) :
    SameDirectories fs (stored r out fs qs) ∧ (stored r out fs qs).outputPlace dir = .ok out := by
  induction qs generalizing fs with
  | nil => exact ⟨⟨rfl, fun _ => Iff.rfl⟩, hout⟩
  | cons q qs ih =>
    obtain ⟨hq, hqs⟩ := List.forall_mem_cons.1 hqs
    have haccepts := (takes_iff hout).1 hq
    have hsame : SameDirectories fs (fs.put (out ++ [fileName q]) (.file (content r q))) :=
      sameDirectories_put haccepts.free
    have hrest := ih (hsame.outputPlace_eq hout haccepts.directory)
      (takes_eq_of_sameDirectories hsame ▸ hqs)
    refine ⟨⟨hsame.workingDirectory.trans hrest.1.workingDirectory, fun place => ?_⟩, hrest.2⟩
    exact (hsame.directory_iff place).trans (hrest.1.directory_iff place)

/-- A file for a sample is written if it can be, and then it is in the directory. -/
theorem write_path_eq_ok_iff (hout : fs.outputPlace dir = .ok out) {bytes : ByteArray} :
    fs.write (path dir q) bytes = .ok fs' ↔
      takes fs dir q = true ∧ fs' = fs.put (out ++ [fileName q]) (.file bytes) := by
  rw [takes_iff hout]
  refine (write_join_eq_ok_iff (isEntryName_fileName q)).trans ⟨?_, fun h => ⟨out, h⟩⟩
  rintro ⟨here, haccepts, rfl⟩
  rw [Except.ok.inj (hout.symm.trans haccepts.outputPlace_eq)]
  exact ⟨haccepts, rfl⟩

theorem value_sample (r : Registry) (q : QualifiedName) :
    (sample r q).value = (r.sample q.qualified false).value := by
  simp only [sample, Traced.value_bind]
  split <;> rfl

theorem value_writeSample (r : Registry) (dir : String) (fs : FileSystem) (q : QualifiedName) :
    (writeSample r dir fs q).value =
      fs.writeOutput (path dir q) ((r.sample q.qualified false).value.pretty ++ "\n") := by
  rw [writeSample]
  simp only [Traced.value_bind, value_sample]
  split <;> simp only [Traced.value_bind, Traced.value_pure]

theorem value_writeSample_of_ok (h : fs.write (path dir q) (content r q) = .ok fs') :
    (writeSample r dir fs q).value = ⟨fs', .ok ()⟩ := by
  rw [content] at h
  rw [value_writeSample, writeOutput_of_ok h]

theorem value_writeSample_of_error {e : FileError}
    (h : fs.write (path dir q) (content r q) = .error e) :
    (writeSample r dir fs q).value = ⟨fs, .error (.write (path dir q) e)⟩ := by
  rw [content] at h
  rw [value_writeSample, writeOutput_of_error h]

/-- The structures up to the first whose sample cannot be written. -/
def taken (fs : FileSystem) (dir : String) (qs : List QualifiedName) : List QualifiedName :=
  qs.takeWhile (takes fs dir)

theorem taken_eq_of_sameDirectories (hsame : SameDirectories fs fs') (qs : List QualifiedName) :
    taken fs' dir qs = taken fs dir qs := by
  rw [taken, taken, takes_eq_of_sameDirectories hsame]

/-- The samples that can be written are stored, and counted if they are all. -/
theorem value_writeSamples (hout : fs.outputPlace dir = .ok out) (r : Registry)
    (qs : List QualifiedName) :
    (writeSamples r dir fs qs).value.files = stored r out fs (taken fs dir qs) ∧
      (taken fs dir qs = qs ∧ (writeSamples r dir fs qs).value.result = .ok qs.length ∨
        taken fs dir qs ≠ qs ∧ ∃ e, (writeSamples r dir fs qs).value.result = .error e) := by
  induction qs generalizing fs with
  | nil => exact ⟨rfl, .inl ⟨rfl, rfl⟩⟩
  | cons q qs ih =>
    rw [writeSamples, Traced.value_bind]
    cases hwrite : fs.write (path dir q) (content r q) with
    | error e =>
      have hnot : ¬ takes fs dir q = true := fun h =>
        nomatch hwrite.symm.trans ((write_path_eq_ok_iff hout).2 ⟨h, rfl⟩)
      rw [value_writeSample_of_error hwrite, taken, List.takeWhile_cons_of_neg hnot]
      exact ⟨rfl, .inr ⟨(List.cons_ne_nil _ _).symm, _, rfl⟩⟩
    | ok made =>
      obtain ⟨htakes, rfl⟩ := (write_path_eq_ok_iff hout).1 hwrite
      have hone : ∀ q' ∈ [q], takes fs dir q' = true := by simpa using htakes
      obtain ⟨hsame, hmade⟩ := sameDirectories_stored r hout hone
      have htaken : taken fs dir (q :: qs) = q :: taken fs dir qs :=
        List.takeWhile_cons_of_pos htakes
      obtain ⟨hfiles, hresult⟩ := ih hmade
      rw [taken_eq_of_sameDirectories hsame] at hfiles hresult
      rw [value_writeSample_of_ok hwrite, htaken, stored_cons]
      refine ⟨hfiles, ?_⟩
      rcases hresult with ⟨hall, hok⟩ | ⟨hnot, e, he⟩
      · exact .inl ⟨congrArg _ hall, congrArg (Except.map (· + 1)) hok⟩
      · exact .inr ⟨fun h => hnot (List.cons.inj h).2, e, congrArg (Except.map (· + 1)) he⟩

theorem takes_of_mem_taken (h : q ∈ taken fs dir qs) : takes fs dir q = true :=
  List.mem_takeWhile_imp h

/-! ### Inputs -/

/-- What came of an input: the structures whose samples were written, in order, and whether it could
be read and these are all that were chosen. -/
structure Part where
  written : List QualifiedName := []
  complete : Bool := false
  deriving DecidableEq

/-- What comes of an input. -/
def part (fs : FileSystem) (dir start input : String) : Part :=
  match fs.loadDocument input with
  | .ok d => ⟨taken fs dir (d.chosen start), taken fs dir (d.chosen start) = d.chosen start⟩
  | .error _ => {}

namespace Part

/-- How many of its samples are counted. -/
def counted (p : Part) : ℕ := if p.complete then p.written.length else 0

/-- How many of its samples are written and left out of the count. -/
def uncounted (p : Part) : ℕ := if p.complete then 0 else p.written.length

end Part

/-- What comes of inputs, each read when the samples of those before it are there. -/
def parts (r : Registry) (out : Location) (dir start : String) (fs : FileSystem) :
    List String → List Part
  | [] => []
  | input :: inputs =>
    let p := part fs dir start input
    p :: parts r out dir start (stored r out fs p.written) inputs

theorem takes_of_mem_written (h : q ∈ (part fs dir start input).written) :
    takes fs dir q = true := by
  rw [part] at h
  split at h
  · exact takes_of_mem_taken h
  · cases h

theorem value_processInput (hout : fs.outputPlace dir = .ok out) (r : Registry)
    (start input : String) : let p := part fs dir start input
    (processInput r dir start fs input).value.files = stored r out fs p.written ∧
      (p.complete = true ∧
          (processInput r dir start fs input).value.result = .ok p.written.length ∨
        p.complete = false ∧ ∃ e, (processInput r dir start fs input).value.result = .error e) := by
  rw [processInput, part]
  cases fs.loadDocument input with
  | error e => exact ⟨rfl, .inr ⟨rfl, _, rfl⟩⟩
  | ok d =>
    obtain ⟨hfiles, hresult⟩ := value_writeSamples hout r (d.chosen start)
    refine ⟨hfiles, ?_⟩
    rcases hresult with ⟨hall, hok⟩ | ⟨hnot, he⟩
    · exact .inl ⟨decide_eq_true hall, hok.trans (congrArg (Except.ok ·.length) hall.symm)⟩
    · exact .inr ⟨decide_eq_false hnot, he⟩

/-- Inputs leave the samples of their parts; the complete ones are counted, and the run succeeds if
all are. -/
theorem value_processInputs {p : Progress} (hout : p.files.outputPlace dir = .ok out)
    (r : Registry) (start : String) (inputs : List String) :
    (processInputs r dir start p inputs).value =
      let ps := parts r out dir start p.files inputs
      { files := stored r out p.files (ps.flatMap Part.written)
        written := p.written + (ps.map Part.counted).sum
        status := if ps.all Part.complete then p.status else .failed } := by
  induction inputs generalizing p with
  | nil => rfl
  | cons input inputs ih =>
    obtain ⟨hfiles, hresult⟩ := value_processInput hout r start input
    have hkeeps : (stored r out p.files (part p.files dir start input).written).outputPlace dir =
        .ok out := (sameDirectories_stored r hout fun _ => takes_of_mem_written).2
    rw [processInputs, parts, Traced.value_bind, hfiles]
    rcases hresult with ⟨hcomplete, hok⟩ | ⟨hnot, e, he⟩
    · simp only [hok]
      rw [ih]
      · simp [hcomplete, Part.counted, stored_append, Nat.add_assoc]
      · exact hkeeps
    · simp only [he, Traced.value_bind]
      rw [ih]
      · simp [hnot, Part.counted, stored_append]
      · exact hkeeps

/-! ### Runs -/

/-- The path of the output directory. -/
def directory (c : SampleCommand) (settings : Settings) : String :=
  c.output.getD settings.outputDirectory

/-- How the names of the chosen structures begin. -/
def beginning (c : SampleCommand) (settings : Settings) : String :=
  c.structPrefix.getD settings.structPrefix

def existing (c : SampleCommand) (fs : FileSystem) : List String :=
  (fs.expandInputs c.inputs).value.filter fs.isFile

def missing (c : SampleCommand) (fs : FileSystem) : List String :=
  (fs.expandInputs c.inputs).value.filter fun input => !fs.isFile input

def registry (c : SampleCommand) (settings : Settings) (fs : FileSystem) : Registry :=
  (Corpus.ofInputs fs (c.existing fs) settings.scanSiblings).value.registry

/-- The file system with the output directory made. -/
def made (c : SampleCommand) (settings : Settings) (fs : FileSystem) : FileSystem :=
  (fs.makeOutput (c.directory settings)).files

/-- What comes of the inputs of a run. -/
def account (c : SampleCommand) (settings : Settings) (fs : FileSystem) (out : Location) :
    List Part :=
  parts (c.registry settings fs) out (c.directory settings) (c.beginning settings)
    (c.made settings fs) (c.existing fs)

/-- The structures whose samples a run writes, in order. -/
def written (c : SampleCommand) (settings : Settings) (fs : FileSystem) (out : Location) :
    List QualifiedName := (c.account settings fs out).flatMap Part.written

/-- The last line of a run. -/
def summary (n documents : ℕ) (dir : String) : String :=
  "Generated " ++ toString n ++ " sample(s) from " ++ toString documents ++
    " document(s) in " ++ dir

/-- How far a run has come before the first input. -/
def begun (c : SampleCommand) (settings : Settings) (fs : FileSystem) : Progress where
  files := c.made settings fs
  status := if (c.missing fs).isEmpty then .succeeded else .failed

/-- How far a run has come after the last input. -/
def done (c : SampleCommand) (settings : Settings) (fs : FileSystem) : Progress :=
  (processInputs (c.registry settings fs) (c.directory settings) (c.beginning settings)
    (c.begun settings fs) (c.existing fs)).value

/-- What a run does that comes to its end, with its output directory at a place. -/
structure Ends (c : SampleCommand) (settings : Settings) (fs : FileSystem) (out : Location) :
    Prop where
  outputPlace_eq : (c.made settings fs).outputPlace (c.directory settings) = .ok out
  files_eq : (c.run settings fs).value.files =
    stored (c.registry settings fs) out (c.made settings fs) (c.written settings fs out)
  result_eq : (c.run settings fs).value.result =
    .ok (if c.missing fs = [] ∧ ∀ p ∈ c.account settings fs out, p.complete = true then .succeeded
      else .failed)
  summary_eq : (c.run settings fs).events.getLast? =
    some (.line (summary ((c.account settings fs out).map Part.counted).sum (c.existing fs).length
      (c.directory settings)))

variable {c : SampleCommand} {settings : Settings}

theorem run_of_error {e : Failure} (h : (fs.makeOutput (c.directory settings)).result = .error e) :
    (c.run settings fs).value = ⟨c.made settings fs, .error e⟩ := by
  rw [directory] at h
  simp only [run, Traced.value_bind, h]
  rfl

theorem run_of_ok (h : (fs.makeOutput (c.directory settings)).result = .ok ()) :
    (c.run settings fs).value =
        ⟨(c.done settings fs).files, .ok (c.done settings fs).status⟩ ∧
      ∃ before, (c.run settings fs).events = before ++
        [.line (summary (c.done settings fs).written (c.existing fs).length
          (c.directory settings))] := by
  rw [directory] at h
  refine ⟨?_, ?_⟩
  · simp only [run, Traced.value_bind, h]
    rfl
  · simp only [run, Traced.events_bind, h, ← List.append_assoc, Traced.events_pure,
      List.append_nil]
    exact ⟨_, rfl⟩

theorem done_eq (hout : (c.made settings fs).outputPlace (c.directory settings) = .ok out) :
    c.done settings fs =
      { files := stored (c.registry settings fs) out (c.made settings fs)
          (c.written settings fs out)
        written := ((c.account settings fs out).map Part.counted).sum
        status := if c.missing fs = [] ∧ ∀ p ∈ c.account settings fs out, p.complete = true
          then .succeeded else .failed } := by
  refine (value_processInputs (p := c.begun settings fs) hout _ _ _).trans ?_
  have hstatus : ∀ (p q : Prop) [Decidable p] [Decidable q],
      (if p then if q then Status.succeeded else .failed else .failed) =
        if q ∧ p then .succeeded else .failed := by
    intro p q _ _
    by_cases hp : p <;> by_cases hq : q <;> simp [hp, hq]
  simp only [begun, Nat.zero_add, hstatus, List.isEmpty_iff, List.all_eq_true]
  rfl

theorem ends_of_ok (h : (fs.makeOutput (c.directory settings)).result = .ok ())
    (hout : (c.made settings fs).outputPlace (c.directory settings) = .ok out) :
    c.Ends settings fs out := by
  obtain ⟨hvalue, before, hevents⟩ := run_of_ok h
  rw [done_eq hout] at hvalue hevents
  exact ⟨hout, congrArg Outcome.files hvalue, congrArg Outcome.result hvalue,
    by rw [hevents, List.getLast?_concat]⟩

/-- A run ends early with the output directory as far as it could be made, or comes to its end. -/
theorem run_cases (c : SampleCommand) (settings : Settings) (fs : FileSystem) :
    (∃ e, (c.run settings fs).value = ⟨c.made settings fs, .error e⟩) ∨
      ∃ out, c.Ends settings fs out := by
  cases hmade : (fs.makeOutput (c.directory settings)).result with
  | error e => exact .inl ⟨e, run_of_error hmade⟩
  | ok =>
    obtain ⟨out, hout⟩ := (fs.makeOutput_spec (c.directory settings)).2 hmade
    exact .inr ⟨out, ends_of_ok hmade hout⟩

theorem makeOutput_of_result {status : Status} (h : (c.run settings fs).value.result = .ok status) :
    (fs.makeOutput (c.directory settings)).result = .ok () := by
  cases hmade : (fs.makeOutput (c.directory settings)).result with
  | ok => rfl
  | error e =>
    rw [run_of_error hmade] at h
    cases h

theorem exists_ends {status : Status} (h : (c.run settings fs).value.result = .ok status) :
    ∃ out, c.Ends settings fs out := by
  have hmade := makeOutput_of_result h
  obtain ⟨out, hout⟩ := (fs.makeOutput_spec (c.directory settings)).2 hmade
  exact ⟨out, ends_of_ok hmade hout⟩

theorem Ends.succeeds_iff (h : c.Ends settings fs out) :
    (c.run settings fs).value.result = .ok .succeeded ↔
      c.missing fs = [] ∧ ∀ p ∈ c.account settings fs out, p.complete = true := by
  rw [h.result_eq]
  split_ifs with hall
  · exact iff_of_true rfl hall
  · exact iff_of_false nofun hall

/-- Made directories are no files, so outside the samples a run leaves the files as they were. -/
theorem Ends.get?_file_iff (h : c.Ends settings fs out)
    (hplace : ∀ q ∈ c.written settings fs out, out ++ [fileName q] ≠ place) {bytes : ByteArray} :
    (c.run settings fs).value.files.get? place = some (.file bytes) ↔
      fs.get? place = some (.file bytes) := by
  rw [h.files_eq, get?_stored_of_notMem hplace]
  exact (fs.makeOutput_spec (c.directory settings)).1.get?_file_iff

/-! ### Nothing outside the output directory -/

/-- The name of a sample file is one plain component of a path, whatever the structure is called. A
file that is written under it is an entry of the directory, and nothing else changes; so whatever
documents a run reads, and however it ends, every file that it makes or changes is an entry of its
output directory under such a name. -/
theorem writes_below_output :
    (∀ logical, Path.IsEntryName (sampleFileName logical) ∧
      ∀ ch ∈ ['<', '>', ':', '"', '/', '\\', '|', '?', '*', ' '],
        ch ∉ (sampleFileName logical).toList) ∧
    (∀ (fs fs' : FileSystem) (dir logical : String) (bytes : ByteArray),
      fs.write (Path.join dir (sampleFileName logical)) bytes = .ok fs' →
        ∃ out, fs.outputPlace dir = .ok out ∧ fs.get? out = some .directory ∧
          fs' = fs.put (out ++ [sampleFileName logical]) (.file bytes)) ∧
    ∀ (c : SampleCommand) (settings : Settings) (fs : FileSystem) (place : Location),
      (∀ out logical, (c.made settings fs).outputPlace (c.directory settings) = .ok out →
        place ≠ out ++ [sampleFileName logical]) →
      ∀ bytes, (c.run settings fs).value.files.get? place = some (.file bytes) ↔
        fs.get? place = some (.file bytes) := by
  refine ⟨fun logical => ⟨isEntryName_sampleFileName logical, fun ch hch hmem => ?_⟩, ?_, ?_⟩
  · have hforbidden : isForbidden ch = true := List.contains_iff_mem.2 hch
    rw [isForbidden_of_mem_sampleFileName hmem] at hforbidden
    cases hforbidden
  · intro fs fs' dir logical bytes hwrite
    obtain ⟨out, haccepts, hmade⟩ :=
      (write_join_eq_ok_iff (isEntryName_sampleFileName logical)).1 hwrite
    exact ⟨out, haccepts.outputPlace_eq, haccepts.directory, hmade⟩
  · intro c settings fs place hplace bytes
    rcases run_cases c settings fs with ⟨e, hvalue⟩ | ⟨out, hends⟩
    · rw [hvalue]
      exact (fs.makeOutput_spec (c.directory settings)).1.get?_file_iff
    · exact hends.get?_file_iff fun q _ => (hplace out q.logical hends.outputPlace_eq).symm

/-- A document whose names spell a path to the file beside it. -/
def climbing : FileSystem :=
  .oneDirectory [("h.xml", "<types><module name='..'><struct name='C_/../x'/></module></types>"),
    ("..__C__.._x.json", "kept")]

def climb : SampleCommand := { inputs := ["h.xml"], output := some "o" }

theorem ends_climb : climb.Ends {} climbing ["w", "o"] := by
  have hmade : (climbing.makeOutput (climb.directory {})).result = .ok () := by decide +kernel
  exact ends_of_ok hmade (by decide +kernel)

/-- The sample is written below the directory, and the file beside it is kept. -/
theorem writes_below_output_climbing :
    (climb.written {} climbing ["w", "o"]).map fileName = ["..__C__.._x.json"] ∧
    (climb.run {} climbing).value.files.get? ["w", "..__C__.._x.json"] =
      some (.file "kept".toUTF8) := by
  refine ⟨by decide +kernel, (writes_below_output.2.2 climb {} climbing _ ?_ _).2 rfl⟩
  intro out logical hout
  rw [← Except.ok.inj (ends_climb.outputPlace_eq.symm.trans hout)]
  exact fun heq => absurd (congrArg List.length heq) (by simp)

end SampleCommand

end TypeCorpus
