import TypeCorpus.Proofs.Command.Contents

/-! How a run that writes samples ends, and what it prints. What is printed for an input is told by
the input and by the file system in which no sample is there yet, so what is wrong with one input is
told of and leaves the others as they are. The status is that of all of them: an input goes well if
it is a file, can be read, and has samples that can all be written. -/

namespace TypeCorpus

/-- The lines that are printed. -/
def Traced.lines {α : Type} (x : Traced Remark α) : List String := x.events.filterMap Remark.line?

namespace Traced

variable {α β : Type}

@[simp] theorem lines_pure (a : α) : (pure a : Traced Remark α).lines = [] := rfl

@[simp] theorem lines_bind (x : Traced Remark α) (f : α → Traced Remark β) :
    (x >>= f).lines = x.lines ++ (f x.value).lines := List.filterMap_append

@[simp] theorem lines_say (text : String) : (say text).lines = [text] := rfl

@[simp] theorem lines_report (e : Event) : (report e).lines = [] := rfl

@[simp] theorem lines_reporting (x : Traced Event α) : (reporting x).lines = [] := by
  simp [lines, reporting, List.filterMap_map, Function.comp_def, Remark.line?]

end Traced

namespace SampleCommand

open FileSystem

variable {r : Registry} {dir start input : String} {fs : FileSystem} {out : Location}
  {q : QualifiedName} {qs qs' : List QualifiedName}

/-! ### What is printed for an input -/

/-- The line for a sample that was written. -/
def sampleLine (q : QualifiedName) : String := "  " ++ q.logical ++ " -> " ++ fileName q

/-- The line for an input that went wrong. -/
def errorLine (input : String) (e : Failure) : String := "ERROR: " ++ input ++ ": " ++ e.message

/-- The lines from a sample on: a sample that cannot be written is the last one tried. -/
def linesFrom (dir input : String) (q : QualifiedName) (rest : List String) :
    Except FileError FileSystem → List String
  | .ok _ => sampleLine q :: rest
  | .error e => [errorLine input (.write (path dir q) e)]

/-- The lines for the samples of an input. -/
def sampleLines (r : Registry) (dir input : String) (fs : FileSystem) :
    List QualifiedName → List String
  | [] => []
  | q :: qs =>
    linesFrom dir input q (sampleLines r dir input fs qs) (fs.write (path dir q) (content r q))

/-- The lines for an input. -/
def inputLines (r : Registry) (dir start : String) (fs : FileSystem) (input : String) :
    List String :=
  match fs.loadDocument input with
  | .ok d => ("Processing " ++ input) :: sampleLines r dir input fs (d.chosen start)
  | .error e => [errorLine input (.document e)]

/-- The line for what came of an input, if it went wrong. -/
def failureLines (input : String) : Except Failure ℕ → List String
  | .ok _ => []
  | .error e => [errorLine input e]

theorem failureLines_map (input : String) (f : ℕ → ℕ) (result : Except Failure ℕ) :
    failureLines input (result.map f) = failureLines input result := by
  cases result <;> rfl

theorem lines_sample (r : Registry) (q : QualifiedName) : (sample r q).lines = [] := by
  simp only [sample, Traced.lines_bind, Traced.lines_reporting]
  split <;> simp

theorem lines_writeSample_of_ok {fs' : FileSystem}
    (h : fs.write (path dir q) (content r q) = .ok fs') :
    (writeSample r dir fs q).lines = [sampleLine q] := by
  rw [content] at h
  simp only [writeSample, Traced.lines_bind, lines_sample, value_sample, writeOutput_of_ok h]
  rfl

theorem lines_writeSample_of_error {e : FileError}
    (h : fs.write (path dir q) (content r q) = .error e) :
    (writeSample r dir fs q).lines = [] := by
  rw [content] at h
  simp only [writeSample, Traced.lines_bind, lines_sample, value_sample, writeOutput_of_error h]
  rfl

/-- What is written before makes no difference to why a sample cannot be written. -/
theorem write_stored_eq_error_iff (r : Registry) (hout : fs.outputPlace dir = .ok out)
    (hqs : ∀ q ∈ qs, takes fs dir q = true) {bytes : ByteArray} {e : FileError} :
    (stored r out fs qs).write (path dir q) bytes = .error e ↔
      fs.write (path dir q) bytes = .error e := by
  cases qs with
  | nil => exact Iff.rfl
  | cons q' qs =>
    have hhere := ((takes_iff hout).1 (hqs q' List.mem_cons_self)).directory
    exact (sameDirectories_stored r hout hqs).1.write_join_eq_error_iff (isEntryName_fileName q)
      hout hhere

/-- After samples that could be written, an input's samples are told of as before them. -/
theorem lines_writeSamples (hout : fs.outputPlace dir = .ok out) (input : String)
    (hqs : ∀ q ∈ qs, takes fs dir q = true) (qs' : List QualifiedName) :
    (writeSamples r dir (stored r out fs qs) qs').lines ++
      failureLines input (writeSamples r dir (stored r out fs qs) qs').value.result =
        sampleLines r dir input fs qs' := by
  induction qs' generalizing qs with
  | nil => rfl
  | cons q qs' ih =>
    obtain ⟨hsame, hout'⟩ := sameDirectories_stored r hout hqs
    rw [writeSamples, sampleLines]
    cases hwrite : (stored r out fs qs).write (path dir q) (content r q) with
    | error e =>
      rw [(write_stored_eq_error_iff r hout hqs).1 hwrite]
      simp only [Traced.lines_bind, Traced.value_bind, lines_writeSample_of_error hwrite,
        value_writeSample_of_error hwrite]
      rfl
    | ok made =>
      obtain ⟨htakes, rfl⟩ := (write_path_eq_ok_iff hout').1 hwrite
      rw [takes_eq_of_sameDirectories hsame.symm] at htakes
      have hwrite' : fs.write (path dir q) (content r q) =
          .ok (fs.put (out ++ [fileName q]) (.file (content r q))) :=
        (write_path_eq_ok_iff hout).2 ⟨htakes, rfl⟩
      have hmore : ∀ q' ∈ qs ++ [q], takes fs dir q' = true := by
        simpa [or_imp, forall_and] using ⟨hqs, htakes⟩
      have hstored : stored r out fs (qs ++ [q]) =
          (stored r out fs qs).put (out ++ [fileName q]) (.file (content r q)) :=
        stored_append r out fs qs [q]
      rw [hwrite', linesFrom, ← ih hmore, hstored]
      simp only [Traced.lines_bind, Traced.value_bind, lines_writeSample_of_ok hwrite,
        value_writeSample_of_ok hwrite, Traced.lines_pure, Traced.value_pure, failureLines_map,
        List.append_nil, List.cons_append, List.nil_append]

/-- After samples that lie elsewhere, an input is told of as before them. -/
theorem lines_processInput (hout : fs.outputPlace dir = .ok out)
    (hqs : ∀ q ∈ qs, takes fs dir q = true) (hinput : IsApart fs out qs input) (start : String) :
    (processInput r dir start (stored r out fs qs) input).lines ++
      failureLines input (processInput r dir start (stored r out fs qs) input).value.result =
        inputLines r dir start fs input := by
  rw [processInput, inputLines, hinput.loadDocument_stored r hout hqs]
  cases fs.loadDocument input with
  | error e => rfl
  | ok d =>
    simp only [Traced.lines_bind, Traced.lines_say, Traced.value_bind, List.append_assoc,
      lines_writeSamples hout input hqs]
    rfl

/-- An input that goes wrong is told of, and the run goes on. -/
theorem exists_processInputs_cons (r : Registry) (dir start : String) (p : Progress)
    (input : String) (inputs : List String) : ∃ p' : Progress,
      p'.files = (processInput r dir start p.files input).value.files ∧
      (processInputs r dir start p (input :: inputs)).lines =
        (processInput r dir start p.files input).lines ++
          failureLines input (processInput r dir start p.files input).value.result ++
            (processInputs r dir start p' inputs).lines := by
  rw [processInputs]
  cases hresult : (processInput r dir start p.files input).value.result with
  | ok n =>
    simp only [Traced.lines_bind, hresult]
    exact ⟨_, rfl, by rw [failureLines, List.append_nil]⟩
  | error e =>
    simp only [Traced.lines_bind, hresult]
    exact ⟨_, rfl, by rw [failureLines, List.append_assoc]; rfl⟩

/-- Inputs that are apart from all samples are told of one after the other, each as if alone. -/
theorem lines_processInputs {p : Progress} (hfiles : p.files = stored r out fs qs)
    (hout : fs.outputPlace dir = .ok out) (hqs : ∀ q ∈ qs, takes fs dir q = true)
    {inputs : List String}
    (hinputs : ∀ input ∈ inputs, IsApart fs out
      (qs ++ (inputs.map (part fs dir start)).flatMap Part.written) input) :
    (processInputs r dir start p inputs).lines = inputs.flatMap (inputLines r dir start fs) := by
  induction inputs generalizing p qs with
  | nil => rfl
  | cons input inputs ih =>
    obtain ⟨⟨place, bytes, hfile, hplace⟩, hrest⟩ := List.forall_mem_cons.1 hinputs
    have hinput : IsApart fs out qs input :=
      ⟨place, bytes, hfile, fun q hq => hplace q (List.mem_append_left _ hq)⟩
    obtain ⟨p', hfiles', hlines⟩ := exists_processInputs_cons r dir start p input inputs
    have hout' := (sameDirectories_stored r hout hqs).2
    rw [hfiles, (value_processInput hout' r start input).1, part_stored r hout hqs hinput,
      ← stored_append] at hfiles'
    have hmore : ∀ q ∈ qs ++ (part fs dir start input).written, takes fs dir q = true := by
      intro q hq
      rcases List.mem_append.1 hq with hq | hq
      · exact hqs q hq
      · exact takes_of_mem_written hq
    have hnext := ih hfiles' hmore fun input' hinput' => by
      rw [List.append_assoc, ← List.flatMap_cons]
      exact hrest input' hinput'
    rw [hlines, hfiles, lines_processInput hout hqs hinput, hnext, List.flatMap_cons]

/-! ### Runs -/

variable {c : SampleCommand} {settings : Settings}

/-- The lines of a run for an input. -/
def linesFor (c : SampleCommand) (settings : Settings) (fs : FileSystem) (input : String) :
    List String :=
  inputLines (c.registry settings fs) (c.directory settings) (c.beginning settings)
    (c.made settings fs) input

theorem lines_sayAll (line : String → String) (texts : List String) :
    (sayAll line texts).lines = texts.map line := by
  induction texts with
  | nil => rfl
  | cons text texts ih =>
    rw [sayAll, Traced.lines_bind, Traced.lines_say, ih]
    rfl

/-- A run whose output directory is made prints a line for each input that is missing, what it
prints for each of the others, and the summary. -/
theorem Apart.lines_run (h : c.Apart settings fs)
    (hmade : (fs.makeOutput (c.directory settings)).result = .ok ()) :
    (c.run settings fs).lines =
      (c.missing fs).map ("ERROR: input file not found: " ++ ·) ++
        (c.existing fs).flatMap (c.linesFor settings fs) ++
          [summary (c.done settings fs).written (c.existing fs).length
            (c.directory settings)] := by
  obtain ⟨out, hout⟩ := (fs.makeOutput_spec (c.directory settings)).2 hmade
  have hprocessed : (processInputs (c.registry settings fs) (c.directory settings)
      (c.beginning settings) (c.begun settings fs) (c.existing fs)).lines =
        (c.existing fs).flatMap (c.linesFor settings fs) :=
    lines_processInputs rfl hout (List.forall_mem_nil _) fun _ => h.isApart hout
  have hdirectory : (fs.makeOutput (c.output.getD settings.outputDirectory)).result = .ok () :=
    hmade
  simp only [run, Traced.lines_bind, Traced.lines_reporting, lines_sayAll, hdirectory,
    Traced.lines_say, Traced.lines_pure, List.append_nil, List.nil_append]
  rw [← hprocessed, List.append_assoc]
  rfl

/-- The sample of a structure can be written when the output directory has been made. -/
def Writes (c : SampleCommand) (settings : Settings) (fs : FileSystem) (q : QualifiedName) :
    Prop :=
  ∃ fs', (c.made settings fs).write (path (c.directory settings) q)
    (content (c.registry settings fs) q) = .ok fs'

/-- An input goes well: it is a file, it can be read, and all its samples can be written. -/
structure GoesWell (c : SampleCommand) (settings : Settings) (fs : FileSystem) (input : String) :
    Prop where
  isFile : fs.isFile input = true
  writes : ∃ d, fs.loadDocument input = .ok d ∧
    ∀ q ∈ d.chosen (c.beginning settings), c.Writes settings fs q

/-- A document is processed: the input is announced, the chosen structures up to the first whose
sample cannot be written are told of, and for each there is a sample of a structure with its file
name. -/
structure Processes (c : SampleCommand) (settings : Settings) (fs : FileSystem) (input : String)
    (d : Document) (done rest : List QualifiedName) (out : Location) : Prop where
  chosen_eq : d.chosen (c.beginning settings) = done ++ rest
  writes : ∀ q ∈ done, c.Writes settings fs q
  not_writes : ∀ q ∈ rest.head?, ¬ c.Writes settings fs q
  lines_eq : ∃ failure : List String, (rest = [] → failure = []) ∧
    c.linesFor settings fs input = ("Processing " ++ input) :: done.map sampleLine ++ failure
  stored : ∀ q ∈ done, ∃ q' ∈ c.planned settings fs, fileName q' = fileName q ∧
    (c.run settings fs).value.files.get? (out ++ [fileName q]) =
      some (.file (content (c.registry settings fs) q'))

theorem writes_iff (hout : (c.made settings fs).outputPlace (c.directory settings) = .ok out) :
    c.Writes settings fs q ↔ takes (c.made settings fs) (c.directory settings) q = true := by
  simp only [Writes, write_path_eq_ok_iff hout, exists_and_left, exists_eq, and_true]

/-- The part of an input is complete if it can be read and its samples can be written. -/
theorem complete_part_iff (hout : (c.made settings fs).outputPlace (c.directory settings) = .ok out)
    (hinput : input ∈ c.existing fs) :
    (part (c.made settings fs) (c.directory settings) (c.beginning settings) input).complete =
      true ↔ c.GoesWell settings fs input := by
  obtain ⟨place, bytes, hfile⟩ := exists_isFileAt hinput
  have hisFile : fs.isFile input = true := (List.mem_filter.1 hinput).2
  have hload := (isFileAt_made hfile c settings).2
  constructor
  · intro hcomplete
    refine ⟨hisFile, ?_⟩
    rw [part, hload] at hcomplete
    split at hcomplete
    · rename_i d hd
      have hall := List.takeWhile_eq_self_iff.1 (of_decide_eq_true hcomplete)
      exact ⟨d, hd, fun q hq => (writes_iff hout).2 (hall q hq)⟩
    · cases hcomplete
  · rintro ⟨-, d, hd, hwrites⟩
    rw [part, hload, hd]
    exact decide_eq_true
      (List.takeWhile_eq_self_iff.2 fun q hq => (writes_iff hout).1 (hwrites q hq))

theorem missing_eq_nil_iff :
    c.missing fs = [] ↔ ∀ input ∈ (fs.expandInputs c.inputs).value, fs.isFile input = true := by
  simp [missing, List.filter_eq_nil_iff]

/-- A run succeeds if all its inputs go well. -/
theorem Apart.succeeds_iff (h : c.Apart settings fs) (hends : c.Ends settings fs out) :
    (c.run settings fs).value.result = .ok .succeeded ↔
      ∀ input ∈ (fs.expandInputs c.inputs).value, c.GoesWell settings fs input := by
  have hout := hends.outputPlace_eq
  rw [hends.succeeds_iff, h.account_eq hout, missing_eq_nil_iff, plan, List.forall_mem_map]
  constructor
  · rintro ⟨hfiles, hparts⟩ input hinput
    have hexisting : input ∈ c.existing fs := List.mem_filter.2 ⟨hinput, hfiles input hinput⟩
    exact (complete_part_iff hout hexisting).1 (hparts input hexisting)
  · intro hwell
    refine ⟨fun input hinput => (hwell input hinput).isFile, fun input hexisting => ?_⟩
    exact (complete_part_iff hout hexisting).2 (hwell input (List.mem_filter.1 hexisting).1)

/-- The lines for samples are those of the ones that can be written, and what went wrong. -/
theorem exists_sampleLines_eq (hout : fs.outputPlace dir = .ok out) (r : Registry)
    (input : String) (qs : List QualifiedName) : ∃ failure : List String,
      (qs.dropWhile (takes fs dir) = [] → failure = []) ∧
        sampleLines r dir input fs qs = (taken fs dir qs).map sampleLine ++ failure := by
  induction qs with
  | nil => exact ⟨[], fun _ => rfl, rfl⟩
  | cons q qs ih =>
    rw [sampleLines, taken]
    cases hwrite : fs.write (path dir q) (content r q) with
    | error e =>
      have hnot : ¬ takes fs dir q = true := by
        intro h
        cases hwrite.symm.trans ((write_path_eq_ok_iff hout).2 ⟨h, rfl⟩)
      rw [List.takeWhile_cons_of_neg hnot, List.dropWhile_cons_of_neg hnot]
      exact ⟨_, fun h => absurd h (List.cons_ne_nil _ _), rfl⟩
    | ok made =>
      have htakes := ((write_path_eq_ok_iff hout).1 hwrite).1
      obtain ⟨failure, hnone, hlines⟩ := ih
      rw [List.takeWhile_cons_of_pos htakes, List.dropWhile_cons_of_pos htakes]
      exact ⟨failure, hnone, by rw [linesFrom, hlines]; rfl⟩

/-- Every input that can be read is processed, whatever becomes of the others. -/
theorem Apart.exists_processes (h : c.Apart settings fs) (hends : c.Ends settings fs out)
    (hinput : input ∈ (fs.expandInputs c.inputs).value) {d : Document}
    (hload : fs.loadDocument input = .ok d) :
    ∃ done rest, c.Processes settings fs input d done rest out := by
  have hout := hends.outputPlace_eq
  obtain ⟨-, place, bytes, -, hlocate, hget, -⟩ := loadDocument_eq_ok_iff.1 hload
  have hfile : fs.IsFileAt input place bytes := ⟨hlocate, hget⟩
  have hexisting : input ∈ c.existing fs :=
    List.mem_filter.2 ⟨hinput, isFile_iff.2 ⟨place, bytes, hfile⟩⟩
  have hmade := (isFileAt_made hfile c settings).2.trans hload
  obtain ⟨failure, hnone, hlines⟩ := exists_sampleLines_eq hout (c.registry settings fs) input
    (d.chosen (c.beginning settings))
  refine ⟨_, _, List.takeWhile_append_dropWhile.symm,
    fun q hq => (writes_iff hout).2 (List.mem_takeWhile_imp hq), fun q hq => ?_,
    ⟨failure, hnone, ?_⟩, fun q hq => ?_⟩
  · rw [writes_iff hout]
    have hstop := List.head?_dropWhile_not (takes (c.made settings fs) (c.directory settings))
      (d.chosen (c.beginning settings))
    rw [Option.mem_def.1 hq] at hstop
    simpa using hstop
  · rw [linesFor, inputLines, hmade]
    exact congrArg _ hlines
  · have hplanned : q ∈ c.planned settings fs := taken_subset_planned hexisting hload hq
    have hwritten : c.written settings fs out = c.planned settings fs := by
      rw [written, h.account_eq hout, planned]
    obtain ⟨front, q', back, hsplit, hname, -, hstored⟩ := exists_get?_stored
      (c.registry settings fs) out (c.made settings fs) (List.mem_map_of_mem hplanned)
    rw [hends.files_eq, hwritten]
    exact ⟨q', by rw [hsplit]; simp, hname, hstored⟩

/-- Whether a sample can be written does not depend on those that were written before. -/
theorem write_stored_iff (hout : (c.made settings fs).outputPlace (c.directory settings) = .ok out)
    (hqs : ∀ q ∈ qs, c.Writes settings fs q) :
    (∃ fs', (stored (c.registry settings fs) out (c.made settings fs) qs).write
      (path (c.directory settings) q) (content (c.registry settings fs) q) = .ok fs') ↔
        c.Writes settings fs q := by
  have htakes : ∀ q ∈ qs, takes (c.made settings fs) (c.directory settings) q = true :=
    fun q hq => (writes_iff hout).1 (hqs q hq)
  obtain ⟨hsame, hout'⟩ := sameDirectories_stored (c.registry settings fs) hout htakes
  simp only [writes_iff hout, write_path_eq_ok_iff hout', exists_and_left, exists_eq, and_true,
    takes_eq_of_sameDirectories hsame]

theorem code_eq_zero_iff {result : Except Failure Status} :
    result.map Status.code = .ok 0 ↔ result = .ok .succeeded := by
  rcases result with e | _ | _ <;> simp [Except.map, Status.code]

theorem code_eq_one_iff {result : Except Failure Status} :
    result.map Status.code = .ok 1 ↔ result = .ok .failed := by
  rcases result with e | _ | _ <;> simp [Except.map, Status.code]

/-- A run is ended early only by an output directory that cannot be made. Else, if no input lies in
the place of a sample, its code is zero exactly if every input is a file that can be read and whose
samples can be written, and one if not. An input that goes wrong is told of and changes nothing for
the others: what is printed for each is told by the input alone, and each that can be read is
processed. -/
theorem run_status (c : SampleCommand) (settings : Settings) (fs : FileSystem) :
    ((∃ e, (c.run settings fs).value.result = .error e) ↔
      ∃ e, (fs.makeOutput (c.directory settings)).result = .error e) ∧
    ((fs.makeOutput (c.directory settings)).result = .ok () → c.Apart settings fs →
      ((c.run settings fs).value.result.map Status.code = .ok 0 ↔
        ∀ input ∈ (fs.expandInputs c.inputs).value, c.GoesWell settings fs input) ∧
      ((c.run settings fs).value.result.map Status.code = .ok 1 ↔
        ¬ ∀ input ∈ (fs.expandInputs c.inputs).value, c.GoesWell settings fs input) ∧
      (c.run settings fs).lines =
        (c.missing fs).map ("ERROR: input file not found: " ++ ·) ++
          (c.existing fs).flatMap (c.linesFor settings fs) ++
            [summary (c.done settings fs).written (c.existing fs).length
              (c.directory settings)] ∧
      ∃ out, (c.made settings fs).outputPlace (c.directory settings) = .ok out ∧
        (∀ qs, (∀ q ∈ qs, c.Writes settings fs q) → ∀ q,
          (∃ fs', (stored (c.registry settings fs) out (c.made settings fs) qs).write
            (path (c.directory settings) q) (content (c.registry settings fs) q) = .ok fs') ↔
              c.Writes settings fs q) ∧
        ∀ input ∈ (fs.expandInputs c.inputs).value, ∀ d, fs.loadDocument input = .ok d →
          ∃ done rest, c.Processes settings fs input d done rest out) := by
  refine ⟨?_, fun hmade hapart => ?_⟩
  · cases hmade : (fs.makeOutput (c.directory settings)).result with
    | error e => exact iff_of_true ⟨e, by rw [run_of_error hmade]⟩ ⟨e, rfl⟩
    | ok =>
      refine iff_of_false (fun ⟨e, he⟩ => ?_) nofun
      rw [(run_of_ok hmade).1] at he
      cases he
  · obtain ⟨out, hout⟩ := (fs.makeOutput_spec (c.directory settings)).2 hmade
    have hends := ends_of_ok hmade hout
    have hsucceeds := hapart.succeeds_iff hends
    have hfails : (c.run settings fs).value.result = .ok .failed ↔
        ¬ (c.run settings fs).value.result = .ok .succeeded := by
      rw [hends.result_eq]
      split_ifs <;> simp
    refine ⟨code_eq_zero_iff.trans hsucceeds, ?_, hapart.lines_run hmade, out, hout,
      fun qs hqs q => write_stored_iff hout hqs,
      fun input hinput d hload => hapart.exists_processes hends hinput hload⟩
    rw [code_eq_one_iff, hfails, hsucceeds]

/-- A directory with a document that breaks off, one with a sample in whose place a directory lies,
and one that is whole. -/
def trials : FileSystem :=
  let documents := FileSystem.oneDirectory
    [("bad.xml", "<types>"),
     ("half.xml",
       "<types><module name='M'><struct name='C_A'/><struct name='C_B'/></module></types>"),
     ("whole.xml",
       "<types><module name='N'><struct name='C_A'/><struct name='C_C'/></module></types>")]
  (documents.put ["w", "o"] .directory).put ["w", "o", "M__C_B.json"] .directory

/-- A run over them, after an input that is missing. -/
def trial : SampleCommand :=
  { inputs := ["gone.xml", "bad.xml", "half.xml", "whole.xml"], output := some "o" }

/-- The run fails, and the last input is processed as if alone. -/
theorem run_status_trials :
    (trials.makeOutput (trial.directory {})).result = .ok () ∧ trial.Apart {} trials ∧
      (trial.run {} trials).value.result.map Status.code = .ok 1 ∧
      ["Processing whole.xml", "  N::C_A -> N__C_A.json", "  N::C_C -> N__C_C.json"] <:+:
        (trial.run {} trials).lines := by
  have hmade : (trials.makeOutput (trial.directory {})).result = .ok () := by decide +kernel
  have hplace : (trial.made {} trials).outputPlace (trial.directory {}) = .ok ["w", "o"] := by
    decide +kernel
  have hplanned : trial.planned {} trials = [.ofScope (some "M") "C_A", .ofScope (some "N") "C_A",
      .ofScope (some "N") "C_C"] := by decide +kernel
  have hapart : trial.Apart {} trials := by
    intro out hout
    rw [← Except.ok.inj (hplace.symm.trans hout), hplanned]
    decide +kernel
  obtain ⟨-, hfails, hlines, -⟩ := (run_status trial {} trials).2 hmade hapart
  have hwhole : trial.linesFor {} trials "whole.xml" =
      ["Processing whole.xml", "  N::C_A -> N__C_A.json", "  N::C_C -> N__C_C.json"] := by
    decide +kernel
  have hexisting : trial.existing trials = ["bad.xml", "half.xml"] ++ ["whole.xml"] := by
    decide +kernel
  refine ⟨hmade, hapart, hfails.2 fun hall => ?_, ?_⟩
  · exact absurd (hall "gone.xml" (by decide +kernel)).isFile (by decide +kernel)
  · rw [hlines, hexisting, List.flatMap_append, List.flatMap_singleton, hwhole,
      ← List.append_assoc]
    exact ⟨_, _, rfl⟩

end SampleCommand

end TypeCorpus
