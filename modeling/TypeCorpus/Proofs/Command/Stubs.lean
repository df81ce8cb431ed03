import TypeCorpus.Command.Stubs
import TypeCorpus.Proofs.Files.Output
import TypeCorpus.Proofs.Topic.Collection
import TypeCorpus.Proofs.Wire.Directory

/-! What a run that writes stubs changes. It reads two directories first, and whether that goes well
depends on the directories alone and not on what is in their files. If it does not, or if there is
nothing to publish, every file and directory stays as it was. Otherwise directories are made on the
way to the output directory, and the header and the source are written for the same topics and wire
structures; only an operation of these that fails can end the run early. -/

namespace TypeCorpus

namespace FileSystem

variable {fs : FileSystem} {dir : String}

/-- Topics are collected from whatever is a directory. -/
theorem exists_collectTopics_iff :
    (∃ topics, fs.collectTopics dir = .ok topics) ↔ fs.isDirectory dir = true := by
  rw [collectTopics, schemaFiles]
  split_ifs with hdir
  · obtain ⟨files, hfiles⟩ := fs.exists_filesWith (ne_empty_of_isDirectory hdir) isPlain_of_mem_xml
    rw [hfiles]
    exact iff_of_true ⟨_, rfl⟩ hdir
  · refine iff_of_false ?_ hdir
    rintro ⟨found, hfound⟩
    cases hfound

/-- Headers are scanned in whatever is a directory. -/
theorem exists_scanHeaders_iff :
    (∃ scan, fs.scanHeaders dir = .ok scan) ↔ fs.isDirectory dir = true := by
  rw [scanHeaders, headerFiles]
  split_ifs with hdir
  · obtain ⟨files, hfiles⟩ := fs.exists_filesWith (ne_empty_of_isDirectory hdir) isPlain_of_mem_h
    rw [hfiles]
    exact iff_of_true ⟨_, rfl⟩ hdir
  · refine iff_of_false ?_ hdir
    rintro ⟨found, hfound⟩
    cases hfound

end FileSystem

namespace StubsCommand

open FileSystem

variable {c : StubsCommand} {settings : Settings} {fs fs' : FileSystem} {s : Subjects}
  {e : Failure} {pre : String}

/-! ### Reading -/

/-- What the scan for wire structures finds, if there is a directory for it. -/
inductive Scans (fs : FileSystem) : Option String → HeaderScan → Prop
  | nothing : Scans fs none {}
  | directory {dir : String} {scan : Traced Event HeaderScan} : fs.scanHeaders dir = .ok scan →
      Scans fs (some dir) scan.value

/-- What there is to publish. -/
structure Collects (c : StubsCommand) (fs : FileSystem) (s : Subjects) : Prop where
  topics : ∃ topics, fs.collectTopics c.xmlDirectory = .ok topics ∧ topics.value = s.topics
  scan : Scans fs c.structDirectory s.scan

/-- Collecting the topics fails, or the scan after it. -/
inductive Misses (c : StubsCommand) (fs : FileSystem) : Failure → Prop
  | topics {e : SchemaError} : fs.collectTopics c.xmlDirectory = .error e →
      Misses c fs (.topics c.xmlDirectory e)
  | headers {topics : Traced Event (List Topic)} {dir : String} {e : HeaderError} :
      fs.collectTopics c.xmlDirectory = .ok topics → c.structDirectory = some dir →
        fs.scanHeaders dir = .error e → Misses c fs (.headers dir e)

/-- The directories to be read are there. -/
structure FindsDirectories (c : StubsCommand) (fs : FileSystem) : Prop where
  topics : fs.isDirectory c.xmlDirectory = true
  scan : ∀ dir, c.structDirectory = some dir → fs.isDirectory dir = true

/-- What there is to publish is in the documents and the headers that can be read; the others are
left out. -/
structure Reads (c : StubsCommand) (fs : FileSystem) (s : Subjects) : Prop where
  topics : ∃ files, fs.schemaFiles c.xmlDirectory = .ok files ∧
    s.topics = topicsOf (fs.documentsAt files)
  scan : ∀ dir, c.structDirectory = some dir → ∃ files, fs.headerFiles dir = .ok files ∧
    s.scan.wires = firsts WireStruct.full [] (fs.wiresAt files) ∧
      s.scan.headers = (fs.headersAt files).map Prod.fst

/-- The topics are collected and the scan is made, or one of the two fails. -/
theorem collects_or_misses (c : StubsCommand) (fs : FileSystem) :
    (∃ s, c.Collects fs s) ∨ ∃ e, c.Misses fs e := by
  cases htopics : fs.collectTopics c.xmlDirectory with
  | error e => exact .inr ⟨_, .topics htopics⟩
  | ok topics =>
    cases hdir : c.structDirectory with
    | none => exact .inl ⟨⟨topics.value, {}⟩, ⟨_, htopics, rfl⟩, hdir ▸ .nothing⟩
    | some dir =>
      cases hscan : fs.scanHeaders dir with
      | error e => exact .inr ⟨_, .headers htopics hdir hscan⟩
      | ok scan =>
        exact .inl ⟨⟨topics.value, scan.value⟩, ⟨_, htopics, rfl⟩, hdir ▸ .directory hscan⟩

namespace Misses

theorem value_subjects (h : c.Misses fs e) : (c.subjects fs).value = .error e := by
  cases h with
  | topics htopics => rw [subjects, htopics, Traced.value_pure]
  | headers htopics hdir hscan =>
    simp only [subjects, htopics, hdir, readHeaders, hscan, Except.mapError, Traced.value_bind,
      Traced.value_pure]

theorem not_findsDirectories (h : c.Misses fs e) : ¬ c.FindsDirectories fs := by
  intro hfinds
  cases h with
  | topics herror =>
    obtain ⟨topics, hok⟩ := exists_collectTopics_iff.2 hfinds.topics
    cases herror.symm.trans hok
  | headers _ hdir herror =>
    obtain ⟨scan, hok⟩ := exists_scanHeaders_iff.2 (hfinds.scan _ hdir)
    cases herror.symm.trans hok

end Misses

theorem Scans.exists_scanHeaders {dir : String} {found : HeaderScan}
    (h : Scans fs (some dir) found) :
    ∃ scan, fs.scanHeaders dir = .ok scan ∧ scan.value = found := by
  cases h with
  | directory hscan => exact ⟨_, hscan, rfl⟩

namespace Collects

theorem value_subjects (h : c.Collects fs s) : (c.subjects fs).value = .ok s := by
  obtain ⟨⟨topics, htopics, hvalue⟩, hscan⟩ := h
  obtain ⟨published, found⟩ := s
  cases hvalue
  cases hdir : c.structDirectory with
  | none =>
    rw [hdir] at hscan
    cases hscan
    simp only [subjects, htopics, hdir, readHeaders, Traced.value_bind, Traced.value_map,
      Traced.value_pure]
  | some dir =>
    rw [hdir] at hscan
    obtain ⟨scan, hok, rfl⟩ := hscan.exists_scanHeaders
    simp only [subjects, htopics, hdir, readHeaders, hok, Except.mapError, Traced.value_bind,
      Traced.value_map]

theorem unique {s' : Subjects} (h : c.Collects fs s) (h' : c.Collects fs s') : s = s' :=
  Except.ok.inj (h.value_subjects.symm.trans h'.value_subjects)

theorem findsDirectories (h : c.Collects fs s) : c.FindsDirectories fs := by
  obtain ⟨⟨topics, htopics, -⟩, hscan⟩ := h
  refine ⟨exists_collectTopics_iff.1 ⟨_, htopics⟩, fun dir hdir => ?_⟩
  obtain ⟨scan, hscan, -⟩ := (hdir ▸ hscan : Scans fs (some dir) s.scan).exists_scanHeaders
  exact exists_scanHeaders_iff.1 ⟨_, hscan⟩

theorem reads (h : c.Collects fs s) : c.Reads fs s := by
  obtain ⟨⟨topics, htopics, hvalue⟩, hscan⟩ := h
  refine ⟨?_, fun dir hdir => ?_⟩
  · cases hfiles : fs.schemaFiles c.xmlDirectory with
    | error e =>
      rw [collectTopics, hfiles] at htopics
      cases htopics
    | ok files =>
      obtain ⟨topics', htopics', hvalue'⟩ := collectTopics_eq hfiles
      cases htopics.symm.trans htopics'
      exact ⟨files, rfl, hvalue.symm.trans hvalue'⟩
  · obtain ⟨scan, hscan, hfound⟩ := (hdir ▸ hscan : Scans fs (some dir) s.scan).exists_scanHeaders
    cases hfiles : fs.headerFiles dir with
    | error e =>
      rw [scanHeaders, hfiles] at hscan
      cases hscan
    | ok files =>
      obtain ⟨scan', hscan', hwires, hheaders⟩ := FileSystem.exists_scanHeaders hfiles
      cases hscan.symm.trans hscan'
      exact ⟨files, rfl, hfound ▸ hwires, hfound ▸ hheaders⟩

end Collects

/-! ### Writing -/

def headerPath (c : StubsCommand) (pre : String) : String := Path.join c.output (pre ++ "_api.h")

def sourcePath (c : StubsCommand) (pre : String) : String := Path.join c.output (pre ++ "_api.c")

def Subjects.header (s : Subjects) (pre : String) : String :=
  Stub.renderHeader pre s.topics s.scan.wires s.scan.headers

def Subjects.source (s : Subjects) (pre : String) : String :=
  Stub.renderSource pre s.topics s.scan.wires

/-- The output directory is made, then the header is written and then the source. -/
inductive Writes (c : StubsCommand) (pre : String) (s : Subjects) (fs fs' : FileSystem) : Prop
  | intro {made written : FileSystem} (hmade : fs.makeDirectories c.output = (made, .ok ()))
      (hheader : made.write (c.headerPath pre) (s.header pre).toUTF8 = .ok written)
      (hsource : written.write (c.sourcePath pre) (s.source pre).toUTF8 = .ok fs')

/-- One of these operations fails after those before it went well. What they made is left, and the
failure tells which one it was. -/
inductive Stops (c : StubsCommand) (pre : String) (s : Subjects) (fs : FileSystem) :
    FileSystem → Failure → Prop
  | outputDirectory {left : FileSystem} {e : FileError}
      (hmade : fs.makeDirectories c.output = (left, .error e)) :
      Stops c pre s fs left (.outputDirectory c.output e)
  | header {made : FileSystem} {e : FileError}
      (hmade : fs.makeDirectories c.output = (made, .ok ()))
      (hheader : made.write (c.headerPath pre) (s.header pre).toUTF8 = .error e) :
      Stops c pre s fs made (.write (c.headerPath pre) e)
  | source {made written : FileSystem} {e : FileError}
      (hmade : fs.makeDirectories c.output = (made, .ok ()))
      (hheader : made.write (c.headerPath pre) (s.header pre).toUTF8 = .ok written)
      (hsource : written.write (c.sourcePath pre) (s.source pre).toUTF8 = .error e) :
      Stops c pre s fs written (.write (c.sourcePath pre) e)

/-- Whether writing goes well is up to its three operations. -/
theorem writes_or_stops (c : StubsCommand) (pre : String) (s : Subjects) (fs : FileSystem) :
    (∃ fs', c.Writes pre s fs fs') ∨ ∃ left e, c.Stops pre s fs left e := by
  cases hmade : fs.makeDirectories c.output with
  | mk made result =>
    cases result with
    | error e => exact .inr ⟨made, _, .outputDirectory hmade⟩
    | ok =>
      cases hheader : made.write (c.headerPath pre) (s.header pre).toUTF8 with
      | error e => exact .inr ⟨made, _, .header hmade hheader⟩
      | ok written =>
        cases hsource : written.write (c.sourcePath pre) (s.source pre).toUTF8 with
        | error e => exact .inr ⟨written, _, .source hmade hheader hsource⟩
        | ok fs' => exact .inl ⟨fs', hmade, hheader, hsource⟩

/-- With the directory made it comes down to the two files. -/
theorem value_write_of_made {made : FileSystem}
    (hmade : fs.makeDirectories c.output = (made, .ok ())) (pre : String) (s : Subjects) :
    (c.write pre fs s).value =
      let header := (c.headerPath pre, s.header pre)
      let written := writeBoth made header (c.sourcePath pre, s.source pre)
      ⟨written.files, written.result.map fun _ => .succeeded⟩ := by
  rw [headerPath, sourcePath, Subjects.header, Subjects.source]
  simp only [write, makeOutput_of_ok hmade]
  generalize writeBoth made _ _ = written
  cases hresult : written.result with
  | error e => rfl
  | ok => rfl

theorem Writes.value_write (h : c.Writes pre s fs fs') :
    (c.write pre fs s).value = ⟨fs', .ok .succeeded⟩ := by
  obtain ⟨hmade, hheader, hsource⟩ := h
  simp only [value_write_of_made hmade, writeBoth, writeOutput_of_ok hheader,
    writeOutput_of_ok hsource, Except.map]

theorem Stops.value_write {left : FileSystem} (h : c.Stops pre s fs left e) :
    (c.write pre fs s).value = ⟨left, .error e⟩ := by
  cases h with
  | outputDirectory hmade => simp only [write, makeOutput_of_error hmade, Traced.value_pure]
  | header hmade hheader =>
    simp only [value_write_of_made hmade, writeBoth, writeOutput_of_error hheader, Except.map]
  | source hmade hheader hsource =>
    simp only [value_write_of_made hmade, writeBoth, writeOutput_of_ok hheader,
      writeOutput_of_error hsource, Except.map]

/-! ### What is written -/

/-- Where something may change: at the two files, and on the way to the directory for them. -/
def touched (c : StubsCommand) (pre : String) : List String :=
  [c.headerPath pre, c.sourcePath pre] ++ Path.ancestors c.output

theorem changesAt_of_made {result : Except FileError Unit}
    (hmade : fs.makeDirectories c.output = (fs', result)) (pre : String) :
    ChangesAt fs fs' (c.touched pre) := by
  have hchanges := fs.changesAt_makeOutput c.output
  rw [makeOutput, hmade] at hchanges
  exact hchanges.mono (List.subset_append_right _ _)

theorem changesAt_of_write {path : String} {content : ByteArray}
    (hpath : path ∈ c.touched pre) (hwrite : fs.write path content = .ok fs') :
    ChangesAt fs fs' (c.touched pre) := by
  obtain ⟨place, hwrote⟩ := exists_wrote hwrite
  exact hwrote.changesAt.mono (List.cons_subset.2 ⟨hpath, List.nil_subset _⟩)

theorem headerPath_mem_touched (c : StubsCommand) (pre : String) :
    c.headerPath pre ∈ c.touched pre := by simp [touched]

theorem sourcePath_mem_touched (c : StubsCommand) (pre : String) :
    c.sourcePath pre ∈ c.touched pre := by simp [touched]

theorem Writes.changesAt (h : c.Writes pre s fs fs') : ChangesAt fs fs' (c.touched pre) := by
  obtain ⟨hmade, hheader, hsource⟩ := h
  exact ((changesAt_of_made hmade pre).trans
    (changesAt_of_write (c.headerPath_mem_touched pre) hheader)).trans
      (changesAt_of_write (c.sourcePath_mem_touched pre) hsource)

theorem Stops.changesAt {left : FileSystem} (h : c.Stops pre s fs left e) :
    ChangesAt fs left (c.touched pre) := by
  cases h with
  | outputDirectory hmade => exact changesAt_of_made hmade pre
  | header hmade _ => exact changesAt_of_made hmade pre
  | source hmade hheader _ =>
    exact (changesAt_of_made hmade pre).trans
      (changesAt_of_write (c.headerPath_mem_touched pre) hheader)

/-- What is there after a run that wrote the stubs of some subjects. The two files are in different
places; everywhere else there is what was there before, except for directories that were missing on
the way to the output directory. -/
structure Publishes (c : StubsCommand) (pre : String) (s : Subjects) (fs fs' : FileSystem)
    (header source : Location) : Prop where
  header_at : fs'.locate (c.headerPath pre) = .ok header
  source_at : fs'.locate (c.sourcePath pre) = .ok source
  apart : header ≠ source
  header_eq : fs'.get? header =
    some (.file (Stub.renderHeader pre s.topics s.scan.wires s.scan.headers).toUTF8)
  source_eq : fs'.get? source =
    some (.file (Stub.renderSource pre s.topics s.scan.wires).toUTF8)
  output : c.output = "" ∨ fs'.isDirectory c.output = true
  workingDirectory : fs.workingDirectory = fs'.workingDirectory
  elsewhere : ∀ place, place ≠ header → place ≠ source → fs'.get? place = fs.get? place ∨
    fs.get? place = none ∧ fs'.get? place = some .directory ∧
      ∃ path ∈ Path.ancestors c.output, fs'.locate path = .ok place

/-- The names of the two files end in different letters. -/
theorem header_ne_source {fs₁ fs₂ fs₃ : FileSystem} {header source : Location}
    {text text' : ByteArray} (hheader : fs₁.Wrote fs₂ (c.headerPath pre) text header)
    (hsource : fs₂.Wrote fs₃ (c.sourcePath pre) text' source) : header ≠ source := by
  have hh : ['h'] <:+ (c.headerPath pre).toList :=
    .trans ⟨(pre ++ "_api.").toList, by simp⟩ (Path.suffix_join c.output (pre ++ "_api.h"))
  have hc : ['c'] <:+ (c.sourcePath pre).toList :=
    .trans ⟨(pre ++ "_api.").toList, by simp⟩ (Path.suffix_join c.output (pre ++ "_api.c"))
  rintro rfl
  obtain ⟨name, hname, hends⟩ := hheader.ending ['h'] (by decide) hh
  obtain ⟨name', hname', hends'⟩ := hsource.ending ['c'] (by decide) hc
  cases hname.symm.trans hname'
  have hsame : ['h'] <:+ ['c'] := List.suffix_of_suffix_length_le hends hends' le_rfl
  cases hsame.eq_of_length rfl

/-- The header is kept when the source is written after it. -/
theorem Writes.exists_publishes (h : c.Writes pre s fs fs') :
    ∃ header source, c.Publishes pre s fs fs' header source := by
  obtain ⟨hmade, hheader, hsource⟩ := h
  obtain ⟨header, hheader⟩ := exists_wrote hheader
  obtain ⟨source, hsource⟩ := exists_wrote hsource
  have hout := makeOutput_of_ok hmade
  have hapart := header_ne_source hheader hsource
  have hheader_eq := (hsource.get?_of_ne hapart).trans hheader.get?_self
  have hheader_at := hsource.sameDirectories.locate_eq hheader.locate_eq
    (by rw [hheader_eq]; rfl)
  have hdirs := hheader.sameDirectories.trans hsource.sameDirectories
  have hdir := isDirectory_makeOutput (congrArg Outcome.result hout)
  have hworking := (fs.makes_makeOutput c.output).adds.workingDirectory
  rw [hout] at hdir hworking
  refine ⟨header, source, hheader_at, hsource.locate_eq, hapart, hheader_eq, hsource.get?_self,
    hdir.imp_right hdirs.isDirectory_of_isDirectory, hworking.trans hdirs.workingDirectory,
    fun place hplace hplace' => ?_⟩
  have hsame := (hsource.get?_of_ne hplace').trans (hheader.get?_of_ne hplace)
  have hway := fs.get?_makeOutput c.output place
  rw [hout] at hway
  rcases hway with heq | ⟨hnone, hnew, path, hpath, hlocate⟩
  · exact .inl (hsame.trans heq)
  · exact .inr ⟨hnone, hsame.trans hnew, path, hpath,
      hdirs.locate_eq hlocate (by rw [hsame, hnew]; rfl)⟩

/-! ### Runs -/

/-- The ways in which a run ends: reading fails, there is nothing to publish, an operation of
writing fails, or the stubs are written. -/
inductive Ends (c : StubsCommand) (pre : String) (fs : FileSystem) : Outcome Status → Prop
  | missing {e : Failure} (hmisses : c.Misses fs e) : Ends c pre fs ⟨fs, .error e⟩
  | nothing {s : Subjects} (hcollects : c.Collects fs s)
      (hnothing : s.topics = [] ∧ s.scan.wires = []) : Ends c pre fs ⟨fs, .ok .failed⟩
  | stopped {s : Subjects} {left : FileSystem} {e : Failure} (hcollects : c.Collects fs s)
      (hsome : ¬ (s.topics = [] ∧ s.scan.wires = [])) (hstops : c.Stops pre s fs left e) :
      Ends c pre fs ⟨left, .error e⟩
  | written {s : Subjects} {left : FileSystem} (hcollects : c.Collects fs s)
      (hsome : ¬ (s.topics = [] ∧ s.scan.wires = [])) (hwrites : c.Writes pre s fs left) :
      Ends c pre fs ⟨left, .ok .succeeded⟩

theorem Misses.value_run (h : c.Misses fs e) (settings : Settings) :
    (c.run settings fs).value = ⟨fs, .error e⟩ := by
  simp only [run, reporting, Traced.value_bind, Traced.value_mapEvents, h.value_subjects,
    Traced.value_pure]

theorem Collects.value_run (h : c.Collects fs s) (settings : Settings) :
    (c.run settings fs).value = if s.topics = [] ∧ s.scan.wires = [] then ⟨fs, .ok .failed⟩
      else (c.write (c.apiPrefix.getD settings.apiPrefix) fs s).value := by
  simp only [run, reporting, Traced.value_bind, Traced.value_mapEvents, h.value_subjects,
    Bool.and_eq_true, List.isEmpty_iff]
  split_ifs <;> rfl

theorem Ends.value_run {o : Outcome Status} (settings : Settings)
    (h : c.Ends (c.apiPrefix.getD settings.apiPrefix) fs o) : (c.run settings fs).value = o := by
  cases h with
  | missing hmisses => exact hmisses.value_run settings
  | nothing hcollects hnothing => rw [hcollects.value_run, if_pos hnothing]
  | stopped hcollects hsome hstops => rw [hcollects.value_run, if_neg hsome, hstops.value_write]
  | written hcollects hsome hwrites => rw [hcollects.value_run, if_neg hsome, hwrites.value_write]

theorem exists_ends (c : StubsCommand) (pre : String) (fs : FileSystem) :
    ∃ o, c.Ends pre fs o := by
  rcases c.collects_or_misses fs with ⟨s, hcollects⟩ | ⟨e, hmisses⟩
  · by_cases hnothing : s.topics = [] ∧ s.scan.wires = []
    · exact ⟨_, .nothing hcollects hnothing⟩
    · rcases c.writes_or_stops pre s fs with ⟨left, hwrites⟩ | ⟨left, e, hstops⟩
      · exact ⟨_, .written hcollects hnothing hwrites⟩
      · exact ⟨_, .stopped hcollects hnothing hstops⟩
  · exact ⟨_, .missing hmisses⟩

theorem value_run_eq_iff {o : Outcome Status} :
    (c.run settings fs).value = o ↔ c.Ends (c.apiPrefix.getD settings.apiPrefix) fs o := by
  refine ⟨?_, Ends.value_run settings⟩
  rintro rfl
  obtain ⟨o, hends⟩ := c.exists_ends (c.apiPrefix.getD settings.apiPrefix) fs
  rwa [hends.value_run settings]

namespace Ends

variable {o : Outcome Status}

theorem failed_iff (h : c.Ends pre fs o) :
    o.result = .ok .failed ↔ ∃ s, c.Collects fs s ∧ s.topics = [] ∧ s.scan.wires = [] := by
  cases h with
  | missing hmisses =>
    exact iff_of_false nofun fun ⟨s, hcollects, _⟩ =>
      hmisses.not_findsDirectories hcollects.findsDirectories
  | nothing hcollects hnothing => exact iff_of_true rfl ⟨_, hcollects, hnothing⟩
  | stopped hcollects hsome _ =>
    exact iff_of_false nofun fun ⟨s, h, hnothing⟩ => hsome (hcollects.unique h ▸ hnothing)
  | written hcollects hsome _ =>
    exact iff_of_false nofun fun ⟨s, h, hnothing⟩ => hsome (hcollects.unique h ▸ hnothing)

theorem files_of_failed (h : c.Ends pre fs o) (hfailed : o.result = .ok .failed) :
    o.files = fs := by
  cases h with
  | nothing _ _ => rfl
  | _ => cases hfailed

theorem exists_publishes (h : c.Ends pre fs o) (hsucceeded : o.result = .ok .succeeded) :
    ∃ s header source, c.Collects fs s ∧ c.Publishes pre s fs o.files header source := by
  cases h with
  | written hcollects _ hwrites =>
    obtain ⟨header, source, hpublishes⟩ := hwrites.exists_publishes
    exact ⟨_, header, source, hcollects, hpublishes⟩
  | _ => cases hsucceeded

/-- Where the directories are there, only writing can fail. -/
theorem exists_stops (h : c.Ends pre fs o) (hfinds : c.FindsDirectories fs)
    (herror : o.result = .error e) : ∃ s, c.Collects fs s ∧ c.Stops pre s fs o.files e := by
  cases h with
  | missing hmisses => exact absurd hfinds hmisses.not_findsDirectories
  | nothing _ _ => cases herror
  | stopped hcollects _ hstops =>
    cases herror
    exact ⟨_, hcollects, hstops⟩
  | written _ _ _ => cases herror

theorem changesAt (h : c.Ends pre fs o) : ChangesAt fs o.files (c.touched pre) := by
  cases h with
  | missing _ => exact .refl fs _
  | nothing _ _ => exact .refl fs _
  | stopped _ _ hstops => exact hstops.changesAt
  | written _ _ hwrites => exact hwrites.changesAt

end Ends

theorem exists_collects_iff : (∃ s, c.Collects fs s) ↔ c.FindsDirectories fs :=
  ⟨fun ⟨_, h⟩ => h.findsDirectories, fun hfinds =>
    (c.collects_or_misses fs).resolve_right fun ⟨_, h⟩ => h.not_findsDirectories hfinds⟩

theorem exists_misses_iff : (∃ e, c.Misses fs e) ↔ ¬ c.FindsDirectories fs :=
  ⟨fun ⟨_, h⟩ => h.not_findsDirectories, fun hnot =>
    (c.collects_or_misses fs).resolve_left fun ⟨_, h⟩ => hnot h.findsDirectories⟩

/-- Reading goes well exactly where the directories are there, whatever is in them: documents and
headers that cannot be read are left out. A run ends in one of four ways and the file system tells
in which. One that fails at reading leaves everything as it was, and so does one that has nothing to
publish, which alone has the status of a failure; any other run succeeds, unless the output
directory cannot be made or one of the two files cannot be written. A run that succeeds leaves a
header and a source for the same topics and wire structures, and apart from them only directories on
the way to the output directory are new. However a run ends, nothing changes elsewhere. -/
theorem run_changes (c : StubsCommand) (settings : Settings) (fs : FileSystem) :
    let after := (c.run settings fs).value
    let pre := c.apiPrefix.getD settings.apiPrefix
    ((∃ s, c.Collects fs s) ↔ c.FindsDirectories fs) ∧
    ((∃ e, c.Misses fs e) ↔ ¬ c.FindsDirectories fs) ∧
    (∀ s, c.Collects fs s → c.Reads fs s) ∧
    (∀ o, after = o ↔ c.Ends pre fs o) ∧
    (∀ e, c.Misses fs e → after = ⟨fs, .error e⟩) ∧
    (after.result = .ok .failed ↔ ∃ s, c.Collects fs s ∧ s.topics = [] ∧ s.scan.wires = []) ∧
    (after.result = .ok .failed → after.files = fs) ∧
    (after.result = .ok .succeeded → ∃ s header source,
      c.Collects fs s ∧ c.Publishes pre s fs after.files header source) ∧
    (c.FindsDirectories fs → ∀ e, after.result = .error e →
      ∃ s, c.Collects fs s ∧ c.Stops pre s fs after.files e) ∧
    ChangesAt fs after.files (c.touched pre) := by
  intro after pre
  have hends : c.Ends pre fs after := value_run_eq_iff.1 rfl
  exact ⟨exists_collects_iff, exists_misses_iff, fun s h => h.reads, fun o => value_run_eq_iff,
    fun e h => h.value_run settings, hends.failed_iff, hends.files_of_failed,
    hends.exists_publishes, fun hfinds e => hends.exists_stops hfinds, hends.changesAt⟩

/-! ### A run beside files that cannot be read -/

/-- A document and a header, a document that breaks off, and a header that is no text. -/
def brokenBeside : FileSystem :=
  (oneDirectory [("a.h", "typedef struct Wire_P_Mode m;"),
    ("a.xml", "<types><module name='P'><struct name='C_Speed'/></module></types>"),
    ("b.xml", "<types><module name='P'>")]).put ["w", "x.h"] (.file ⟨#[0xff]⟩)

theorem wellFormed_brokenBeside : brokenBeside.WellFormed where
  nodup := by decide +kernel
  isName := by decide +kernel
  parent := by decide +kernel
  workingDirectory := rfl

theorem names_brokenBeside : brokenBeside.names ["w"] = ["a.h", "a.xml", "b.xml", "x.h"] := by
  have hnames : brokenBeside.entries.keys.filterMap (nameIn ["w"]) =
      ["a.h", "a.xml", "b.xml", "x.h"] := by decide +kernel
  rw [names, hnames, List.mergeSort_of_pairwise (by decide)]

theorem schemaFiles_brokenBeside :
    brokenBeside.schemaFiles "/w" = .ok ["/w/a.xml", "/w/b.xml"] := by
  have hpath : absolutePath ["w"] = "/w" := by decide
  have hentries : brokenBeside.entriesWith ["w"] "xml" = ["/w/a.xml", "/w/b.xml"] := by
    rw [entriesWith, names_brokenBeside]
    decide +kernel
  rw [← hpath, wellFormed_brokenBeside.schemaFiles_absolutePath rfl (by decide), hentries]
  decide +kernel

theorem headerFiles_brokenBeside :
    brokenBeside.headerFiles "/w" = .ok ["/w/a.h", "/w/x.h"] := by
  have hpath : absolutePath ["w"] = "/w" := by decide
  have hentries : brokenBeside.entriesWith ["w"] "h" = ["/w/a.h", "/w/x.h"] := by
    rw [entriesWith, names_brokenBeside]
    decide +kernel
  refine headerFiles_eq_ok_iff.2
    ⟨hpath ▸ wellFormed_brokenBeside.isDirectory_absolutePath rfl (by decide), ?_⟩
  rw [← hpath, wellFormed_brokenBeside.filesWith_absolutePath rfl (by decide) isPlain_of_mem_h,
    hentries]
  decide +kernel

/-- A run over that directory, for an output directory that lacks its parent. -/
def publishing : StubsCommand :=
  { xmlDirectory := "/w", structDirectory := some "/w", output := "o/p", apiPrefix := some "car" }

/-- What the document and the header that can be read hold. -/
def published : Subjects where
  topics := [⟨.ofScope (some "P") "C_Speed"⟩]
  scan := { wires := [.guessed "P_Mode" "a.h"], headers := ["a.h"] }

theorem collects_publishing : publishing.Collects brokenBeside published := by
  obtain ⟨topics, htopics, htopics_eq⟩ := collectTopics_eq schemaFiles_brokenBeside
  obtain ⟨⟨⟨wires, headers⟩, events⟩, hscan, hwires, hheaders⟩ :=
    exists_scanHeaders headerFiles_brokenBeside
  have hdocuments : (brokenBeside.documentsAt ["/w/a.xml", "/w/b.xml"]).flatMap Document.topics =
      published.topics := by decide +kernel
  have hfirsts : firsts WireStruct.full [] (brokenBeside.wiresAt ["/w/a.h", "/w/x.h"]) =
      published.scan.wires := by decide +kernel
  have hnames : (brokenBeside.headersAt ["/w/a.h", "/w/x.h"]).map Prod.fst =
      published.scan.headers := by decide +kernel
  have hfound : ⟨wires, headers⟩ = published.scan :=
    congrArg₂ HeaderScan.mk (hwires.trans hfirsts) (hheaders.trans hnames)
  refine ⟨⟨topics, htopics, ?_⟩, hfound ▸ .directory hscan⟩
  rw [htopics_eq, topicsOf, hdocuments, Topic.sorted, List.mergeSort_of_pairwise (by decide)]
  rfl

/-- Both files are there for what could be read. -/
theorem run_changes_beside_broken :
    (publishing.run {} brokenBeside).value.result = .ok .succeeded ∧
      ∃ header source, publishing.Publishes "car" published brokenBeside
        (publishing.run {} brokenBeside).value.files header source := by
  have hwrites : (publishing.write "car" brokenBeside published).value.result =
      .ok .succeeded := by decide +kernel
  have hresult : (publishing.run {} brokenBeside).value.result = .ok .succeeded := by
    rw [collects_publishing.value_run, if_neg (by decide)]
    exact hwrites
  obtain ⟨-, -, -, -, -, -, -, hsucceeds, -⟩ := run_changes publishing {} brokenBeside
  obtain ⟨s, header, source, hcollects, hpublishes⟩ := hsucceeds hresult
  obtain rfl := hcollects.unique collects_publishing
  exact ⟨hresult, header, source, hpublishes⟩

end StubsCommand

end TypeCorpus
