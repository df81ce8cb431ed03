import TypeCorpus.Proofs.Corpus
import TypeCorpus.Proofs.Files.Enumeration

/-! Scans of directories. The documents of a directory are read in the order of their paths. A file
that is no document makes no difference to the registry, whether it is there or not and whatever is
in it. Several directories are scanned one after the other, up to the first that cannot be
enumerated. -/

namespace TypeCorpus

namespace Corpus

variable {fs : FileSystem} {c c' : Corpus}

/-! ### Several directories -/

/-- A scan with its notices left out; a directory that cannot be enumerated comes with its name. -/
def scanned (fs : FileSystem) (c : Corpus) (dir : String) : Except (String × SchemaError) Corpus :=
  match scan fs c dir with
  | .ok c' => .ok c'.value
  | .error e => .error (dir, e)

theorem scanned_of_ok {dir : String} {files : List String} (h : fs.schemaFiles dir = .ok files)
    (c : Corpus) : scanned fs c dir = .ok (load fs c files).value := by
  rw [scanned, scan, h]

theorem scanned_of_error {dir : String} {e : SchemaError} (h : fs.schemaFiles dir = .error e)
    (c : Corpus) : scanned fs c dir = .error (dir, e) := by
  rw [scanned, scan, h]

theorem scanAll_eq_foldlM (fs : FileSystem) (c : Corpus) (dirs : List String) :
    (scanAll fs c dirs).value = dirs.foldlM (scanned fs) c := by
  induction dirs generalizing c with
  | nil => rfl
  | cons dir dirs ih =>
    rw [List.foldlM_cons, scanAll, scanned]
    cases scan fs c dir with
    | ok c' => exact ih _
    | error e => rfl

theorem extends_foldlM {dirs : List String} (h : dirs.foldlM (scanned fs) c = .ok c') :
    Extends fs (dirs.flatMap fs.documentsIn) c c' := by
  induction dirs generalizing c with
  | nil =>
    cases h
    exact .nil fs _
  | cons dir dirs ih =>
    rw [List.foldlM_cons] at h
    cases hfiles : fs.schemaFiles dir with
    | error e =>
      rw [scanned_of_error hfiles] at h
      cases h
    | ok files =>
      rw [scanned_of_ok hfiles] at h
      rw [List.flatMap_cons, FileSystem.documentsIn, hfiles]
      exact (extends_load fs files c).append (ih h)

/-- Scanning several directories fails at the first that cannot be enumerated. -/
theorem foldlM_eq_error_iff {c : Corpus} {dirs : List String} {dir : String} {e : SchemaError} :
    dirs.foldlM (scanned fs) c = .error (dir, e) ↔ ∃ before after, dirs = before ++ dir :: after ∧
      (∀ d ∈ before, ∃ files, fs.schemaFiles d = .ok files) ∧ fs.schemaFiles dir = .error e := by
  induction dirs generalizing c with
  | nil => exact iff_of_false nofun (by simp)
  | cons d dirs ih =>
    rw [List.foldlM_cons]
    cases hfiles : fs.schemaFiles d with
    | ok files =>
      rw [scanned_of_ok hfiles]
      refine Iff.trans ih ⟨?_, ?_⟩
      · rintro ⟨before, after, rfl, hbefore, he⟩
        refine ⟨d :: before, after, rfl, fun d' hd' => ?_, he⟩
        rcases List.mem_cons.1 hd' with rfl | hd'
        · exact ⟨files, hfiles⟩
        · exact hbefore d' hd'
      · rintro ⟨before, after, hsplit, hbefore, he⟩
        cases before with
        | nil =>
          cases hsplit
          rw [hfiles] at he
          cases he
        | cons d' before =>
          cases hsplit
          exact ⟨before, after, rfl, fun d' hd' => hbefore d' (List.mem_cons_of_mem _ hd'), he⟩
    | error e' =>
      rw [scanned_of_error hfiles]
      constructor
      · intro h
        cases h
        exact ⟨[], dirs, rfl, by simp, hfiles⟩
      · rintro ⟨before, after, hsplit, hbefore, he⟩
        cases before with
        | nil =>
          cases hsplit
          rw [hfiles] at he
          cases he
          rfl
        | cons d' before =>
          cases hsplit
          obtain ⟨files, hok⟩ := hbefore d List.mem_cons_self
          rw [hfiles] at hok
          cases hok

end Corpus

/-! ### Files that are no documents -/

namespace FileSystem

/-- There is nothing at a place, or a file that cannot be read as a document. -/
def NoDocumentAt (fs : FileSystem) (place : Location) : Prop :=
  ∀ entry, fs.get? place = some entry → ∃ content, entry = .file content ∧
    ∀ text, String.fromUTF8? content = some text → ∀ root, Xml.Element.parse text ≠ .ok root

/-- Two file systems that differ only in files that are no documents: some are added, changed or
removed. -/
structure SameDocuments (fs fs' : FileSystem) : Prop where
  workingDirectory : fs.workingDirectory = fs'.workingDirectory
  get?_eq : ∀ place, fs.get? place = fs'.get? place ∨
    fs.NoDocumentAt place ∧ fs'.NoDocumentAt place

variable {fs fs' : FileSystem} {path dir : String} {files files' : List String} {d : Document}

/-- A file that cannot be read as a document may as well be missing. -/
theorem sameDocuments_of_broken (place : Location) {content : ByteArray} {text : String}
    (hworking : fs.workingDirectory = fs'.workingDirectory)
    (hfile : fs.get? place = some (.file content)) (hmissing : fs'.get? place = none)
    (hothers : ∀ other, other ≠ place → fs.get? other = fs'.get? other)
    (htext : String.fromUTF8? content = some text)
    (hbroken : (Xml.Element.parse text).toOption = none) : SameDocuments fs fs' := by
  refine ⟨hworking, fun other => ?_⟩
  by_cases hother : other = place
  · subst hother
    refine .inr ⟨fun entry hentry => ?_, fun entry hentry => ?_⟩
    · refine ⟨content, Option.some.inj (hentry.symm.trans hfile), fun text' htext' root hroot => ?_⟩
      rw [Option.some.inj (htext.symm.trans htext'), hroot] at hbroken
      cases hbroken
    · cases hmissing.symm.trans hentry
  · exact .inl (hothers other hother)

namespace SameDocuments

theorem symm (h : SameDocuments fs fs') : SameDocuments fs' fs where
  workingDirectory := h.workingDirectory.symm
  get?_eq place := (h.get?_eq place).imp Eq.symm And.symm

theorem sameDirectories (h : SameDocuments fs fs') : SameDirectories fs fs' := by
  have hdirectory : ∀ {a b : FileSystem}, SameDocuments a b → ∀ place,
      a.get? place = some .directory → b.get? place = some .directory := by
    intro a b hab place hplace
    rcases hab.get?_eq place with heq | hnone
    · rwa [← heq]
    · obtain ⟨content, hcontent, -⟩ := hnone.1 _ hplace
      cases hcontent
  exact ⟨h.workingDirectory, fun place => ⟨hdirectory h place, hdirectory h.symm place⟩⟩

/-- A document of the one file system is the same document in the other. -/
theorem loadDocument_eq (hsame : SameDocuments fs fs') (h : fs.loadDocument path = .ok d) :
    fs'.loadDocument path = .ok d ∧ ∃ place content, fs.locate path = .ok place ∧
      fs'.get? place = some (.file content) := by
  obtain ⟨hpath, place, content, text, hlocate, hget, htext, hroot⟩ := loadDocument_eq_ok_iff.1 h
  have hget' : fs'.get? place = some (.file content) := by
    rcases hsame.get?_eq place with heq | hnone
    · rw [← heq, hget]
    · obtain ⟨content', hcontent, hno⟩ := hnone.1 _ hget
      cases hcontent
      exact absurd hroot (hno text htext d.root)
  have hlocate' : fs'.locate path = .ok place :=
    hsame.sameDirectories.locate_eq hlocate (by rw [hget']; rfl)
  exact ⟨loadDocument_eq_ok_iff.2 ⟨hpath, place, content, text, hlocate', hget', htext, hroot⟩,
    place, content, hlocate, hget'⟩

theorem mem_documentsAt (hsame : SameDocuments fs fs') (hfs : fs.WellFormed)
    (hfs' : fs'.WellFormed) (h : fs.schemaFiles dir = .ok files)
    (h' : fs'.schemaFiles dir = .ok files') (hd : d ∈ fs.documentsAt files) :
    d ∈ fs'.documentsAt files' := by
  obtain ⟨path, hpath, hload⟩ := mem_documentsAt_iff.1 hd
  obtain ⟨hload', place, content, hlocate, hget⟩ := hsame.loadDocument_eq hload
  exact mem_documentsAt_iff.2 ⟨path,
    hsame.sameDirectories.mem_schemaFiles hfs hfs' h h' hpath hlocate hget, hload'⟩

end SameDocuments

theorem WellFormed.pairwise_documentsAt (hfs : fs.WellFormed) (h : fs.schemaFiles dir = .ok files) :
    (fs.documentsAt files).Pairwise fun d d' => Path.Before d.path d'.path := by
  rw [documentsAt, List.pairwise_filterMap]
  refine (hfs.pairwise_schemaFiles h).imp fun hbefore d hd d' hd' => ?_
  rw [toOption_loadDocument_eq_some_iff] at hd hd'
  rwa [(loadDocument_eq_ok_iff.1 hd).1, (loadDocument_eq_ok_iff.1 hd').1]

/-- The documents of a directory are the same, in the same order. -/
theorem SameDocuments.documentsAt_eq (hsame : SameDocuments fs fs') (hfs : fs.WellFormed)
    (hfs' : fs'.WellFormed) (h : fs.schemaFiles dir = .ok files)
    (h' : fs'.schemaFiles dir = .ok files') : fs.documentsAt files = fs'.documentsAt files' := by
  have hirrefl : Std.Irrefl fun d d' : Document => Path.Before d.path d'.path :=
    ⟨fun _ hbefore => hbefore.2 rfl⟩
  have hantisymm : Std.Antisymm fun d d' : Document => Path.Before d.path d'.path :=
    ⟨fun _ _ hbefore hafter =>
      absurd (Text.notAfter_antisymm hbefore.1 hafter.1) hbefore.2⟩
  exact (hfs.pairwise_documentsAt h).eq_of_mem_iff (hfs'.pairwise_documentsAt h') fun d =>
    ⟨hsame.mem_documentsAt hfs hfs' h h', hsame.symm.mem_documentsAt hfs' hfs h' h⟩

end FileSystem

namespace Corpus

open FileSystem (SameDocuments)

/-- Files that are no documents make no difference to what a scan does to the registry. -/
theorem registry_scan_eq {fs fs' : FileSystem} (hsame : SameDocuments fs fs') (hfs : fs.WellFormed)
    (hfs' : fs'.WellFormed) (c : Corpus) (dir : String) :
    (scan fs c dir).map (·.value.registry) = (scan fs' c dir).map (·.value.registry) := by
  have hdirectory := hsame.sameDirectories.isDirectory_eq dir
  cases h : fs.schemaFiles dir with
  | ok files =>
    obtain ⟨files', h'⟩ := hsame.sameDirectories.exists_schemaFiles hfs hfs' h
    rw [scan, scan, h, h']
    refine congrArg Except.ok ?_
    dsimp only
    rw [(extends_load fs files c).registry, (extends_load fs' files' c).registry,
      FileSystem.declarationsOf, FileSystem.declarationsOf, hsame.documentsAt_eq hfs hfs' h h']
  | error e =>
    have h' : fs'.schemaFiles dir = .error e := by
      rw [hfs.schemaFiles_eq, hdirectory] at h
      split at h
      · cases h
      · rename_i hdir
        rw [hfs'.schemaFiles_eq, if_neg hdir, h]
    rw [scan, scan, h, h']

/-- A scan of a directory that can be enumerated extends the registry with the documents that can be
read, in the order of their paths, counts them and their declarations, and lists the other files.
A directory that cannot be enumerated adds nothing. Files that are no documents make no difference
to the registry. Several directories are scanned one after the other, up to the first that cannot be
enumerated, which is the error. -/
theorem scan_reads_documents (fs : FileSystem) :
    (∀ c dir files, fs.schemaFiles dir = .ok files →
      (∃ c', scan fs c dir = .ok c' ∧ Extends fs files c c'.value) ∧
      (fs.documentsAt files).length + (fs.withoutDocument files).length = files.length ∧
      (fs.WellFormed → files.Pairwise Path.Before)) ∧
    (∀ c dir e, fs.schemaFiles dir = .error e → scan fs c dir = .error e ∧
      ∀ dirs, (scanEach fs c (dir :: dirs)).value = (scanEach fs c dirs).value) ∧
    (∀ fs', fs.WellFormed → fs'.WellFormed → SameDocuments fs fs' → ∀ c dir,
      (scan fs c dir).map (·.value.registry) = (scan fs' c dir).map (·.value.registry)) ∧
    ∀ dirs, (ofDirectories fs dirs).value = dirs.foldlM (scanned fs) {} ∧
      (∀ c, (ofDirectories fs dirs).value = .ok c →
        Extends fs (dirs.flatMap fs.documentsIn) {} c) ∧
      ∀ dir e, (ofDirectories fs dirs).value = .error (dir, e) ↔ ∃ before after,
        dirs = before ++ dir :: after ∧ (∀ d ∈ before, ∃ files, fs.schemaFiles d = .ok files) ∧
          fs.schemaFiles dir = .error e := by
  refine ⟨fun c dir files h => ⟨?_, fs.length_documentsAt_add files, fun hfs =>
    hfs.pairwise_schemaFiles h⟩, fun c dir e h => ?_, fun fs' hfs hfs' hsame c dir =>
      registry_scan_eq hsame hfs hfs' c dir, fun dirs => ?_⟩
  · exact ⟨load fs c files, by rw [scan, h], extends_load fs files c⟩
  · have hscan : scan fs c dir = .error e := by rw [scan, h]
    exact ⟨hscan, fun dirs => value_scanEach_of_error h c dirs⟩
  · rw [ofDirectories, scanAll_eq_foldlM]
    exact ⟨rfl, fun c h => extends_foldlM h, fun dir e => foldlM_eq_error_iff⟩

/-- A directory with a document and a file that breaks off: the one is registered, the other listed,
and the registry is that of the document alone. -/
theorem scan_reads_documents_broken :
    let fs := FileSystem.oneDirectory [("a.xml", "<struct name=\"A\"/>"), ("b.xml", "<struct")]
    let fs' := FileSystem.oneDirectory [("a.xml", "<struct name=\"A\"/>")]
    (∃ c, scan fs {} "/w" = .ok c ∧ c.value.registry.structs.keys = ["A"] ∧
      c.value.report.skipped = ["/w/b.xml"]) ∧
    (scan fs {} "/w").map (·.value.registry) = (scan fs' {} "/w").map (·.value.registry) := by
  intro fs fs'
  have hfs : fs.WellFormed := FileSystem.wellFormed_oneDirectory (by decide) (by decide)
  have hfs' : fs'.WellFormed := FileSystem.wellFormed_oneDirectory (by decide) (by decide)
  have hfiles : fs.schemaFiles "/w" = .ok ["/w/a.xml", "/w/b.xml"] := by
    have hpath : FileSystem.absolutePath ["w"] = "/w" := by decide
    have hentries : fs.entriesWith ["w"] "xml" = ["/w/a.xml", "/w/b.xml"] := by
      rw [FileSystem.entriesWith, FileSystem.names_oneDirectory (by decide)]
      decide
    rw [← hpath, hfs.schemaFiles_absolutePath rfl (by decide), hentries]
    decide +kernel
  have hread : String.fromUTF8? "<struct".toUTF8 = some "<struct" := by decide +kernel
  have hbroken : (Xml.Element.parse "<struct").toOption.isNone = true := by decide +kernel
  have hsame : SameDocuments fs fs' := by
    refine FileSystem.sameDocuments_of_broken ["w", "b.xml"] rfl rfl rfl (fun place hplace => ?_)
      hread (Option.isNone_iff_eq_none.1 hbroken)
    cases place with
    | nil => rfl
    | cons name rest =>
      simp [fs, fs', FileSystem.get?, FileSystem.oneDirectory, Table.get?, Ne.symm hplace]
  obtain ⟨hscan, -, hsimilar, -⟩ := scan_reads_documents fs
  obtain ⟨⟨c, hc, hextends⟩, -, -⟩ := hscan {} "/w" _ hfiles
  refine ⟨⟨c, hc, ?_, ?_⟩, hsimilar fs' hfs hfs' hsame {} "/w"⟩
  · rw [hextends.registry]
    decide +kernel
  · rw [hextends.skipped]
    decide +kernel

end Corpus

end TypeCorpus
