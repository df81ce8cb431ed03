import TypeCorpus.Corpus.Inputs

/-! Reading documents one after the other. The paths fall into those at which a document can be read
and the others. The documents are registered and counted, the other paths are listed, all in order:
`Extends` says this of the corpus before and after. It is carried along the paths of a directory and
along the directories of a run, so the declarations registered for some inputs are those of the
documents that were read. -/

namespace TypeCorpus

theorem Registry.registerAll_append (r : Registry) (ds ds' : List Declaration) :
    r.registerAll (ds ++ ds') = (r.registerAll ds).registerAll ds' := List.foldl_append

/-! ### Documents at paths -/

namespace FileSystem

/-- The documents at some paths, those that cannot be read left out. -/
def documentsAt (fs : FileSystem) (paths : List String) : List Document :=
  paths.filterMap fun path => (fs.loadDocument path).toOption

/-- The paths at which no document can be read. -/
def withoutDocument (fs : FileSystem) (paths : List String) : List String :=
  paths.filter fun path => (fs.loadDocument path).toOption.isNone

/-- The declarations of the documents at some paths. -/
def declarationsOf (fs : FileSystem) (paths : List String) : List Declaration :=
  (fs.documentsAt paths).flatMap Document.declarations

/-- The documents of a directory, none if it cannot be enumerated. -/
def documentsIn (fs : FileSystem) (dir : String) : List String :=
  match fs.schemaFiles dir with
  | .ok files => files
  | .error _ => []

/-- The documents in the directories that hold some inputs. -/
def documentsBeside (fs : FileSystem) (inputs : List String) : List String :=
  (Path.sortedSet (inputs.map fs.containingDirectory)).flatMap fs.documentsIn

section

variable {fs : FileSystem} {path : String} {paths : List String} {d : Document}

theorem documentsAt_of_ok (h : fs.loadDocument path = .ok d) (paths : List String) :
    fs.documentsAt (path :: paths) = d :: fs.documentsAt paths ∧
      fs.withoutDocument (path :: paths) = fs.withoutDocument paths := by
  simp [documentsAt, withoutDocument, h, Except.toOption]

theorem documentsAt_of_error {e : SchemaError} (h : fs.loadDocument path = .error e)
    (paths : List String) :
    fs.documentsAt (path :: paths) = fs.documentsAt paths ∧
      fs.withoutDocument (path :: paths) = path :: fs.withoutDocument paths := by
  simp [documentsAt, withoutDocument, h, Except.toOption]

theorem toOption_loadDocument_eq_some_iff :
    (fs.loadDocument path).toOption = some d ↔ fs.loadDocument path = .ok d := by
  cases fs.loadDocument path <;> simp [Except.toOption]

theorem mem_documentsAt_iff :
    d ∈ fs.documentsAt paths ↔ ∃ path ∈ paths, fs.loadDocument path = .ok d := by
  simp only [documentsAt, List.mem_filterMap, toOption_loadDocument_eq_some_iff]

theorem mem_declarationsOf_iff {declaration : Declaration} :
    declaration ∈ fs.declarationsOf paths ↔
      ∃ path ∈ paths, ∃ d, fs.loadDocument path = .ok d ∧ declaration ∈ d.declarations := by
  rw [declarationsOf, List.mem_flatMap]
  constructor
  · rintro ⟨d, hd, hdeclaration⟩
    obtain ⟨path, hpath, hload⟩ := mem_documentsAt_iff.1 hd
    exact ⟨path, hpath, d, hload, hdeclaration⟩
  · rintro ⟨path, hpath, d, hload, hdeclaration⟩
    exact ⟨d, mem_documentsAt_iff.2 ⟨path, hpath, hload⟩, hdeclaration⟩

end

variable (fs : FileSystem)

theorem documentsAt_append (paths paths' : List String) :
    fs.documentsAt (paths ++ paths') = fs.documentsAt paths ++ fs.documentsAt paths' :=
  List.filterMap_append

theorem withoutDocument_append (paths paths' : List String) :
    fs.withoutDocument (paths ++ paths') = fs.withoutDocument paths ++ fs.withoutDocument paths' :=
  List.filter_append _ _

theorem declarationsOf_append (paths paths' : List String) :
    fs.declarationsOf (paths ++ paths') = fs.declarationsOf paths ++ fs.declarationsOf paths' := by
  rw [declarationsOf, documentsAt_append, List.flatMap_append]
  rfl

theorem length_documentsAt_add (paths : List String) :
    (fs.documentsAt paths).length + (fs.withoutDocument paths).length = paths.length := by
  induction paths with
  | nil => rfl
  | cons path paths ih =>
    cases h : fs.loadDocument path with
    | ok d =>
      obtain ⟨hdocuments, hskipped⟩ := documentsAt_of_ok h paths
      rw [hdocuments, hskipped, List.length_cons, List.length_cons]
      omega
    | error e =>
      obtain ⟨hdocuments, hskipped⟩ := documentsAt_of_error h paths
      rw [hdocuments, hskipped, List.length_cons, List.length_cons]
      omega

end FileSystem

namespace Corpus

variable {fs : FileSystem} {c c' c'' : Corpus} {path : String} {paths paths' : List String}

/-! ### What reading adds -/

/-- The second corpus is the first with the documents at some paths, and a report of them. -/
structure Extends (fs : FileSystem) (paths : List String) (c c' : Corpus) : Prop where
  registry : c'.registry = c.registry.registerAll (fs.declarationsOf paths)
  documents : c'.report.documents = c.report.documents + (fs.documentsAt paths).length
  declarations : c'.report.declarations =
    c.report.declarations + (fs.declarationsOf paths).length
  skipped : c'.report.skipped = c.report.skipped ++ fs.withoutDocument paths

theorem Extends.nil (fs : FileSystem) (c : Corpus) : Extends fs [] c c :=
  ⟨rfl, rfl, rfl, (List.append_nil _).symm⟩

theorem Extends.append (h : Extends fs paths c c') (h' : Extends fs paths' c' c'') :
    Extends fs (paths ++ paths') c c'' := by
  refine ⟨?_, ?_, ?_, ?_⟩
  · rw [h'.registry, h.registry, fs.declarationsOf_append, Registry.registerAll_append]
  · rw [h'.documents, h.documents, fs.documentsAt_append, List.length_append, Nat.add_assoc]
  · rw [h'.declarations, h.declarations, fs.declarationsOf_append, List.length_append,
      Nat.add_assoc]
  · rw [h'.skipped, h.skipped, fs.withoutDocument_append, List.append_assoc]

theorem extends_add {d : Document} (h : fs.loadDocument path = .ok d) (c : Corpus) :
    Extends fs [path] c (c.add d) := by
  obtain ⟨hdocuments, hskipped⟩ := FileSystem.documentsAt_of_ok h []
  have hone : fs.documentsAt [path] = [d] := hdocuments
  have hdeclarations : fs.declarationsOf [path] = d.declarations := by
    rw [FileSystem.declarationsOf, hone, List.flatMap_singleton]
  refine ⟨?_, ?_, ?_, ?_⟩
  · rw [hdeclarations, add]
  · rw [hone, add, List.length_singleton]
  · rw [hdeclarations, add]
  · rw [hskipped]
    exact (List.append_nil _).symm

theorem extends_skip {e : SchemaError} (h : fs.loadDocument path = .error e) (c : Corpus) :
    Extends fs [path] c (c.skip path) := by
  obtain ⟨hdocuments, hskipped⟩ := FileSystem.documentsAt_of_error h []
  have hnone : fs.documentsAt [path] = [] := hdocuments
  have hdeclarations : fs.declarationsOf [path] = [] := by
    rw [FileSystem.declarationsOf, hnone, List.flatMap_nil]
  refine ⟨?_, ?_, ?_, ?_⟩
  · rw [hdeclarations]
    rfl
  · rw [hnone]
    rfl
  · rw [hdeclarations]
    rfl
  · rw [hskipped]
    rfl

/-- Reading documents adds those that can be read and lists the others. -/
theorem extends_load (fs : FileSystem) (paths : List String) (c : Corpus) :
    Extends fs paths c (load fs c paths).value := by
  induction paths generalizing c with
  | nil => exact .nil fs c
  | cons path paths ih =>
    cases h : fs.loadDocument path with
    | ok d =>
      have hload : load fs c (path :: paths) = load fs (c.add d) paths := by rw [load, h]
      rw [hload]
      exact (extends_add h c).append (ih _)
    | error e =>
      have hload : (load fs c (path :: paths)).value = (load fs (c.skip path) paths).value := by
        rw [load, h]
        rfl
      rw [hload]
      exact (extends_skip h c).append (ih _)

/-! ### Directories and inputs -/

theorem value_scanEach_of_ok {dir : String} {files : List String}
    (h : fs.schemaFiles dir = .ok files) (c : Corpus) (dirs : List String) :
    (scanEach fs c (dir :: dirs)).value = (scanEach fs (load fs c files).value dirs).value := by
  rw [scanEach, scan, h]
  rfl

/-- A directory that cannot be enumerated adds nothing. -/
theorem value_scanEach_of_error {dir : String} {e : SchemaError} (h : fs.schemaFiles dir = .error e)
    (c : Corpus) (dirs : List String) :
    (scanEach fs c (dir :: dirs)).value = (scanEach fs c dirs).value := by
  rw [scanEach, scan, h]
  rfl

theorem extends_scanEach (fs : FileSystem) (dirs : List String) (c : Corpus) :
    Extends fs (dirs.flatMap fs.documentsIn) c (scanEach fs c dirs).value := by
  induction dirs generalizing c with
  | nil => exact .nil fs c
  | cons dir dirs ih =>
    rw [List.flatMap_cons, FileSystem.documentsIn]
    cases h : fs.schemaFiles dir with
    | ok files =>
      rw [value_scanEach_of_ok h]
      exact (extends_load fs files c).append (ih _)
    | error e =>
      rw [value_scanEach_of_error h]
      exact ih c

/-- The registry for some inputs holds the declarations of what is read for them: the documents
beside them, or they alone. -/
theorem registry_ofInputs (fs : FileSystem) (inputs : List String) (siblings : Bool) :
    (ofInputs fs inputs siblings).value.registry =
      Registry.ofDeclarations
        (fs.declarationsOf (if siblings then fs.documentsBeside inputs else inputs)) := by
  rw [ofInputs]
  cases siblings with
  | true => exact (extends_scanEach fs _ {}).registry
  | false => exact (extends_load fs _ {}).registry

end Corpus

end TypeCorpus
