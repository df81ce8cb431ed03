import TypeCorpus.Command.Sample
import TypeCorpus.Proofs.Corpus.Reading
import TypeCorpus.Proofs.Files.Listing
import TypeCorpus.Proofs.Registry.History
import TypeCorpus.Proofs.Schema

/-! What is read for some inputs. The registry of a corpus holds the declarations of the documents
that were read, so one with more documents knows more names. Read alone, an input is what its path
names. With the documents beside it, it is read as an entry of its directory, and the entries that
are read are those whose names end in the schema extension: an input is among them exactly if its
path ends so. -/

namespace TypeCorpus

namespace Path

theorem mem_of_mem_withoutRepeats {paths : List String} {p : String}
    (h : p ∈ withoutRepeats paths) : p ∈ paths := by
  induction paths using withoutRepeats.induct with
  | case1 => exact h
  | case2 q => exact h
  | case3 q r rest heq ih =>
    rw [withoutRepeats, if_pos heq] at h
    exact List.mem_cons_of_mem _ (ih h)
  | case4 q r rest hne ih =>
    rw [withoutRepeats, if_neg hne] at h
    rcases List.mem_cons.1 h with rfl | h
    · exact List.mem_cons_self
    · exact List.mem_cons_of_mem _ (ih h)

/-- Of each path there remains one with the same components. -/
theorem exists_mem_withoutRepeats {paths : List String} {p : String} (h : p ∈ paths) :
    ∃ q ∈ withoutRepeats paths, orderKey q = orderKey p := by
  induction paths using withoutRepeats.induct generalizing p with
  | case1 => cases h
  | case2 q => exact ⟨p, h, rfl⟩
  | case3 q r rest heq ih =>
    rw [withoutRepeats, if_pos heq]
    rcases List.mem_cons.1 h with rfl | h
    · obtain ⟨q, hq, hkey⟩ := ih List.mem_cons_self
      exact ⟨q, hq, hkey.trans heq.symm⟩
    · exact ih h
  | case4 q r rest hne ih =>
    rw [withoutRepeats, if_neg hne]
    rcases List.mem_cons.1 h with rfl | h
    · exact ⟨p, List.mem_cons_self, rfl⟩
    · obtain ⟨q, hq, hkey⟩ := ih h
      exact ⟨q, List.mem_cons_of_mem _ hq, hkey⟩

theorem mem_of_mem_sortedSet {paths : List String} {p : String} (h : p ∈ sortedSet paths) :
    p ∈ paths :=
  List.mem_mergeSort.1 (mem_of_mem_withoutRepeats h)

theorem exists_mem_sortedSet {paths : List String} {p : String} (h : p ∈ paths) :
    ∃ q ∈ sortedSet paths, orderKey q = orderKey p :=
  exists_mem_withoutRepeats (List.mem_mergeSort.2 h)

end Path

namespace Registry

/-- Every name of a kind in the first registry is a name of that kind in the second. -/
structure NamesWithin (r r' : Registry) : Prop where
  typedefs : r.typedefs.keys ⊆ r'.typedefs.keys
  enums : r.enums.keys ⊆ r'.enums.keys
  structs : r.structs.keys ⊆ r'.structs.keys

theorem namesWithin_ofDeclarations {ds ds' : List Declaration} (h : ds ⊆ ds') :
    (ofDeclarations ds).NamesWithin (ofDeclarations ds') := by
  have hkeys : ∀ {α : Type} (kind : Registration → Option (String × α)),
      (Table.ofList ((ds.map Declaration.registration).filterMap kind)).keys ⊆
        (Table.ofList ((ds'.map Declaration.registration).filterMap kind)).keys := by
    intro α kind name hname
    rw [Table.mem_keys_ofList] at hname ⊢
    exact List.map_subset _ (List.filterMap_subset _ (List.map_subset _ h)) hname
  rw [ofDeclarations, ofDeclarations, registerAll_eq_enterAll, registerAll_eq_enterAll,
    enterAll_eq, enterAll_eq]
  exact ⟨hkeys _, hkeys _, hkeys _⟩

theorem mem_structs_ofDeclarations {ds : List Declaration} {decl : StructDecl}
    (h : .struct decl ∈ ds) : decl.name ∈ (ofDeclarations ds).structs.keys := by
  rw [ofDeclarations, registerAll_eq_enterAll, enterAll_eq]
  refine (Table.mem_keys_ofList _ _).2 (List.mem_map.2 ⟨(decl.name, decl), ?_, rfl⟩)
  exact List.mem_filterMap.2 ⟨_, List.mem_map.2 ⟨_, h, rfl⟩, rfl⟩

end Registry

/-! ### Structures of a document -/

/-- Every structure of a document is declared under its full name. -/
theorem Document.exists_declaration {d : Document} {s : QualifiedName × StructDecl}
    (h : s ∈ d.structs) : ∃ decl, .struct decl ∈ d.declarations ∧ decl.name = s.1.qualified := by
  have hdecl : s.2 ∈ d.declarations.filterMap Declaration.struct? :=
    Schema.map_snd_structs d.root ▸ List.mem_map_of_mem h
  obtain ⟨declaration, hmem, hstruct⟩ := List.mem_filterMap.1 hdecl
  rw [Declaration.struct?_eq_some_iff.1 hstruct] at hmem
  exact ⟨s.2, hmem, (Schema.qualified_of_mem_structs h).symm⟩

/-! ### Inputs and their directories -/

namespace FileSystem

variable {fs : FileSystem} {input path : String} {place : Location} {d : Document}

/-- An input that is a well-formed document, and whose path from the root is not too long. -/
structure IsDocument (fs : FileSystem) (input : String) : Prop where
  loads : ∃ d, fs.loadDocument input = .ok d
  absolute_le : ∀ path, fs.absolute? input = some path →
    Text.byteCount path.toList ≤ longestPath

theorem readBytes_eq_ok_iff {content : ByteArray} : fs.readBytes path = .ok content ↔
    ∃ place, fs.locate path = .ok place ∧ fs.get? place = some (.file content) := by
  rw [readBytes]
  cases fs.locate path with
  | error e => simp [bind, Except.bind]
  | ok place =>
    simp only [bind, Except.bind, Except.ok.injEq, exists_eq_left']
    split
    · rename_i hget
      simp [hget]
    · rename_i hget
      simp [hget]
    · rename_i hget
      simp [hget]

theorem readText_eq_ok_iff {text : String} : fs.readText path = .ok text ↔
    ∃ content, fs.readBytes path = .ok content ∧ String.fromUTF8? content = some text := by
  rw [readText]
  cases fs.readBytes path with
  | error e => simp [bind, Except.bind]
  | ok content => cases htext : String.fromUTF8? content <;> simp [bind, Except.bind, htext]

/-- A document is read from the text of the file at its path. -/
theorem loadDocument_eq_ok_iff : fs.loadDocument path = .ok d ↔ d.path = path ∧
    ∃ place content text, fs.locate path = .ok place ∧ fs.get? place = some (.file content) ∧
      String.fromUTF8? content = some text ∧ Xml.Element.parse text = .ok d.root := by
  obtain ⟨path', root⟩ := d
  have hdocument : fs.loadDocument path = .ok ⟨path', root⟩ ↔
      path' = path ∧ ∃ text, fs.readText path = .ok text ∧ Xml.Element.parse text = .ok root := by
    rw [loadDocument]
    cases fs.readText path with
    | error e => simp
    | ok text =>
      dsimp only
      rw [Document.parse]
      cases hparse : Xml.Element.parse text with
      | error cause => simp [hparse]
      | ok root' =>
        constructor
        · rintro h
          cases h
          exact ⟨rfl, text, rfl, hparse⟩
        · rintro ⟨rfl, text', htext, hroot⟩
          cases htext
          rw [hparse] at hroot
          cases hroot
          rfl
  rw [hdocument]
  refine and_congr_right fun _ => ⟨?_, ?_⟩
  · rintro ⟨text, htext, hroot⟩
    obtain ⟨content, hread, htext⟩ := readText_eq_ok_iff.1 htext
    obtain ⟨place, hlocate, hget⟩ := readBytes_eq_ok_iff.1 hread
    exact ⟨place, content, text, hlocate, hget, htext, hroot⟩
  · rintro ⟨place, content, text, hlocate, hget, htext, hroot⟩
    have hread := readBytes_eq_ok_iff.2 ⟨place, hlocate, hget⟩
    exact ⟨text, readText_eq_ok_iff.2 ⟨content, hread, htext⟩, hroot⟩

theorem exists_of_loadDocument (h : fs.loadDocument input = .ok d) :
    ∃ here name content, fs.locate input = .ok (here ++ [name]) ∧
      fs.get? (here ++ [name]) = some (.file content) := by
  obtain ⟨-, place, content, -, hlocate, hget, -⟩ := loadDocument_eq_ok_iff.1 h
  cases place using List.reverseRecOn with
  | nil => cases hget
  | append_singleton here name => exact ⟨here, name, content, hlocate, hget⟩

/-- Two paths to one file lead to the same document. -/
theorem loadDocument_of_locate_eq (hlocate : fs.locate path = fs.locate input)
    (h : fs.loadDocument input = .ok d) : fs.loadDocument path = .ok { d with path := path } := by
  obtain ⟨-, hfile⟩ := loadDocument_eq_ok_iff.1 h
  rw [← hlocate] at hfile
  exact loadDocument_eq_ok_iff.2 ⟨rfl, hfile⟩

/-- An input is the file with a name in a directory, and the directory's documents are known. -/
structure LiesIn (fs : FileSystem) (input : String) (here : Location) (name : String) : Prop where
  locate_eq : fs.locate input = .ok (here ++ [name])
  get?_eq : ∃ content, fs.get? (here ++ [name]) = some (.file content)
  isName : ∀ n ∈ here ++ [name], IsName n
  length_le : Text.byteCount (absolutePath (here ++ [name])).toList ≤ longestPath
  directory_eq : fs.containingDirectory input = absolutePath here
  documents_eq : fs.documentsIn (absolutePath here) = (fs.entriesWith here "xml").filter fs.isFile

namespace WellFormed

variable (hfs : fs.WellFormed)

include hfs

/-- The directory that holds an entry is named by its path from the root. -/
theorem containingDirectory_eq {here : Location} {name : String}
    (hlocate : fs.locate input = .ok (here ++ [name]))
    (hsome : (fs.get? (here ++ [name])).isSome = true) :
    fs.containingDirectory input = absolutePath here := by
  have habsolute : fs.absolute? input = some (absolutePath (here ++ [name])) := by
    simp only [absolute?, hlocate]
    rfl
  unfold containingDirectory
  rw [habsolute, Option.getD_some, parent?_absolutePath fun n hn => hfs.isName_of_get? hsome hn]
  exact if_neg (absolutePath_ne_empty here)

/-- Every input that is a document lies in a directory. -/
theorem exists_liesIn (hinput : fs.IsDocument input) :
    ∃ here name, fs.LiesIn input here name := by
  obtain ⟨d, hd⟩ := hinput.loads
  obtain ⟨here, name, content, hlocate, hget⟩ := exists_of_loadDocument hd
  have hsome : (fs.get? (here ++ [name])).isSome = true := by rw [hget]; rfl
  have hhere : fs.get? here = some .directory := hfs.get?_of_append hsome (List.cons_ne_nil _ _)
  have hnames : ∀ n ∈ here ++ [name], IsName n := fun n hn => hfs.isName_of_get? hsome hn
  have habsolute : fs.absolute? input = some (absolutePath (here ++ [name])) := by
    simp only [absolute?, hlocate]
    rfl
  have hlen := hinput.absolute_le _ habsolute
  refine ⟨here, name, hlocate, ⟨content, hget⟩, hnames, hlen,
    hfs.containingDirectory_eq hlocate hsome, ?_⟩
  have hdir := Nat.le_trans (byteCount_absolutePath_le here [name]) hlen
  simp only [documentsIn, hfs.schemaFiles_absolutePath hhere hdir]

/-- The documents beside some inputs are the files with the schema extension in the directories
where the inputs lie. -/
theorem mem_documentsBeside {inputs : List String}
    (hinputs : ∀ input ∈ inputs, fs.IsDocument input) :
    path ∈ fs.documentsBeside inputs ↔ ∃ input ∈ inputs, ∃ here name, fs.LiesIn input here name ∧
      path ∈ (fs.entriesWith here "xml").filter fs.isFile := by
  rw [documentsBeside, List.mem_flatMap]
  constructor
  · rintro ⟨dir, hdir, hpath⟩
    obtain ⟨input, hinput, rfl⟩ := List.mem_map.1 (Path.mem_of_mem_sortedSet hdir)
    obtain ⟨here, name, hlies⟩ := hfs.exists_liesIn (hinputs input hinput)
    rw [hlies.directory_eq, hlies.documents_eq] at hpath
    exact ⟨input, hinput, here, name, hlies, hpath⟩
  · rintro ⟨input, hinput, here, name, hlies, hpath⟩
    obtain ⟨dir, hdir, hkey⟩ :=
      Path.exists_mem_sortedSet (List.mem_map_of_mem (f := fs.containingDirectory) hinput)
    obtain ⟨input', hinput', rfl⟩ := List.mem_map.1 (Path.mem_of_mem_sortedSet hdir)
    obtain ⟨here', name', hlies'⟩ := hfs.exists_liesIn (hinputs input' hinput')
    rw [hlies'.directory_eq, hlies.directory_eq] at hkey
    have hsame : here' = here := orderKey_absolutePath_inj
      (fun n hn => hlies'.isName n (List.mem_append_left _ hn))
      (fun n hn => hlies.isName n (List.mem_append_left _ hn)) hkey
    refine ⟨_, hdir, ?_⟩
    rw [hlies'.directory_eq, hsame, hlies.documents_eq]
    exact hpath

/-- An input is among the documents beside the inputs exactly if its path ends in the schema
extension. -/
theorem exists_documentBeside_iff {inputs : List String}
    (hinputs : ∀ input ∈ inputs, fs.IsDocument input) (hinput : input ∈ inputs) :
    (∃ path ∈ fs.documentsBeside inputs, fs.locate path = fs.locate input) ↔
      ".xml".toList <:+ input.toList := by
  obtain ⟨here, name, hlies⟩ := hfs.exists_liesIn (hinputs input hinput)
  obtain ⟨content, hget⟩ := hlies.get?_eq
  have hsome : (fs.get? (here ++ [name])).isSome = true := by rw [hget]; rfl
  rw [hfs.ending_iff_of_locate hlies.locate_eq hget (by decide), List.getLast?_concat]
  constructor
  · rintro ⟨path, hpath, hlocate⟩
    obtain ⟨_, _, here', _, _, hentry⟩ := (hfs.mem_documentsBeside hinputs).1 hpath
    obtain ⟨n, hn, rfl⟩ := List.mem_map.1 (List.mem_filter.1 hentry).1
    obtain ⟨hn, hends⟩ := List.mem_filter.1 hn
    have hentry : (fs.get? (here' ++ [n])).isSome = true := mem_names_iff_isSome.1 hn
    rw [hlies.locate_eq] at hlocate
    rw [hfs.locate_absolutePath hentry (walk_of_locate hlocate).1] at hlocate
    -- the entry that was read is the input, so they have one name
    obtain ⟨-, hname⟩ := List.append_inj' (Except.ok.inj hlocate) rfl
    exact ⟨n, congrArg List.head? hname.symm, List.isSuffixOf_iff_suffix.1 hends⟩
  · rintro ⟨n, hn, hends⟩
    cases hn
    have hentry : absolutePath (here ++ [name]) ∈ (fs.entriesWith here "xml").filter fs.isFile := by
      refine List.mem_filter.2 ⟨List.mem_map.2 ⟨name, ?_, rfl⟩, ?_⟩
      · rw [List.mem_filter, List.isSuffixOf_iff_suffix]
        exact ⟨mem_names_iff_isSome.2 hsome, hends⟩
      · rw [isFile, hfs.find?_absolutePath hsome hlies.length_le, hget]
    refine ⟨absolutePath (here ++ [name]),
      (hfs.mem_documentsBeside hinputs).2 ⟨input, hinput, here, name, hlies, hentry⟩, ?_⟩
    rw [hfs.locate_absolutePath hsome hlies.length_le, hlies.locate_eq]

end WellFormed

end FileSystem

namespace Corpus

variable {fs : FileSystem} {inputs : List String}

/-- What is registered with the documents beside the inputs. Of the inputs themselves exactly those
are read whose paths end in the schema extension, so the names that these alone would register are
registered with the others, and the structures chosen of each of them are among them. -/
theorem siblings_keep_documents (hfs : fs.WellFormed)
    (hinputs : ∀ input ∈ inputs, fs.IsDocument input) :
    (ofInputs fs inputs true).value.registry =
      Registry.ofDeclarations (fs.declarationsOf (fs.documentsBeside inputs)) ∧
    (∀ input ∈ inputs, (∃ path ∈ fs.documentsBeside inputs, fs.locate path = fs.locate input) ↔
      ".xml".toList <:+ input.toList) ∧
    (ofInputs fs (inputs.filter fun input => ".xml".toList.isSuffixOf input.toList)
      false).value.registry.NamesWithin (ofInputs fs inputs true).value.registry ∧
    ∀ input ∈ inputs, ".xml".toList <:+ input.toList → ∀ d, fs.loadDocument input = .ok d →
      ∀ start, ∀ q ∈ d.chosen start,
        q.qualified ∈ (ofInputs fs inputs true).value.registry.structs.keys := by
  have hread : ∀ input ∈ inputs, ".xml".toList <:+ input.toList → ∀ d,
      fs.loadDocument input = .ok d →
        d.declarations ⊆ fs.declarationsOf (fs.documentsBeside inputs) := by
    intro input hinput hends d hd declaration hdeclaration
    obtain ⟨path, hpath, hlocate⟩ := (hfs.exists_documentBeside_iff hinputs hinput).2 hends
    exact FileSystem.mem_declarationsOf_iff.2
      ⟨path, hpath, _, FileSystem.loadDocument_of_locate_eq hlocate hd, hdeclaration⟩
  refine ⟨registry_ofInputs fs inputs true,
    fun input hinput => hfs.exists_documentBeside_iff hinputs hinput, ?_, ?_⟩
  · rw [registry_ofInputs, registry_ofInputs]
    refine Registry.namesWithin_ofDeclarations fun declaration hdeclaration => ?_
    obtain ⟨input, hinput, d, hd, hdeclaration⟩ :=
      FileSystem.mem_declarationsOf_iff.1 hdeclaration
    obtain ⟨hinput, hends⟩ := List.mem_filter.1 hinput
    exact hread input hinput (List.isSuffixOf_iff_suffix.1 hends) d hd hdeclaration
  · intro input hinput hends d hd start q hq
    obtain ⟨s, hs, rfl⟩ := List.mem_map.1 (List.mem_filter.1 hq).1
    obtain ⟨decl, hdecl, hname⟩ := Document.exists_declaration hs
    rw [registry_ofInputs, ← hname]
    exact Registry.mem_structs_ofDeclarations (hread input hinput hends d hd hdecl)

/-! ### A document with and without the extension -/

/-- A working directory with one document, which declares one structure. -/
def userDirectory (name : String) : FileSystem :=
  .oneDirectory [(name, "<types><module name=\"P\"><struct name=\"C_User\"/></module></types>")]

theorem wellFormed_userDirectory {name : String} (hname : FileSystem.IsName name) :
    (userDirectory name).WellFormed :=
  FileSystem.wellFormed_oneDirectory (List.nodup_singleton _)
    fun _ hf => List.mem_singleton.1 hf ▸ hname

/-- With the extension the document is read from its directory. -/
theorem siblings_keep_user : "P::C_User" ∈
    (ofInputs (userDirectory "user.xml") ["user.xml"] true).value.registry.structs.keys := by
  have hchosen : ((userDirectory "user.xml").loadDocument "user.xml").toOption.map
      (fun d => d.chosen "C_") = some [.ofScope (some "P") "C_User"] := by decide +kernel
  have habsolute : (userDirectory "user.xml").absolute? "user.xml" = some "/w/user.xml" := by
    decide +kernel
  cases hload : (userDirectory "user.xml").loadDocument "user.xml" with
  | error e => rw [hload] at hchosen; cases hchosen
  | ok d =>
    rw [hload] at hchosen
    have hq : d.chosen "C_" = [.ofScope (some "P") "C_User"] := Option.some.inj hchosen
    have hinputs : ∀ input ∈ ["user.xml"], (userDirectory "user.xml").IsDocument input := by
      intro input hinput
      rw [List.mem_singleton.1 hinput]
      refine ⟨⟨d, hload⟩, fun path hpath => ?_⟩
      rw [← Option.some.inj (habsolute.symm.trans hpath)]
      decide
    exact (siblings_keep_documents (wellFormed_userDirectory (by decide)) hinputs).2.2.2 "user.xml"
      List.mem_cons_self (by decide) d hload "C_" _ (hq ▸ List.mem_singleton_self _)

/-- Without it the document is read alone, and lost with what is beside it. -/
theorem siblings_lose_user :
    (userDirectory "user.idl").WellFormed ∧
    (∃ d, (userDirectory "user.idl").loadDocument "user.idl" = .ok d) ∧
    "P::C_User" ∈
      (ofInputs (userDirectory "user.idl") ["user.idl"] false).value.registry.structs.keys ∧
    "P::C_User" ∉
      (ofInputs (userDirectory "user.idl") ["user.idl"] true).value.registry.structs.keys := by
  have hfs : (userDirectory "user.idl").WellFormed := wellFormed_userDirectory (by decide)
  have hdirectories : Path.sortedSet (["user.idl"].map
      (userDirectory "user.idl").containingDirectory) = [FileSystem.absolutePath ["w"]] := by
    decide +kernel
  have hentries : (userDirectory "user.idl").entriesWith ["w"] "xml" = [] := by decide +kernel
  have hdocuments : (userDirectory "user.idl").documentsBeside ["user.idl"] = [] := by
    rw [FileSystem.documentsBeside, hdirectories, List.flatMap_singleton, FileSystem.documentsIn,
      hfs.schemaFiles_absolutePath rfl (by decide), hentries]
    rfl
  have hload : ((userDirectory "user.idl").loadDocument "user.idl").toOption.isSome = true := by
    decide +kernel
  refine ⟨hfs, ?_, by decide +kernel, ?_⟩
  · cases hd : (userDirectory "user.idl").loadDocument "user.idl" with
    | error e => rw [hd] at hload; cases hload
    | ok d => exact ⟨d, rfl⟩
  · rw [registry_ofInputs, if_pos rfl, hdocuments]
    exact List.not_mem_nil

end Corpus

end TypeCorpus
