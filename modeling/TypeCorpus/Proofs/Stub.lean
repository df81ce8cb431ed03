import TypeCorpus.Proofs.Topic
import TypeCorpus.Proofs.Wire.Directory

/-! Names of the generated functions. The functions of the two families end differently, and those
of the wire structures of a directory have different names because their bases differ. A topic's
function is named by its module and its structure with one underscore between them, which does not
tell where the module ends: two functions of one run share a name exactly where two topics part the
same text at different underscores. -/

namespace TypeCorpus

/-! ### Topics with one part of a function's name -/

namespace Topic

variable {t u : Topic} {m s m' s' : String}

/-- One topic's module goes on where another's ends, by an underscore and the front of the other's
structure. -/
def Clashes (t u : Topic) : Prop :=
  ∃ a b c, t.name.innermost = some a ∧ t.name.name = b ++ "_" ++ c ∧
    u.name.innermost = some (a ++ "_" ++ b) ∧ u.name.name = c

theorem append_underscore_eq {a b s t : List Char} (h : a ++ '_' :: s = b ++ '_' :: t) :
    (a = b ∧ s = t) ∨ (∃ m, b = a ++ '_' :: m ∧ s = m ++ '_' :: t) ∨
      ∃ m, a = b ++ '_' :: m ∧ t = m ++ '_' :: s := by
  rcases List.append_eq_append_iff.1 h with ⟨m, rfl, hm⟩ | ⟨m, rfl, hm⟩
  · cases m with
    | nil => simp_all
    | cons c m =>
      rw [List.cons_append, List.cons.injEq] at hm
      exact .inr (.inl ⟨m, by rw [hm.1], hm.2⟩)
  · cases m with
    | nil => simp_all
    | cons c m =>
      rw [List.cons_append, List.cons.injEq] at hm
      exact .inr (.inr ⟨m, by rw [hm.1], hm.2⟩)

theorem Joins.clashes (ht : t.Joins m s) (hu : u.Joins m' s') {p : List Char}
    (hm : m'.toList = m.toList ++ '_' :: p) (hs : s.toList = p ++ '_' :: s'.toList) :
    t.Clashes u := by
  refine ⟨m, String.ofList p, s', ht.innermost_eq, ?_, ?_, hu.name_eq⟩
  · rw [ht.name_eq, ← String.toList_inj, hs]
    simp
  · rw [hu.innermost_eq, Option.some.injEq, ← String.toList_inj, hm]
    simp

/-- Two topics have one part in the names of functions only if they have one name or clash. -/
theorem Joins.of_apiSuffix_eq (ht : t.Joins m s) (hu : u.Joins m' s')
    (h : t.apiSuffix = u.apiSuffix) :
    t.topicName = u.topicName ∨ t.Clashes u ∨ u.Clashes t := by
  have hlist := congrArg String.toList h
  rw [ht.toList_apiSuffix, hu.toList_apiSuffix] at hlist
  rcases append_underscore_eq hlist with ⟨hm, hs⟩ | ⟨p, hm, hs⟩ | ⟨p, hm, hs⟩
  · left
    rw [topicName, topicName, ht.logical_eq, hu.logical_eq, String.toList_inj.1 hm,
      String.toList_inj.1 hs]
  · exact .inr (.inl (ht.clashes hu hm hs))
  · exact .inr (.inr (hu.clashes ht hm hs))

/-- Topics that clash are two, with one part in the names of functions. -/
theorem Joins.of_clashes (ht : t.Joins m s) (hu : u.Joins m' s') (h : t.Clashes u) :
    t ≠ u ∧ t.apiSuffix = u.apiSuffix := by
  obtain ⟨a, b, c, hta, htb, hua, huc⟩ := h
  have hm : m = a := Option.some.inj (ht.innermost_eq.symm.trans hta)
  have hs : s = b ++ "_" ++ c := ht.name_eq.symm.trans htb
  have hm' : m' = a ++ "_" ++ b := Option.some.inj (hu.innermost_eq.symm.trans hua)
  have hs' : s' = c := hu.name_eq.symm.trans huc
  refine ⟨?_, ?_⟩
  · rintro rfl
    have hlen := congrArg (List.length ∘ String.toList) (Option.some.inj (hta.symm.trans hua))
    simp at hlen
  · rw [← String.toList_inj, ht.toList_apiSuffix, hu.toList_apiSuffix, hm, hs, hm', hs']
    simp

end Topic

/-! ### The functions of a run -/

namespace Stub

/-- The lines of a C source at which a function begins. -/
def openingLines (lines : List String) : List String :=
  lines.filter fun line => "int ".toList.isPrefixOf line.toList

theorem openingLines_append (lines lines' : List String) :
    openingLines (lines ++ lines') = openingLines lines ++ openingLines lines' :=
  List.filter_append _ _

/-- Stubs with one opening line each have these lines in order. -/
theorem openingLines_flatMap {block : Stub → List String} {opening : Stub → String}
    (h : ∀ s, openingLines (block s) = [opening s]) (stubs : List Stub) :
    openingLines (stubs.flatMap block) = stubs.map opening := by
  induction stubs with
  | nil => rfl
  | cons s stubs ih =>
    rw [List.flatMap_cons, openingLines_append, h, ih, List.map_cons, List.singleton_append]

/-- A source opens one function for each stub, in order, with the stub's signature. -/
theorem openingLines_sourceLines (pre : String) (stubs : List Stub) :
    openingLines (sourceLines pre stubs) = stubs.map fun s => s.signature pre ++ " \x7b" := by
  have hstub : ∀ s : Stub, openingLines (s.definitionLines pre) = [s.signature pre ++ " \x7b"] := by
    intro s
    simp [openingLines, definitionLines, signature]
  rw [sourceLines, openingLines_append, openingLines_flatMap hstub]
  simp [openingLines]

theorem functionName_json_ne_bytes (pre : String) (t : Topic) (w : WireStruct) :
    functionName pre (json t) ≠ functionName pre (bytes w) := by
  intro h
  have hlast := congrArg (fun x => x.toList.reverse.head?) h
  simp [functionName] at hlast

/-- The functions of a source have pairwise different names where their topics have different parts
in them, if the wire structures have different bases. -/
theorem nodup_functionNames_iff (pre : String) (topics : List Topic) {wires : List WireStruct}
    (h : (wires.map WireStruct.base).Nodup) :
    ((all topics wires).map (functionName pre)).Nodup ↔ (topics.map Topic.apiSuffix).Nodup := by
  have hjson : topics.map (functionName pre ∘ json) =
      (topics.map Topic.apiSuffix).map fun x => pre ++ "_send_" ++ x ++ "_json" := by
    rw [List.map_map]; rfl
  have hbytes : wires.map (functionName pre ∘ bytes) =
      (wires.map WireStruct.base).map fun x => pre ++ "_send_" ++ x ++ "_struct" := by
    rw [List.map_map]; rfl
  rw [all, List.map_append, List.map_map, List.map_map, List.nodup_append', hjson, hbytes,
    nodup_map_between, nodup_map_between, ← hjson, ← hbytes]
  refine ⟨fun hn => hn.1, fun hn => ⟨hn, h, ?_⟩⟩
  intro x hx hx'
  obtain ⟨t, -, rfl⟩ := List.mem_map.1 hx
  obtain ⟨w, -, hw⟩ := List.mem_map.1 hx'
  exact functionName_json_ne_bytes pre t w hw.symm

end Stub

namespace FileSystem

variable {fs : FileSystem} {dir structDir pre : String} {topics : Traced Event (List Topic)}
  {scan : Traced Event HeaderScan}

theorem nodup_apiSuffixes_iff (htopics : fs.collectTopics dir = .ok topics)
    (hjoins : ∀ t ∈ topics.value, ∃ m s, t.Joins m s) :
    (topics.value.map Topic.apiSuffix).Nodup ↔
      ∀ t ∈ topics.value, ∀ u ∈ topics.value, ¬ t.Clashes u := by
  have hnames := nodup_topicNames_collectTopics htopics
  constructor
  · intro hn t ht u hu hclash
    obtain ⟨m, s, hmt⟩ := hjoins t ht
    obtain ⟨m', s', hmu⟩ := hjoins u hu
    obtain ⟨hne, hsuffix⟩ := hmt.of_clashes hmu hclash
    exact hne (List.inj_on_of_nodup_map hn ht hu hsuffix)
  · intro hclash
    refine List.Nodup.map_on (fun t ht u hu hsuffix => ?_) (List.Nodup.of_map _ hnames)
    obtain ⟨m, s, hmt⟩ := hjoins t ht
    obtain ⟨m', s', hmu⟩ := hjoins u hu
    rcases hmt.of_apiSuffix_eq hmu hsuffix with hname | h | h
    · exact List.inj_on_of_nodup_map hnames ht hu hname
    · exact absurd h (hclash t ht u hu)
    · exact absurd h (hclash u hu t ht)

/-- The source that a run generates opens one function for each topic and each wire structure. Where
the modules and structures of the documents have identifiers for names, the names of these functions
are pairwise different exactly where no two topics clash; wire structures never get in the way. -/
theorem functionNames_distinct_iff (htopics : fs.collectTopics dir = .ok topics)
    (hscan : fs.scanHeaders structDir = .ok scan)
    (hid : ∀ files, fs.schemaFiles dir = .ok files → ∀ path ∈ files, ∀ d,
      fs.loadDocument path = .ok d → d.HasIdentifiers) :
    Stub.openingLines (Stub.sourceLines pre (Stub.all topics.value scan.value.wires)) =
      (Stub.all topics.value scan.value.wires).map (fun s => s.signature pre ++ " \x7b") ∧
    (((Stub.all topics.value scan.value.wires).map (Stub.functionName pre)).Nodup ↔
      ∀ t ∈ topics.value, ∀ u ∈ topics.value, ¬ t.Clashes u) := by
  refine ⟨Stub.openingLines_sourceLines pre _, ?_⟩
  rw [Stub.nodup_functionNames_iff pre _ (namesApart_scanHeaders hscan).nodup_bases]
  refine nodup_apiSuffixes_iff htopics fun t ht => ?_
  obtain ⟨files, hfiles, path, hpath, d, hd, htd⟩ := exists_of_mem_collectTopics htopics ht
  exact Topic.exists_joins (hid files hfiles path hpath d hd) htd

/-! ### Runs over one directory -/

theorem WellFormed.collectTopics_absolutePath (hfs : fs.WellFormed) (place : Location)
    (hplace : fs.get? place = some .directory)
    (hlen : Text.byteCount (absolutePath place).toList ≤ longestPath) :
    fs.collectTopics (absolutePath place) = .ok ((fun ts => Topic.sorted (Topic.distinct [] ts)) <$>
      fs.allTopics ((fs.entriesWith place "xml").filter fs.isFile)) := by
  rw [collectTopics, hfs.schemaFiles_absolutePath hplace hlen]

theorem WellFormed.scanHeaders_absolutePath (hfs : fs.WellFormed) (place : Location)
    (hplace : fs.get? place = some .directory)
    (hlen : Text.byteCount (absolutePath place).toList ≤ longestPath) :
    fs.scanHeaders (absolutePath place) =
      .ok (fs.readHeaders {} ((fs.entriesWith place "h").filter fs.isFile)) := by
  have hext : ∀ c ∈ "h".toList, Wildcard.IsPlain c := by simp [Wildcard.IsPlain]
  rw [scanHeaders, headerFiles, if_pos (hfs.isDirectory_absolutePath hplace hlen),
    hfs.filesWith_absolutePath hplace hlen hext]

/-- A working directory with a document of two modules, of one structure each, and a header. -/
def twoModules (first struct second struct' : String) : FileSystem :=
  .oneDirectory [("types.xml", "<types><module name='" ++ first ++ "'><struct name='" ++ struct ++
    "'/></module><module name='" ++ second ++ "'><struct name='" ++ struct' ++
    "'/></module></types>"),
    ("wires.h", "typedef struct Wire_P_C_Speed Wire_P_C_Speed;")]

theorem wellFormed_twoModules (first struct second struct' : String) :
    (twoModules first struct second struct').WellFormed := by
  refine wellFormed_oneDirectory (by simp) fun f hf => ?_
  rcases List.mem_cons.1 hf with rfl | hf
  · exact (by decide : IsName "types.xml")
  · exact List.mem_singleton.1 hf ▸ (by decide : IsName "wires.h")

/-- Either file of the directory is what is found with its extension. -/
theorem filesWith_twoModules (first struct second struct' : String) :
    let fs := twoModules first struct second struct'
    (fs.entriesWith ["w"] "xml").filter fs.isFile = ["/w/types.xml"] ∧
      (fs.entriesWith ["w"] "h").filter fs.isFile = ["/w/wires.h"] := by
  intro fs
  have hnames : fs.names ["w"] = ["types.xml", "wires.h"] := by
    have hsorted : ["types.xml", "wires.h"].Pairwise fun a b => Text.ordered a b = true := by decide
    exact names_oneDirectory hsorted
  have hxml : fs.isFile "/w/types.xml" = true := rfl
  have hh : fs.isFile "/w/wires.h" = true := rfl
  have hxmls : fs.entriesWith ["w"] "xml" = ["/w/types.xml"] := by
    rw [entriesWith, hnames]
    decide +kernel
  have hhs : fs.entriesWith ["w"] "h" = ["/w/wires.h"] := by
    rw [entriesWith, hnames]
    decide +kernel
  rw [hxmls, hhs, List.filter_cons_of_pos hxml, List.filter_cons_of_pos hh]
  exact ⟨rfl, rfl⟩

/-- What a run over the directory finds, if the document's topics have different names in order. -/
theorem exists_run_twoModules (first struct second struct' : String) (ts : List Topic)
    (ws : List WireStruct)
    (hread : ((twoModules first struct second struct').loadDocument "/w/types.xml").toOption.map
      (fun d => (d.topics, decide d.HasIdentifiers)) = some (ts, true))
    (hdistinct : Topic.distinct [] ts = ts)
    (hsorted : ts.Pairwise fun t u => Text.ordered t.topicName u.topicName = true)
    (hws : ((twoModules first struct second struct').readHeaders {} ["/w/wires.h"]).value.wires =
      ws) :
    let fs := twoModules first struct second struct'
    ∃ d topics scan, fs.schemaFiles (absolutePath ["w"]) = .ok ["/w/types.xml"] ∧
      fs.loadDocument "/w/types.xml" = .ok d ∧ d.HasIdentifiers ∧
      fs.collectTopics (absolutePath ["w"]) = .ok topics ∧ topics.value = ts ∧
      fs.scanHeaders (absolutePath ["w"]) = .ok scan ∧ scan.value.wires = ws := by
  intro fs
  have hfs : fs.WellFormed := wellFormed_twoModules _ _ _ _
  obtain ⟨hxml, hh⟩ := filesWith_twoModules first struct second struct'
  have hfiles : fs.schemaFiles (absolutePath ["w"]) =
      .ok ((fs.entriesWith ["w"] "xml").filter fs.isFile) :=
    hfs.schemaFiles_absolutePath rfl (by decide)
  have htopics := hfs.collectTopics_absolutePath ["w"] rfl (by decide)
  have hscan := hfs.scanHeaders_absolutePath ["w"] rfl (by decide)
  rw [hxml] at hfiles htopics
  rw [hh] at hscan
  cases hload : fs.loadDocument "/w/types.xml" with
  | error e => rw [hload] at hread; cases hread
  | ok d =>
    rw [hload] at hread
    obtain ⟨hd, hids⟩ := Prod.mk.inj (Option.some.inj hread)
    refine ⟨d, _, _, hfiles, rfl, of_decide_eq_true hids, htopics, ?_, hscan, hws⟩
    have hall : (fs.allTopics ["/w/types.xml"]).value = ts := by
      simp only [allTopics, hload, Traced.value_map, Traced.value_pure, hd, List.append_nil]
    rw [Traced.value_map, hall, hdistinct]
    exact List.mergeSort_of_pairwise hsorted

/-- Topics of two modules that do not clash. -/
theorem functionNames_distinct_speed :
    let fs := twoModules "P" "C_Speed" "Q" "C_Speed"
    ∃ topics scan, fs.collectTopics (absolutePath ["w"]) = .ok topics ∧
      fs.scanHeaders (absolutePath ["w"]) = .ok scan ∧
      topics.value.length = 2 ∧ scan.value.wires.length = 1 ∧
      ∀ t ∈ topics.value, ∀ u ∈ topics.value, ¬ t.Clashes u := by
  intro fs
  obtain ⟨d, topics, scan, hfiles, hd, hids, htopics, hts, hscan, hws⟩ :=
    exists_run_twoModules "P" "C_Speed" "Q" "C_Speed"
      [⟨.ofScope (some "P") "C_Speed"⟩, ⟨.ofScope (some "Q") "C_Speed"⟩]
      [.guessed "P_C_Speed" "wires.h"]
      (by decide +kernel) (by decide) (by decide) (by decide +kernel)
  have hnodup : ((Stub.all topics.value scan.value.wires).map
      (Stub.functionName "legacy")).Nodup := by
    rw [hts, hws]
    decide
  refine ⟨topics, scan, htopics, hscan, by rw [hts]; rfl, by rw [hws]; rfl,
    (functionNames_distinct_iff htopics hscan ?_).2.1 hnodup⟩
  intro files hfiles' path hpath d' hd'
  cases hfiles.symm.trans hfiles'
  rw [List.mem_singleton.1 hpath] at hd'
  cases hd.symm.trans hd'
  exact hids

/-- Topics of two modules that clash: one name for both functions. -/
theorem functionNames_collide :
    let fs := twoModules "A_B" "C" "A" "B_C"
    ∃ d topics scan, fs.schemaFiles (absolutePath ["w"]) = .ok ["/w/types.xml"] ∧
      fs.loadDocument "/w/types.xml" = .ok d ∧ d.HasIdentifiers ∧
      fs.collectTopics (absolutePath ["w"]) = .ok topics ∧
      fs.scanHeaders (absolutePath ["w"]) = .ok scan ∧
      ¬ ((Stub.all topics.value scan.value.wires).map (Stub.functionName "legacy")).Nodup := by
  intro fs
  obtain ⟨d, topics, scan, hfiles, hd, hids, htopics, hts, hscan, hws⟩ :=
    exists_run_twoModules "A_B" "C" "A" "B_C"
      [⟨.ofScope (some "A_B") "C"⟩, ⟨.ofScope (some "A") "B_C"⟩]
      [.guessed "P_C_Speed" "wires.h"]
      (by decide +kernel) (by decide) (by decide) (by decide +kernel)
  refine ⟨d, topics, scan, hfiles, hd, hids, htopics, hscan, ?_⟩
  rw [hts, hws]
  decide

end FileSystem

end TypeCorpus
