import TypeCorpus.Proofs.Corpus
import TypeCorpus.Proofs.Files.Enumeration
import TypeCorpus.Proofs.First
import TypeCorpus.Proofs.Wire.Definition
import TypeCorpus.Stub

/-! The wire structures of a directory of headers. The headers that can be read are gone through in
the order of their names, and each is scanned from the front; of the structures so found, one is
left out exactly where another with its C name came before it, in an earlier header or earlier in
its own. What is kept has names that fit together and functions that are called differently. -/

namespace TypeCorpus

open Text

namespace Stub

/-- Texts between the same two ends are as different as what lies between. -/
theorem nodup_map_between (front back : String) (xs : List String) :
    (xs.map fun x => front ++ x ++ back).Nodup ↔ xs.Nodup := by
  refine List.nodup_map_iff fun x y h => ?_
  simpa [← String.toList_inj] using h

end Stub

namespace HeaderScan

/-- The wire structures have different C names, each made from its base. -/
structure NamesApart (ws : List WireStruct) : Prop where
  nodup : (ws.map WireStruct.full).Nodup
  full_eq : ∀ w ∈ ws, w.full = "Wire_" ++ w.base

theorem NamesApart.nodup_bases {ws : List WireStruct} (h : NamesApart ws) :
    (ws.map WireStruct.base).Nodup := by
  have hfull : ws.map WireStruct.full = (ws.map WireStruct.base).map ("Wire_" ++ ·) := by
    rw [List.map_map]
    exact List.map_congr_left h.full_eq
  exact List.Nodup.of_map _ (hfull ▸ h.nodup)

theorem addWires_append (known ws ws' : List WireStruct) :
    addWires known (ws ++ ws') = addWires (addWires known ws) ws' := by
  induction ws generalizing known with
  | nil => rfl
  | cons w ws ih => rw [List.cons_append, addWires, addWires, ih, ih, apply_ite (addWires · ws')]

/-- What is kept of the wire structures that are found in order: each that is the first with its C
name. -/
structure Keeps (kept found : List WireStruct) : Prop where
  sublist : kept.Sublist found
  nodup : (kept.map WireStruct.full).Nodup
  mem_iff : ∀ w, w ∈ kept ↔
    ∃ front back, found = front ++ w :: back ∧ ∀ v ∈ front, v.full ≠ w.full

theorem keeps_firsts (found : List WireStruct) : Keeps (firsts WireStruct.full [] found) found where
  sublist := firsts_sublist _ _ _
  nodup := nodup_map_firsts _ _ _
  mem_iff w := by
    rw [mem_firsts_iff, List.find?_eq_some_iff_append]
    simp

end HeaderScan

namespace FileSystem

variable {fs : FileSystem} {dir : String} {files : List String} {place : Location}

/-- A header as it is read: its name and its text. -/
def header? (fs : FileSystem) (path : String) : Option (String × String) :=
  (fs.readText path).toOption.map fun content => ((Path.fileName? path).getD "", content)

/-- The headers among some files that can be read. -/
def headersAt (fs : FileSystem) (files : List String) : List (String × String) :=
  files.filterMap fs.header?

/-- What the scans of some headers find, one after the other. -/
def wiresAt (fs : FileSystem) (files : List String) : List WireStruct :=
  (fs.headersAt files).flatMap fun h => WireStruct.scan h.1 h.2

theorem value_readHeaders (fs : FileSystem) (h : HeaderScan) (files : List String) :
    (fs.readHeaders h files).value = {
      wires := HeaderScan.addWires h.wires (fs.wiresAt files)
      headers := h.headers ++ (fs.headersAt files).map Prod.fst } := by
  induction files generalizing h with
  | nil => simp [readHeaders, wiresAt, headersAt, HeaderScan.addWires]
  | cons path files ih =>
    cases hread : fs.readText path with
    | ok content =>
      have hheaders : fs.headersAt (path :: files) =
          ((Path.fileName? path).getD "", content) :: fs.headersAt files := by
        simp [headersAt, header?, hread, Except.toOption]
      simp only [readHeaders, hread, ih, wiresAt, hheaders, List.flatMap_cons, List.map_cons,
        HeaderScan.add, HeaderScan.addWires_append, List.append_assoc, List.singleton_append]
    | error e =>
      have hheaders : fs.headersAt (path :: files) = fs.headersAt files := by
        simp [headersAt, header?, hread, Except.toOption]
      simp only [readHeaders, hread, Traced.value_bind, ih, wiresAt, hheaders]

/-- The scan of a directory keeps the first structure with each C name. -/
theorem exists_scanHeaders (hfiles : fs.headerFiles dir = .ok files) :
    ∃ scan, fs.scanHeaders dir = .ok scan ∧
      scan.value.wires = firsts WireStruct.full [] (fs.wiresAt files) ∧
      scan.value.headers = (fs.headersAt files).map Prod.fst := by
  refine ⟨fs.readHeaders {} files, by rw [scanHeaders, hfiles], ?_⟩
  rw [value_readHeaders, HeaderScan.addWires_eq_firsts]
  exact ⟨rfl, rfl⟩

theorem named_of_mem_wiresAt {w : WireStruct} (h : w ∈ fs.wiresAt files) : w.Named := by
  obtain ⟨header, -, hw⟩ := List.mem_flatMap.1 h
  exact WireStruct.named_of_mem_scan hw

theorem namesApart_firsts (fs : FileSystem) (files : List String) :
    HeaderScan.NamesApart (firsts WireStruct.full [] (fs.wiresAt files)) where
  nodup := nodup_map_firsts _ _ _
  full_eq _ hw := (named_of_mem_wiresAt ((firsts_sublist _ _ _).subset hw)).full_eq

theorem namesApart_scanHeaders {scan : Traced Event HeaderScan}
    (h : fs.scanHeaders dir = .ok scan) : HeaderScan.NamesApart scan.value.wires := by
  cases hfiles : fs.headerFiles dir with
  | ok files =>
    obtain ⟨scan', hscan, hwires, -⟩ := exists_scanHeaders hfiles
    cases h.symm.trans hscan
    rw [hwires]
    exact fs.namesApart_firsts files
  | error e =>
    rw [scanHeaders, hfiles] at h
    cases h

/-! ### The order of the headers -/

theorem isPlain_of_mem_h : ∀ c ∈ "h".toList, Wildcard.IsPlain c := by simp [Wildcard.IsPlain]

theorem headerFiles_eq_ok_iff : fs.headerFiles dir = .ok files ↔
    fs.isDirectory dir = true ∧ fs.filesWith dir "h" = .ok files := by
  rw [headerFiles]
  split
  · rename_i hdir
    cases fs.filesWith dir "h" <;> simp [hdir]
  · rename_i hdir
    exact iff_of_false nofun fun h => hdir h.1

/-- Headers that are entries of one directory are read under their names. -/
theorem map_fst_headersAt (fs : FileSystem) (f : Found) {names : List String}
    (hnames : ∀ n ∈ names, IsName n) : (fs.headersAt (names.map f.next)).map Prod.fst =
      names.filter fun n => (fs.readText (f.next n)).isOk := by
  induction names with
  | nil => rfl
  | cons n names ih =>
    obtain ⟨hn, hnames⟩ := List.forall_mem_cons.1 hnames
    cases hread : fs.readText (f.next n) with
    | ok content =>
      have hheader : fs.header? (f.next n) = some (n, content) := by
        simp [header?, hread, Except.toOption, fileName?_next f hn]
      rw [List.map_cons, headersAt, List.filterMap_cons_some hheader, List.map_cons,
        List.filter_cons_of_pos (by simp [hread, Except.isOk, Except.toBool])]
      exact congrArg (n :: ·) (ih hnames)
    | error e =>
      have hheader : fs.header? (f.next n) = none := by simp [header?, hread, Except.toOption]
      rw [List.map_cons, headersAt, List.filterMap_cons_none hheader,
        List.filter_cons_of_neg (by simp [hread, Except.isOk, Except.toBool])]
      exact ih hnames

theorem isFile_of_readText_isOk {path : String} (h : (fs.readText path).isOk = true) :
    fs.isFile path = true := by
  cases hread : fs.readText path with
  | error e =>
    rw [hread] at h
    cases h
  | ok text =>
    obtain ⟨content, hbytes, -⟩ := readText_eq_ok_iff.1 hread
    obtain ⟨place, hlocate, hget⟩ := readBytes_eq_ok_iff.1 hbytes
    simp only [isFile, find?, hlocate, hget]

namespace WellFormed

variable (hfs : fs.WellFormed)

include hfs

/-- The names of the headers are in strict order. -/
theorem pairwise_headersAt (h : fs.headerFiles dir = .ok files) :
    ((fs.headersAt files).map Prod.fst).Pairwise fun n m => Text.ordered n m = true ∧ n ≠ m := by
  obtain ⟨hdir, hfiles⟩ := headerFiles_eq_ok_iff.1 h
  rw [hfs.filesWith_follow (ne_empty_of_isDirectory hdir) isPlain_of_mem_h] at hfiles
  obtain ⟨f, names, hsub, hnames⟩ := fs.exists_names_filesAt "h"
    (fs.follow (fs.startOf dir) ((Wildcard.relative dir.toList).splitOn '/'))
  rw [hnames] at hfiles
  cases hfiles
  have hisName : ∀ n ∈ names, IsName n := fun n hn =>
    hfs.isName_of_mem_names (hsub.subset hn) n (by simp)
  rw [fs.map_fst_headersAt f hisName]
  exact (hfs.pairwise_names f.place).sublist (List.filter_sublist.trans hsub)

/-- The headers of a directory, named by its path from the root, are the files in it whose names end
so and which can be read. -/
theorem headers_absolutePath (hplace : fs.get? place = some .directory)
    (hlen : Text.byteCount (absolutePath place).toList ≤ longestPath)
    (h : fs.headerFiles (absolutePath place) = .ok files) :
    (fs.headersAt files).map Prod.fst = (fs.names place).filter fun n =>
      ".h".toList.isSuffixOf n.toList && (fs.readText (absolutePath (place ++ [n]))).isOk := by
  obtain ⟨-, hfiles⟩ := headerFiles_eq_ok_iff.1 h
  rw [hfs.filesWith_absolutePath hplace hlen isPlain_of_mem_h] at hfiles
  cases hfiles
  have hnext : ∀ n ∈ fs.names place, absolutePath (place ++ [n]) = (Found.at place).next n :=
    fun n hn => (congrArg Found.path (entry_at (hfs.isName_of_mem_names hn))).symm
  have hentries : fs.entriesWith place "h" =
      ((fs.names place).filter fun n => ".h".toList.isSuffixOf n.toList).map
        (Found.at place).next :=
    List.map_congr_left fun n hn => hnext n (List.mem_filter.1 hn).1
  have hisName : ∀ n ∈ ((fs.names place).filter fun n => ".h".toList.isSuffixOf n.toList).filter
      (fs.isFile ∘ (Found.at place).next), IsName n := fun n hn =>
    hfs.isName_of_mem_names (List.mem_filter.1 (List.mem_filter.1 hn).1).1 n (by simp)
  rw [hentries, List.filter_map, fs.map_fst_headersAt _ hisName, List.filter_filter,
    List.filter_filter]
  refine List.filter_congr fun n hn => ?_
  rw [← hnext n hn, Bool.eq_iff_iff]
  simp only [Function.comp_apply, ← hnext n hn, Bool.and_eq_true]
  exact ⟨fun h => ⟨h.2, h.1.1⟩, fun h => ⟨⟨h.2, isFile_of_readText_isOk h.2⟩, h.1⟩⟩

end WellFormed

theorem nodup_functionNames_wires {ws : List WireStruct} (h : HeaderScan.NamesApart ws)
    (pre : String) : (ws.map fun w => Stub.functionName pre (.bytes w)).Nodup := by
  have hnames : (ws.map fun w => Stub.functionName pre (.bytes w)) =
      (ws.map WireStruct.base).map fun base => pre ++ "_send_" ++ base ++ "_struct" := by
    rw [List.map_map]
    rfl
  rw [hnames]
  exact (Stub.nodup_map_between _ _ _).2 h.nodup_bases

/-- The wire structures of a directory of headers are named by words, their topics are their types'
names flattened, and their functions are called differently. Of those that the scans of the headers
find, each in the order of its text, they are the first with each C name. The headers listed are
those that can be read, in the order of their names. -/
theorem scanHeaders_keeps_first (hfiles : fs.headerFiles dir = .ok files) :
    ∃ scan, fs.scanHeaders dir = .ok scan ∧
      (∀ w ∈ scan.value.wires, w.Named) ∧
      (∀ pre, (scan.value.wires.map fun w => Stub.functionName pre (.bytes w)).Nodup) ∧
      HeaderScan.Keeps scan.value.wires (fs.wiresAt files) ∧
      (∀ h ∈ fs.headersAt files, WireStruct.ScansText h.1 h.2) ∧
      scan.value.headers = (fs.headersAt files).map Prod.fst ∧
      (fs.WellFormed →
        scan.value.headers.Pairwise (fun n m => Text.ordered n m = true ∧ n ≠ m) ∧
        ∀ place, fs.get? place = some .directory → dir = absolutePath place →
          Text.byteCount dir.toList ≤ longestPath →
          scan.value.headers = (fs.names place).filter fun n =>
            ".h".toList.isSuffixOf n.toList &&
              (fs.readText (absolutePath (place ++ [n]))).isOk) := by
  obtain ⟨scan, hscan, hwires, hheaders⟩ := exists_scanHeaders hfiles
  have hkeeps : HeaderScan.Keeps scan.value.wires (fs.wiresAt files) := by
    rw [hwires]
    exact HeaderScan.keeps_firsts _
  have hnamed : ∀ w ∈ scan.value.wires, w.Named := fun w hw =>
    named_of_mem_wiresAt (hkeeps.sublist.subset hw)
  refine ⟨scan, hscan, hnamed, ?_, hkeeps, fun h _ => WireStruct.scansText h.1 h.2, hheaders,
    fun hfs => ?_⟩
  · exact nodup_functionNames_wires (namesApart_scanHeaders hscan)
  · rw [hheaders]
    refine ⟨hfs.pairwise_headersAt hfiles, ?_⟩
    rintro place hplace rfl hlen
    exact hfs.headers_absolutePath hplace hlen hfiles

/-- A directory with two headers that define one structure: the first has no comments, and in it a
definition begins in the word of another; the second documents the structure. -/
def sharedWire : FileSystem :=
  .oneDirectory [
    ("a.h", "typedef struct Wire_typedef struct Wire_X y; typedef struct Wire_P_Mode m;"),
    ("b.h", "/** Wire struct for Q::Mode */ typedef struct Wire_P_Mode m;" ++
      "/** Wire struct for Q::Speed */ typedef struct Wire_Q_Speed s;")]

theorem wellFormed_sharedWire : sharedWire.WellFormed :=
  wellFormed_oneDirectory (by decide) (by decide)

theorem headerFiles_sharedWire : sharedWire.headerFiles "/w" = .ok ["/w/a.h", "/w/b.h"] := by
  have hpath : absolutePath ["w"] = "/w" := by decide
  have hentries : sharedWire.entriesWith ["w"] "h" = ["/w/a.h", "/w/b.h"] := by
    rw [entriesWith, sharedWire, names_oneDirectory (by decide)]
    decide +kernel
  refine headerFiles_eq_ok_iff.2
    ⟨hpath ▸ wellFormed_sharedWire.isDirectory_absolutePath rfl (by decide), ?_⟩
  rw [← hpath, wellFormed_sharedWire.filesWith_absolutePath rfl (by decide) isPlain_of_mem_h,
    hentries]
  decide +kernel

/-- The structure is that of the first header, with a name guessed. -/
theorem scanHeaders_keeps_first_shared :
    sharedWire.headerFiles "/w" = .ok ["/w/a.h", "/w/b.h"] ∧
    ∃ scan, sharedWire.scanHeaders "/w" = .ok scan ∧
      HeaderScan.Keeps scan.value.wires (sharedWire.wiresAt ["/w/a.h", "/w/b.h"]) ∧
      scan.value.headers = ["a.h", "b.h"] ∧
      scan.value.headers = ((sharedWire.names ["w"]).filter fun n =>
        ".h".toList.isSuffixOf n.toList && (sharedWire.readText (absolutePath ["w", n])).isOk) ∧
      scan.value.wires.map WireStruct.typeName = ["typedef", "P::Mode", "Q::Speed"] := by
  obtain ⟨scan, hscan, -, -, hkeeps, -, hheaders, hnames⟩ :=
    scanHeaders_keeps_first headerFiles_sharedWire
  obtain ⟨scan', hscan', hwires, -⟩ := exists_scanHeaders headerFiles_sharedWire
  cases hscan.symm.trans hscan'
  have hplace : "/w" = absolutePath ["w"] := by decide
  refine ⟨headerFiles_sharedWire, scan, hscan, hkeeps, ?_,
    (hnames wellFormed_sharedWire).2 ["w"] rfl hplace (by decide), ?_⟩
  · rw [hheaders]
    decide +kernel
  · rw [hwires]
    decide +kernel

end FileSystem

end TypeCorpus
