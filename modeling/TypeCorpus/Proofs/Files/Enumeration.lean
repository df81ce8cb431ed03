import Mathlib.Data.List.Sort
import TypeCorpus.Proofs.Files.Listing

/-! What a text for a directory enumerates. However the directory is spelled, each piece of the text
leads on to one place at most, and there to the entries with the extension, whose paths differ in
their last name only; so they are found in the order of their paths. What is passed on the way are
directories, so file systems with the same directories are searched in the same way and in the same
place. -/

namespace TypeCorpus

open Wildcard (Part)

/-! ### The order of paths -/

namespace Path

/-- The first path comes before the second, by their components. -/
def Before (p q : String) : Prop :=
  Text.notAfter (orderKey p) (orderKey q) = true ∧ orderKey p ≠ orderKey q

theorem notAfter_append (key : List ℕ) {s t : List ℕ} (h : Text.notAfter s t = true) :
    Text.notAfter (key ++ s) (key ++ t) = true := by
  induction key with
  | nil => exact h
  | cons a key ih =>
    rw [List.cons_append, List.cons_append, Text.notAfter, if_pos rfl]
    exact ih

/-- A zero behind the codes of the characters keeps their order. -/
theorem notAfter_codes {s t : List Char}
    (h : Text.notAfter (s.map Char.toNat) (t.map Char.toNat) = true) :
    Text.notAfter (s.map (fun c => c.toNat + 1) ++ [0]) (t.map (fun c => c.toNat + 1) ++ [0]) =
      true := by
  induction s generalizing t with
  | nil =>
    cases t with
    | nil => rfl
    | cons d t => simp [Text.notAfter]
  | cons c s ih =>
    cases t with
    | nil => simp [Text.notAfter] at h
    | cons d t =>
      simp only [List.map_cons, List.cons_append, Text.notAfter] at h ⊢
      by_cases hcd : c.toNat = d.toNat
      · rw [if_pos hcd] at h
        rw [if_pos (by omega)]
        exact ih h
      · rw [if_neg hcd, decide_eq_true_eq] at h
        rw [if_neg (by omega), decide_eq_true_eq]
        omega

theorem pieces_of_notMem {name : String} (h : '/' ∉ name.toList) :
    pieces name = [name.toList] := List.splitOn_eq_singleton h

theorem slash_notMem_of_mem_splitOn {s piece : List Char} (h : piece ∈ s.splitOn '/') :
    '/' ∉ piece := by
  induction s generalizing piece with
  | nil =>
    rw [List.splitOn_nil, List.mem_singleton] at h
    rw [h]
    exact List.not_mem_nil
  | cons c s ih =>
    rw [List.splitOn_cons_eq_if_modifyHead] at h
    split at h
    · rcases List.mem_cons.1 h with rfl | h
      · exact List.not_mem_nil
      · exact ih h
    · rename_i hc
      cases hs : s.splitOn '/' with
      | nil => rw [hs] at h; cases h
      | cons first rest =>
        rw [hs] at h ih
        rcases List.mem_cons.1 h with rfl | h
        · rw [List.mem_cons, not_or]
          exact ⟨fun hslash => hc (beq_iff_eq.2 hslash.symm), ih List.mem_cons_self⟩
        · exact ih (List.mem_cons_of_mem _ h)

theorem isAbsolute_of_notMem {name : String} (h : '/' ∉ name.toList) : isAbsolute name = false := by
  rw [isAbsolute, decide_eq_false_iff_not]
  exact fun hhead => h (List.mem_of_head? hhead)

theorem pieces_of_getLast? {path : String} (h : path.toList.getLast? = some '/') :
    pieces path = (pieces path).dropLast ++ [[]] := by
  obtain ⟨front, hfront⟩ := List.getLast?_eq_some_iff.1 h
  rw [pieces, hfront, List.splitOn_append_cons_self, List.splitOn_nil, List.dropLast_concat]

/-- The pieces before a name in the paths below a path. -/
def above (base : String) : List (List Char) :=
  if base = "" then [] else if base.toList.getLast? = some '/' then (pieces base).dropLast
  else pieces base

/-- A name below a path is one more piece. -/
theorem pieces_join (base : String) {name : String} (hname : '/' ∉ name.toList) :
    pieces (join base name) = above base ++ [name.toList] ∧
      isAbsolute (join base name) = isAbsolute base := by
  rw [join, isAbsolute_of_notMem hname, if_neg Bool.false_ne_true, above]
  by_cases hempty : base = ""
  · rw [if_pos (.inl hempty), if_pos hempty, hempty, String.empty_append, pieces_of_notMem hname,
      isAbsolute_of_notMem hname]
    exact ⟨rfl, rfl⟩
  rw [if_neg hempty]
  have hhead : ∀ s, (base.toList ++ s).head? = base.toList.head? := fun s =>
    List.head?_append_of_ne_nil _ fun h => hempty (String.toList_inj.1 h)
  by_cases hlast : base.toList.getLast? = some '/'
  · obtain ⟨front, hfront⟩ := List.getLast?_eq_some_iff.1 hlast
    rw [if_pos (.inr hlast), if_pos hlast, isAbsolute, isAbsolute, String.toList_append, hhead,
      pieces, pieces, String.toList_append, hfront, List.append_assoc, List.singleton_append,
      List.splitOn_append_cons_self, List.splitOn_append_cons_self, List.splitOn_eq_singleton hname,
      List.splitOn_nil, List.dropLast_concat]
    exact ⟨rfl, rfl⟩
  · have htext : (base ++ "/" ++ name).toList = base.toList ++ '/' :: name.toList := by simp
    rw [if_neg (not_or.2 ⟨hempty, hlast⟩), if_neg hlast, isAbsolute, isAbsolute, pieces, htext,
      hhead, List.splitOn_append_cons_self, List.splitOn_eq_singleton hname]
    exact ⟨rfl, rfl⟩

end Path

namespace FileSystem

variable {fs fs' : FileSystem} {f g : Found} {here place : Location} {name : String}

/-! ### Paths of what is found -/

/-- A path that means the directory it is read in has no other pieces than dots and empty ones. -/
theorem blank_of_isHere {path : String} (h : Path.isHere path = true) :
    Path.isAbsolute path = false ∧ ∀ piece ∈ Path.pieces path, piece = [] ∨ piece = ['.'] := by
  simp only [Path.isHere, Bool.and_eq_true, Bool.not_eq_true', decide_eq_true_eq] at h
  obtain ⟨habsolute, hcomponents⟩ := h
  refine ⟨habsolute, fun piece hpiece => ?_⟩
  by_contra hnot
  rw [not_or] at hnot
  obtain ⟨i, hi⟩ := List.mem_iff_getElem?.1 hpiece
  have hmem : piece ∈ (Path.components path).map Prod.fst := by
    refine List.mem_map.2
      ⟨(piece, i), List.mem_filter.2 ⟨List.mk_mem_zipIdx_iff_getElem?.2 hi, ?_⟩, rfl⟩
    simp [Path.isComponent, hnot.1, hnot.2]
  rw [hcomponents, List.mem_singleton] at hmem
  exact hnot.2 hmem

/-- The pieces before a name in the paths of the entries. -/
def Found.above (f : Found) : List (List Char) :=
  if Path.isHere f.path ∨ f.path = "" then []
  else if f.path.toList.getLast? = some '/' then (Path.pieces f.path).dropLast
  else Path.pieces f.path

/-- The pieces before a name in the paths of the entries are those of the path itself, unless it
means the directory that it is read in. -/
theorem Found.above_eq (f : Found) :
    f.above = if Path.isHere f.path then [] else Path.above f.path := by
  rw [Found.above, Path.above]
  by_cases hhere : Path.isHere f.path = true
  · rw [if_pos (.inl hhere), if_pos hhere]
  rw [if_neg hhere]
  by_cases hempty : f.path = ""
  · rw [if_pos (.inr hempty), if_pos hempty]
  · rw [if_neg (not_or.2 ⟨hhere, hempty⟩), if_neg hempty]

/-- The paths of the entries differ in the last piece only. -/
theorem pieces_next (f : Found) (hname : '/' ∉ name.toList) :
    Path.pieces (f.next name) = f.above ++ [name.toList] ∧
      Path.isAbsolute (f.next name) = Path.isAbsolute f.path := by
  rw [Found.next, Found.above_eq]
  by_cases hhere : Path.isHere f.path = true
  · rw [if_pos hhere, if_pos hhere, Path.pieces_of_notMem hname, Path.isAbsolute_of_notMem hname,
      (blank_of_isHere hhere).1]
    exact ⟨rfl, rfl⟩
  · rw [if_neg hhere, if_neg hhere]
    exact Path.pieces_join f.path hname

/-- The last component of an entry's path is its name. -/
theorem components_next (f : Found) (hname : IsName name) :
    Path.components (f.next name) = (f.above.zipIdx.filter fun p =>
      Path.isComponent (Path.isAbsolute f.path) p.1 p.2) ++ [(name.toList, f.above.length)] := by
  obtain ⟨hpieces, habsolute⟩ := pieces_next f hname.slash_notMem
  have hcomponent : Path.isComponent (Path.isAbsolute f.path) name.toList f.above.length =
      true := by
    simp [Path.isComponent, hname.toList_ne_nil, hname.toList_ne_dot]
  rw [Path.components, hpieces, habsolute, List.zipIdx_append, List.filter_append]
  simp [hcomponent]

/-- The order of the entries' paths is that of their names. -/
theorem orderKey_next (f : Found) (hname : IsName name) :
    Path.orderKey (f.next name) =
      ((if Path.isAbsolute f.path then [1] else []) ++ (f.above.zipIdx.filter fun p =>
        Path.isComponent (Path.isAbsolute f.path) p.1 p.2).flatMap fun p =>
          Path.componentKey p.1) ++ Path.componentKey name.toList := by
  obtain ⟨-, habsolute⟩ := pieces_next f hname.slash_notMem
  rw [Path.orderKey, components_next f hname, habsolute, List.flatMap_append, List.append_assoc,
    List.flatMap_singleton]

theorem fileName?_next (f : Found) (hname : IsName name) :
    Path.fileName? (f.next name) = some name := by
  have hdots : ¬ (name.toList = ['.'] ∨ name.toList = ['.', '.']) :=
    not_or.2 ⟨hname.toList_ne_dot, hname.toList_ne_dots⟩
  simp only [Path.fileName?, components_next f hname, List.getLast?_append, List.getLast?_singleton,
    Option.some_or, if_neg hdots, String.ofList_toList]

theorem before_next (f : Found) {n m : String} (hn : IsName n) (hm : IsName m)
    (hle : Text.ordered n m = true) (hne : n ≠ m) : Path.Before (f.next n) (f.next m) := by
  rw [Path.Before, orderKey_next f hn, orderKey_next f hm]
  refine ⟨Path.notAfter_append _ ?_, fun h => ?_⟩
  · rw [componentKey_eq hn, componentKey_eq hm]
    exact Path.notAfter_append [4] (Path.notAfter_codes hle)
  · have hend : Path.componentKey n.toList ++ [] = Path.componentKey m.toList ++ [] := by
      rw [List.append_nil, List.append_nil]
      exact List.append_cancel_left h
    exact hne (componentKey_append_inj hn hm hend).1

/-! ### Walking on -/

/-- Dots and empty pieces lead nowhere else. -/
theorem walk_blank {pieces : List (List Char)}
    (hblank : ∀ piece ∈ pieces, piece = [] ∨ piece = ['.'])
    (h : fs.walk here pieces = .ok place) : place = here := by
  induction pieces with
  | nil => exact (Except.ok.inj h).symm
  | cons piece pieces ih =>
    rw [walk] at h
    split at h
    · dsimp only at h
      rw [if_pos (hblank piece List.mem_cons_self)] at h
      exact ih (fun p hp => hblank p (List.mem_cons_of_mem _ hp)) h
    · cases h

theorem piece?_eq_some_iff : fs.piece? f name = some g ↔
    ¬ ((name = "." ∨ name = "..") ∧ (!fs.holdsDirectory f) = true) ∧ g.path = f.next name ∧
      fs.locate (f.next name) = .ok g.place := by
  have hpath : (if Path.isHere f.path = true then name else Path.join f.path name) =
      f.next name := rfl
  simp only [piece?, hpath]
  split
  · rename_i hdots
    simp [hdots]
  · rename_i hdots
    cases fs.locate (f.next name) with
    | error e => simp
    | ok place =>
      obtain ⟨path, place'⟩ := g
      simp only [Option.some.injEq, Found.mk.injEq, Except.ok.injEq, hdots, not_false_iff, true_and]
      exact and_congr eq_comm Iff.rfl

/-- What was found is where its path leads. -/
structure Found.Reached (fs : FileSystem) (f : Found) : Prop where
  path_ne_empty : f.path ≠ ""
  walk_eq : fs.walk (fs.origin f.path) (Path.pieces f.path) = .ok f.place

namespace Found.Reached

/-- The pieces before the names of the entries lead to the directory. -/
theorem walk_above (h : f.Reached fs) : fs.walk (fs.origin f.path) f.above = .ok f.place := by
  have hwalk := h.walk_eq
  rw [Found.above]
  by_cases hhere : Path.isHere f.path = true
  · rw [if_pos (.inl hhere), walk_blank (blank_of_isHere hhere).2 hwalk]
    rfl
  rw [if_neg (not_or.2 ⟨hhere, h.path_ne_empty⟩)]
  split
  · rename_i hlast
    rw [Path.pieces_of_getLast? hlast, walk_append] at hwalk
    cases hfront : fs.walk (fs.origin f.path) (Path.pieces f.path).dropLast with
    | error e =>
      rw [hfront] at hwalk
      cases hwalk
    | ok there =>
      rw [hfront] at hwalk
      rw [walk_blank (by simp) hwalk]
  · exact hwalk

/-- The path of a piece goes on where the path before it has led to. -/
theorem walk_next (h : f.Reached fs) (hname : '/' ∉ name.toList) :
    fs.walk (fs.origin (f.next name)) (Path.pieces (f.next name)) =
      fs.walk f.place [name.toList] := by
  obtain ⟨hpieces, habsolute⟩ := pieces_next f hname
  have horigin : fs.origin (f.next name) = fs.origin f.path := by rw [origin, habsolute, origin]
  rw [hpieces, horigin, walk_append, h.walk_above]
  rfl

/-- The path of an entry of a directory leads to it. -/
theorem entry (hfs : fs.WellFormed) (h : f.Reached fs)
    (hname : name ∈ fs.names f.place) : (f.entry name).Reached fs := by
  have hisName : IsName name := hfs.isName_of_mem_names hname name (by simp)
  obtain ⟨hpieces, -⟩ := pieces_next f hisName.slash_notMem
  refine ⟨fun hempty => ?_, ?_⟩
  · have hpath : f.next name = "" := hempty
    rw [hpath] at hpieces
    have hone : f.above ++ [name.toList] = [] ++ [[]] := hpieces.symm
    exact hisName.toList_ne_nil (List.cons.inj (List.append_inj' hone rfl).2).1
  · exact (h.walk_next hisName.slash_notMem).trans
      (hfs.walk_names f.place [name] (mem_names_iff_isSome.1 hname))

/-- Every part leads from a directory, and to where its path leads. -/
theorem step? (hfs : fs.WellFormed) (h : f.Reached fs) {piece : List Char} (hpiece : '/' ∉ piece)
    (hg : fs.step? f piece = some g) : fs.get? f.place = some .directory ∧ g.Reached fs := by
  have hslash : '/' ∉ (String.ofList piece).toList := by rwa [String.toList_ofList]
  rw [FileSystem.step?] at hg
  split at hg
  · obtain ⟨-, hpath, hlocate⟩ := piece?_eq_some_iff.1 hg
    obtain ⟨-, hwalk⟩ := walk_of_locate hlocate
    have hdirectory : fs.get? f.place = some .directory := by
      rw [h.walk_next hslash] at hwalk
      exact (walk_cons hwalk).1
    refine ⟨hdirectory, ⟨fun hempty => ?_, hpath ▸ hwalk⟩⟩
    rw [← hpath, hempty] at hlocate
    cases hlocate
  · split at hg
    · rename_i hentry
      cases hg
      exact ⟨of_decide_eq_true hentry.1, h.entry hfs hentry.2⟩
    · cases hg

/-- Following pieces leads to where the path leads, and from a directory if to one. -/
theorem follow (hfs : fs.WellFormed) (h : f.Reached fs) {pieces : List (List Char)}
    (hpieces : ∀ piece ∈ pieces, '/' ∉ piece) (hg : fs.follow f pieces = some g) :
    g.Reached fs ∧ (fs.get? g.place = some .directory → fs.get? f.place = some .directory) := by
  induction pieces generalizing f with
  | nil =>
    cases hg
    exact ⟨h, id⟩
  | cons piece pieces ih =>
    obtain ⟨hpiece, hpieces⟩ := List.forall_mem_cons.1 hpieces
    obtain ⟨there, hthere, hg⟩ := Option.bind_eq_some_iff.1 hg
    obtain ⟨hdirectory, hreached⟩ := h.step? hfs hpiece hthere
    exact ⟨(ih hreached hpieces hg).1, fun _ => hdirectory⟩

end Found.Reached

theorem reached_startOf (hfs : fs.WellFormed) (path : String) : (fs.startOf path).Reached fs := by
  rw [startOf]
  split
  · exact ⟨(by decide : "/" ≠ ""), rfl⟩
  · refine ⟨(by decide : "." ≠ ""), ?_⟩
    have hpieces : Path.pieces "." = [['.']] := by decide
    have horigin : fs.origin "." = fs.workingDirectory := rfl
    rw [hpieces, horigin, walk, hfs.workingDirectory]
    rfl

namespace WellFormed

variable (hfs : fs.WellFormed)

include hfs

/-- The names of a directory are in strict order. -/
theorem pairwise_names (here : Location) :
    (fs.names here).Pairwise fun n m => Text.ordered n m = true ∧ n ≠ m := by
  have htrans : ∀ n m k : String, Text.ordered n m = true → Text.ordered m k = true →
      Text.ordered n k = true := fun _ _ _ => Text.notAfter_trans
  have htotal : ∀ n m : String, (Text.ordered n m || Text.ordered m n) = true :=
    fun _ _ => Text.notAfter_total _ _
  exact (List.pairwise_mergeSort htrans htotal _).and (hfs.nodup_names here)

/-- The files are found in the order of their paths, each once. -/
theorem pairwise_filesAt (ext : String) (f : Found) :
    (fs.filesAt ext f).Pairwise Path.Before := by
  rw [filesAt]
  split
  · have hnames : ∀ n ∈ fs.names f.place, IsName n := fun n hn =>
      hfs.isName_of_mem_names hn n (by simp)
    refine List.Pairwise.filter _ (List.pairwise_map.2 (List.Pairwise.filter _ ?_))
    exact (hfs.pairwise_names f.place).imp_of_mem fun hn hm h =>
      before_next f (hnames _ hn) (hnames _ hm) h.1 h.2
  · exact .nil

end WellFormed

theorem ne_empty_of_isDirectory {dir : String} (h : fs.isDirectory dir = true) : dir ≠ "" := by
  rintro rfl
  cases h

/-- Files found with an extension are entries of one directory. -/
theorem exists_names_filesAt (fs : FileSystem) (ext : String) (o : Option Found) :
    ∃ (f : Found) (names : List String), names.Sublist (fs.names f.place) ∧
      o.elim [] (fs.filesAt ext) = names.map f.next := by
  cases o with
  | none => exact ⟨⟨"", []⟩, [], List.nil_sublist _, rfl⟩
  | some f =>
    rw [Option.elim_some, filesAt]
    split
    · rw [List.filter_map]
      exact ⟨f, _, List.filter_sublist.trans List.filter_sublist, rfl⟩
    · exact ⟨f, [], List.nil_sublist _, rfl⟩

/-- The documents of a directory are enumerated whenever it is one. -/
theorem WellFormed.schemaFiles_eq (hfs : fs.WellFormed) (dir : String) :
    fs.schemaFiles dir =
      if fs.isDirectory dir then
        .ok ((fs.follow (fs.startOf dir) ((Wildcard.relative dir.toList).splitOn '/')).elim []
          (fs.filesAt "xml"))
      else .error (.enumerate dir .notADirectory) := by
  rw [schemaFiles]
  split
  · rename_i hdirectory
    rw [hfs.filesWith_follow (ne_empty_of_isDirectory hdirectory) isPlain_of_mem_xml]
  · rfl

/-- The documents of a directory are in the order of their paths, each once. -/
theorem WellFormed.pairwise_schemaFiles (hfs : fs.WellFormed) {dir : String} {files : List String}
    (h : fs.schemaFiles dir = .ok files) : files.Pairwise Path.Before := by
  rw [hfs.schemaFiles_eq] at h
  split at h
  · cases h
    cases fs.follow (fs.startOf dir) ((Wildcard.relative dir.toList).splitOn '/') with
    | none => exact .nil
    | some g => exact hfs.pairwise_filesAt "xml" g
  · cases h

/-! ### The same directories -/

/-- Two file systems with the same directories; their files may differ. -/
structure SameDirectories (fs fs' : FileSystem) : Prop where
  workingDirectory : fs.workingDirectory = fs'.workingDirectory
  directory_iff : ∀ place, fs.get? place = some .directory ↔ fs'.get? place = some .directory

namespace SameDirectories

variable (hsame : SameDirectories fs fs')

include hsame

theorem keepsDirectories : KeepsDirectories fs fs' :=
  ⟨hsame.workingDirectory, fun place => (hsame.directory_iff place).1⟩

theorem trans {fs'' : FileSystem} (hsame' : SameDirectories fs' fs'') : SameDirectories fs fs'' :=
  ⟨hsame.workingDirectory.trans hsame'.workingDirectory,
    fun place => (hsame.directory_iff place).trans (hsame'.directory_iff place)⟩

theorem symm : SameDirectories fs' fs :=
  ⟨hsame.workingDirectory.symm, fun place => (hsame.directory_iff place).symm⟩

theorem holdsDirectory_eq (f : Found) : fs.holdsDirectory f = fs'.holdsDirectory f := by
  rw [holdsDirectory, holdsDirectory, Bool.eq_iff_iff, decide_eq_true_eq, decide_eq_true_eq]
  exact hsame.directory_iff f.place

/-- A path leads to what is there in both. -/
theorem locate_eq {path : String} (h : fs.locate path = .ok place)
    (hplace : (fs'.get? place).isSome = true) : fs'.locate path = .ok place :=
  hsame.keepsDirectories.locate_eq h hplace

theorem step?_eq {piece : List Char} (h : fs.step? f piece = some g)
    (hg : (fs'.get? g.place).isSome = true) : fs'.step? f piece = some g := by
  rw [step?] at h ⊢
  split
  · rename_i hplain
    rw [if_pos hplain, piece?_eq_some_iff] at h
    rw [piece?_eq_some_iff, ← hsame.holdsDirectory_eq f]
    exact ⟨h.1, h.2.1, hsame.locate_eq h.2.2 hg⟩
  · rename_i hplain
    rw [if_neg hplain] at h
    split at h
    · rename_i hentry
      cases h
      rw [if_pos ⟨hsame.holdsDirectory_eq f ▸ hentry.1, mem_names_iff_isSome.2 hg⟩]
    · cases h

/-- The pieces of a text lead to the same directory. -/
theorem follow_eq (hfs : fs.WellFormed) (hf : f.Reached fs) {pieces : List (List Char)}
    (hpieces : ∀ piece ∈ pieces, '/' ∉ piece) (h : fs.follow f pieces = some g)
    (hg : fs.get? g.place = some .directory) : fs'.follow f pieces = some g := by
  induction pieces generalizing f with
  | nil => exact h
  | cons piece pieces ih =>
    obtain ⟨hpiece, hpieces⟩ := List.forall_mem_cons.1 hpieces
    obtain ⟨there, hthere, h⟩ := Option.bind_eq_some_iff.1 h
    have hreached := (hf.step? hfs hpiece hthere).2
    have hdirectory := (hsame.directory_iff _).1 ((hreached.follow hfs hpieces h).2 hg)
    rw [follow, hsame.step?_eq hthere (by rw [hdirectory]; rfl), Option.bind_some]
    exact ih hreached hpieces h

theorem isDirectory_of_isDirectory {dir : String} (h : fs.isDirectory dir = true) :
    fs'.isDirectory dir = true := by
  rw [isDirectory, decide_eq_true_eq, find?] at h ⊢
  cases hlocate : fs.locate dir with
  | error e =>
    rw [hlocate] at h
    cases h
  | ok place =>
    rw [hlocate] at h
    have hplace := (hsame.directory_iff place).1 h
    rw [hsame.locate_eq hlocate (by rw [hplace]; rfl)]
    exact hplace

theorem isDirectory_eq (dir : String) : fs.isDirectory dir = fs'.isDirectory dir :=
  Bool.eq_iff_iff.2 ⟨hsame.isDirectory_of_isDirectory, hsame.symm.isDirectory_of_isDirectory⟩

/-- A directory that one file system enumerates is enumerated in the other. -/
theorem exists_schemaFiles (hfs : fs.WellFormed) (hfs' : fs'.WellFormed) {dir : String}
    {files : List String} (h : fs.schemaFiles dir = .ok files) :
    ∃ files', fs'.schemaFiles dir = .ok files' := by
  rw [hfs.schemaFiles_eq, hsame.isDirectory_eq dir] at h
  split at h
  · rename_i hdir
    exact ⟨_, by rw [hfs'.schemaFiles_eq, if_pos hdir]⟩
  · cases h

/-- A document that one file system enumerates is enumerated in the other, if it is there. -/
theorem mem_schemaFiles (hfs : fs.WellFormed) (hfs' : fs'.WellFormed) {dir path : String}
    {files files' : List String} (h : fs.schemaFiles dir = .ok files)
    (h' : fs'.schemaFiles dir = .ok files') (hpath : path ∈ files)
    (hlocate : fs.locate path = .ok place) {content : ByteArray}
    (hfile : fs'.get? place = some (.file content)) : path ∈ files' := by
  have hpieces : ∀ piece ∈ (Wildcard.relative dir.toList).splitOn '/', '/' ∉ piece :=
    fun piece hpiece => Path.slash_notMem_of_mem_splitOn hpiece
  have hstart : fs'.startOf dir = fs.startOf dir := by rw [startOf, startOf, hsame.workingDirectory]
  rw [hfs.schemaFiles_eq] at h
  rw [hfs'.schemaFiles_eq, hstart] at h'
  split at h
  case isFalse => cases h
  split at h'
  case isFalse => cases h'
  cases h
  cases h'
  cases hg : fs.follow (fs.startOf dir) ((Wildcard.relative dir.toList).splitOn '/') with
  | none =>
    rw [hg] at hpath
    cases hpath
  | some g =>
    rw [hg, Option.elim_some, filesAt] at hpath
    split at hpath
    · rename_i hdirectory
      have hstarted := reached_startOf hfs dir
      obtain ⟨hentry, -⟩ := List.mem_filter.1 hpath
      obtain ⟨n, hn, rfl⟩ := List.mem_map.1 hentry
      obtain ⟨hn, hends⟩ := List.mem_filter.1 hn
      have hplace : place = g.place ++ [n] := Except.ok.inj <|
        (walk_of_locate hlocate).2.symm.trans
          ((hstarted.follow hfs hpieces hg).1.entry hfs hn).walk_eq
      have hsome : (fs'.get? place).isSome = true := by rw [hfile]; rfl
      rw [hsame.follow_eq hfs hstarted hpieces hg (of_decide_eq_true hdirectory),
        Option.elim_some, filesAt, ← hsame.holdsDirectory_eq, if_pos hdirectory]
      refine List.mem_filter.2 ⟨List.mem_map.2 ⟨n, List.mem_filter.2 ⟨?_, hends⟩, rfl⟩, ?_⟩
      · exact mem_names_iff_isSome.2 (hplace ▸ hsome)
      · simp only [isFile, find?, hsame.locate_eq hlocate hsome, hfile]
    · cases hpath

end SameDirectories

end FileSystem

end TypeCorpus
