import Mathlib.Data.List.Basic
import Mathlib.Data.List.Induction
import TypeCorpus.Corpus.Inputs

/-! Locations and the paths that name them. In a well-formed file system every entry has names that
a path can spell and lies in a directory. A location that is there is found again by the path that
spells its names from the root, as long as the path is not too long; the parent of that path spells
the directory around it, and the order of such paths tells their locations apart. -/

namespace TypeCorpus

namespace FileSystem

/-- A name that a path can spell: not empty, not dots, without a slash, not too long. -/
structure IsName (name : String) : Prop where
  ne_empty : name ≠ ""
  ne_dot : name ≠ "."
  ne_dots : name ≠ ".."
  slash_notMem : '/' ∉ name.toList
  nul_notMem : '\x00' ∉ name.toList
  length_le : Text.byteCount name.toList ≤ longestName

instance (name : String) : Decidable (IsName name) :=
  decidable_of_iff (name ≠ "" ∧ name ≠ "." ∧ name ≠ ".." ∧ '/' ∉ name.toList ∧
      '\x00' ∉ name.toList ∧ Text.byteCount name.toList ≤ longestName)
    ⟨fun ⟨h₁, h₂, h₃, h₄, h₅, h₆⟩ => ⟨h₁, h₂, h₃, h₄, h₅, h₆⟩,
      fun ⟨h₁, h₂, h₃, h₄, h₅, h₆⟩ => ⟨h₁, h₂, h₃, h₄, h₅, h₆⟩⟩

/-- Every entry has proper names and lies in a directory, and so does the working directory. -/
structure WellFormed (fs : FileSystem) : Prop where
  nodup : fs.entries.keys.Nodup
  isName : ∀ place ∈ fs.entries.keys, ∀ name ∈ place, IsName name
  parent : ∀ place ∈ fs.entries.keys, place ≠ [] ∧ fs.get? place.dropLast = some .directory
  workingDirectory : fs.get? fs.workingDirectory = some .directory

/-- The path that spells the names of a location from the root. -/
def absolutePath (place : Location) : String := "/" ++ "/".intercalate place

variable {fs : FileSystem} {here place : Location} {name : String}

namespace IsName

theorem toList_ne_nil (h : IsName name) : name.toList ≠ [] :=
  fun hn => h.ne_empty (String.toList_inj.1 hn)

theorem toList_ne_dot (h : IsName name) : name.toList ≠ ['.'] :=
  fun hn => h.ne_dot (String.toList_inj.1 hn)

theorem toList_ne_dots (h : IsName name) : name.toList ≠ ['.', '.'] :=
  fun hn => h.ne_dots (String.toList_inj.1 hn)

end IsName

/-! ### Entries -/

theorem isSome_get?_iff (hplace : place ≠ []) :
    (fs.get? place).isSome = true ↔ place ∈ fs.entries.keys := by
  cases place with
  | nil => exact absurd rfl hplace
  | cons name rest => exact (Table.mem_keys_iff _ _).symm

/-- A step of a walk begins in a directory and stays, goes up, or goes to an entry. -/
theorem walk_cons {piece : List Char} {rest : List (List Char)}
    (h : fs.walk here (piece :: rest) = .ok place) :
    fs.get? here = some .directory ∧ ∃ there, fs.walk there rest = .ok place ∧
      (there = here ∨ there = here.dropLast ∨ there = here ++ [String.ofList piece]) := by
  rw [walk] at h
  split at h
  · rename_i hhere
    refine ⟨hhere, ?_⟩
    dsimp only at h
    split at h
    · exact ⟨_, h, .inl rfl⟩
    · split at h
      · exact ⟨_, h, .inr (.inl rfl)⟩
      · split at h
        · cases h
        · split at h
          · exact ⟨_, h, .inr (.inr rfl)⟩
          · cases h
  · cases h

/-- A proper name leads from a directory to the entry with that name, if there is one. -/
theorem walk_cons_name (rest : List (List Char)) (hhere : fs.get? here = some .directory)
    (hblank : ¬ (name.toList = [] ∨ name.toList = ['.'])) (hdots : name.toList ≠ ['.', '.'])
    (hlength : Text.byteCount name.toList ≤ longestName)
    (hnext : (fs.get? (here ++ [name])).isSome = true) :
    fs.walk here (name.toList :: rest) = fs.walk (here ++ [name]) rest := by
  rw [walk, hhere]
  simp only [if_neg hblank, if_neg hdots, if_neg (Nat.not_lt.2 hlength), String.ofList_toList,
    if_pos hnext]

namespace WellFormed

variable (hfs : fs.WellFormed)

include hfs

theorem isName_of_get? (h : (fs.get? place).isSome = true) {name : String} (hn : name ∈ place) :
    IsName name :=
  hfs.isName place ((isSome_get?_iff (List.ne_nil_of_mem hn)).1 h) name hn

theorem get?_dropLast (h : (fs.get? place).isSome = true) :
    fs.get? place.dropLast = some .directory := by
  by_cases hplace : place = []
  · rw [hplace]; rfl
  · exact (hfs.parent place ((isSome_get?_iff hplace).1 h)).2

/-- Whatever leads to an entry is a directory. -/
theorem get?_of_append {rest : Location} (h : (fs.get? (here ++ rest)).isSome = true)
    (hrest : rest ≠ []) : fs.get? here = some .directory := by
  induction rest using List.reverseRecOn with
  | nil => exact absurd rfl hrest
  | append_singleton rest name ih =>
    have hparent : fs.get? (here ++ rest) = some .directory := by
      have := hfs.get?_dropLast h
      rwa [← List.append_assoc, List.dropLast_concat] at this
    by_cases hnil : rest = []
    · rwa [hnil, List.append_nil] at hparent
    · exact ih (by rw [hparent]; rfl) hnil

theorem isSome_of_append {rest : Location} (h : (fs.get? (here ++ rest)).isSome = true) :
    (fs.get? here).isSome = true := by
  by_cases hrest : rest = []
  · rwa [hrest, List.append_nil] at h
  · rw [hfs.get?_of_append h hrest]
    rfl

/-! ### Walks -/

/-- The names of a location lead to it from any directory above. -/
theorem walk_names (here rest : Location) (h : (fs.get? (here ++ rest)).isSome = true) :
    fs.walk here (rest.map String.toList) = .ok (here ++ rest) := by
  induction rest generalizing here with
  | nil => rw [List.map_nil, walk, List.append_nil]
  | cons name rest ih =>
    have hhere : fs.get? here = some .directory := hfs.get?_of_append h (List.cons_ne_nil _ _)
    have hname : IsName name := hfs.isName_of_get? h (by simp)
    have hsplit : here ++ name :: rest = here ++ [name] ++ rest := by simp
    have hnext : (fs.get? (here ++ [name])).isSome = true := hfs.isSome_of_append (hsplit ▸ h)
    have hempty : ¬ (name.toList = [] ∨ name.toList = ['.']) :=
      not_or.2 ⟨hname.toList_ne_nil, hname.toList_ne_dot⟩
    rw [List.map_cons, hsplit,
      walk_cons_name _ hhere hempty hname.toList_ne_dots hname.length_le hnext]
    exact ih (here ++ [name]) (hsplit ▸ h)

/-- A walk that ends at a file ends with the file's name. -/
theorem getLast?_of_walk {pieces : List (List Char)} {content : ByteArray}
    (hhere : fs.get? here = some .directory) (hwalk : fs.walk here pieces = .ok place)
    (hfile : fs.get? place = some (.file content)) :
    ∃ name, place.getLast? = some name ∧ pieces.getLast? = some name.toList := by
  induction pieces generalizing here with
  | nil =>
    rw [walk] at hwalk
    cases hwalk
    rw [hhere] at hfile
    cases hfile
  | cons piece rest ih =>
    obtain ⟨there, hrest, hthere⟩ := (walk_cons hwalk).2
    have hmore : fs.get? there = some .directory →
        ∃ name, place.getLast? = some name ∧ (piece :: rest).getLast? = some name.toList := by
      intro hdirectory
      obtain ⟨name, hname, hlast⟩ := ih hdirectory hrest
      exact ⟨name, hname, by rw [List.getLast?_cons, hlast]; rfl⟩
    -- only a step to an entry can be the last one, for the others end at a directory
    rcases hthere with rfl | rfl | rfl
    · exact hmore hhere
    · exact hmore (hfs.get?_dropLast (by rw [hhere]; rfl))
    · cases rest with
      | nil =>
        rw [walk] at hrest
        cases hrest
        exact ⟨String.ofList piece, by simp, by simp⟩
      | cons piece' rest => exact hmore (walk_cons hrest).1

end WellFormed

theorem checked_eq_ok_iff {path : String} : checked path = .ok () ↔
    '\x00' ∉ path.toList ∧ path ≠ "" ∧ Text.byteCount path.toList ≤ longestPath := by
  rw [checked]
  split_ifs with hnul hempty hlong
  · exact iff_of_false nofun fun h => h.1 hnul
  · exact iff_of_false nofun fun h => h.2.1 hempty
  · exact iff_of_false nofun fun h => Nat.not_lt.2 h.2.2 hlong
  · exact iff_of_true rfl ⟨hnul, hempty, Nat.not_lt.1 hlong⟩

/-- A path names a place if it is looked at and its walk ends there. -/
theorem locate_eq_ok_iff {path : String} : fs.locate path = .ok place ↔
    checked path = .ok () ∧ fs.walk (fs.origin path) (Path.pieces path) = .ok place := by
  rw [locate]
  cases checked path with
  | error e => exact iff_of_false nofun fun h => nomatch h.1
  | ok => exact (and_iff_right rfl).symm

/-- A path that names something is looked at, for it is not too long, and it is walked. -/
theorem walk_of_locate {path : String} (h : fs.locate path = .ok place) :
    Text.byteCount path.toList ≤ longestPath ∧
      fs.walk (fs.origin path) (Path.pieces path) = .ok place := by
  obtain ⟨hchecked, hwalk⟩ := locate_eq_ok_iff.1 h
  exact ⟨(checked_eq_ok_iff.1 hchecked).2.2, hwalk⟩

theorem walk_append (fs : FileSystem) (here : Location) (front back : List (List Char)) :
    fs.walk here (front ++ back) = fs.walk here front >>= fun there => fs.walk there back := by
  induction front generalizing here with
  | nil => rfl
  | cons piece front ih =>
    rw [List.cons_append, walk, walk]
    split
    · dsimp only
      split
      · exact ih here
      split
      · exact ih _
      split
      · rfl
      split
      · exact ih _
      · rfl
    · rfl

/-! ### More directories -/

/-- The directories of the first file system are there in the second, which is worked in at the same
place. -/
structure KeepsDirectories (fs fs' : FileSystem) : Prop where
  workingDirectory : fs.workingDirectory = fs'.workingDirectory
  directory : ∀ place, fs.get? place = some .directory → fs'.get? place = some .directory

namespace KeepsDirectories

variable {fs' : FileSystem} (hkeeps : KeepsDirectories fs fs')

include hkeeps

theorem walk_singleton_eq {piece : List Char} (h : fs.walk here [piece] = .ok place)
    (hplace : (fs'.get? place).isSome = true) : fs'.walk here [piece] = .ok place := by
  have hhere := (walk_cons h).1
  rw [walk, hhere] at h
  rw [walk, hkeeps.directory here hhere]
  dsimp only at h ⊢
  split_ifs at h with hblank hdots hlong hnext
  · rwa [if_pos hblank]
  · rwa [if_neg hblank, if_pos hdots]
  · cases h
    rw [if_neg hblank, if_neg hdots, if_neg hlong, if_pos hplace]
    rfl

/-- A walk passes directories only, so it goes the same way to what is still there. -/
theorem walk_eq {pieces : List (List Char)} (h : fs.walk here pieces = .ok place)
    (hplace : (fs'.get? place).isSome = true) : fs'.walk here pieces = .ok place := by
  induction pieces generalizing here with
  | nil => exact h
  | cons piece rest ih =>
    have hsplit : ∀ fs : FileSystem, fs.walk here (piece :: rest) =
        fs.walk here [piece] >>= fun there => fs.walk there rest :=
      fun fs => fs.walk_append here [piece] rest
    rw [hsplit] at h
    cases hfirst : fs.walk here [piece] with
    | error e =>
      rw [hfirst] at h
      cases h
    | ok there =>
      rw [hfirst] at h
      have hrest : fs.walk there rest = .ok place := h
      have hthere : (fs'.get? there).isSome = true := by
        cases rest with
        | nil => rwa [Except.ok.inj hrest]
        | cons piece' rest => rw [hkeeps.directory _ (walk_cons hrest).1]; rfl
      rw [hsplit, hkeeps.walk_singleton_eq hfirst hthere]
      exact ih hrest

theorem origin_eq (path : String) : fs'.origin path = fs.origin path := by
  rw [origin, origin, hkeeps.workingDirectory]

theorem locate_eq {path : String} (h : fs.locate path = .ok place)
    (hplace : (fs'.get? place).isSome = true) : fs'.locate path = .ok place := by
  obtain ⟨hchecked, hwalk⟩ := locate_eq_ok_iff.1 h
  rw [locate_eq_ok_iff, hkeeps.origin_eq]
  exact ⟨hchecked, hkeeps.walk_eq hwalk hplace⟩

end KeepsDirectories

/-! ### Endings -/

theorem suffix_append_cons_iff {c : Char} {w : List Char} (hw : c ∉ w) (s t : List Char) :
    w <:+ s ++ c :: t ↔ w <:+ t := by
  refine ⟨fun h => ?_, fun h => h.trans ((List.suffix_cons c t).trans (List.suffix_append _ _))⟩
  rcases List.suffix_or_suffix_of_suffix h (List.suffix_append s (c :: t)) with h | h
  · rcases List.suffix_cons_iff.1 h with rfl | h
    · exact absurd List.mem_cons_self hw
    · exact h
  · exact absurd (h.mem List.mem_cons_self) hw

theorem intercalate_concat {front : List (List Char)} (hfront : front ≠ []) (c : Char)
    (last : List Char) :
    [c].intercalate (front ++ [last]) = [c].intercalate front ++ c :: last := by
  induction front with
  | nil => exact absurd rfl hfront
  | cons piece front ih =>
    rw [List.cons_append, List.intercalate_cons_of_ne_nil (by simp)]
    by_cases hnil : front = []
    · rw [hnil, List.nil_append, List.intercalate_singleton, List.intercalate_singleton]
      simp
    · rw [ih hnil, List.intercalate_cons_of_ne_nil hnil, List.append_assoc, List.append_assoc,
        List.append_assoc]

theorem suffix_intercalate_iff {c : Char} {w : List Char} (hw : c ∉ w) (front : List (List Char))
    (last : List Char) : w <:+ [c].intercalate (front ++ [last]) ↔ w <:+ last := by
  by_cases hfront : front = []
  · rw [hfront, List.nil_append, List.intercalate_singleton]
  · rw [intercalate_concat hfront, suffix_append_cons_iff hw]

theorem intercalate_pieces (path : String) : ['/'].intercalate (Path.pieces path) = path.toList :=
  List.intercalate_splitOn '/'

/-- A path ends as its last piece does. -/
theorem suffix_iff_of_pieces {path : String} {front : List (List Char)} {last w : List Char}
    (hpieces : Path.pieces path = front ++ [last]) (hw : '/' ∉ w) :
    w <:+ path.toList ↔ w <:+ last := by
  rw [← intercalate_pieces, hpieces, suffix_intercalate_iff hw]

/-- A path to a file ends as the file's name does. -/
theorem WellFormed.ending_iff_of_locate (hfs : fs.WellFormed) {path : String} {content : ByteArray}
    (hlocate : fs.locate path = .ok place) (hfile : fs.get? place = some (.file content))
    {ending : List Char} (hslash : '/' ∉ ending) :
    ending <:+ path.toList ↔ ∃ name, place.getLast? = some name ∧ ending <:+ name.toList := by
  have horigin : fs.get? (fs.origin path) = some .directory := by
    rw [origin]
    split
    · rfl
    · exact hfs.workingDirectory
  obtain ⟨name, hname, hlast⟩ :=
    hfs.getLast?_of_walk horigin (walk_of_locate hlocate).2 hfile
  obtain ⟨front, hpieces⟩ := List.getLast?_eq_some_iff.1 hlast
  rw [suffix_iff_of_pieces hpieces hslash, hname]
  exact ⟨fun h => ⟨name, rfl, h⟩, fun ⟨_, hn, h⟩ => Option.some.inj hn ▸ h⟩

/-! ### Absolute paths -/

theorem toList_absolutePath (place : Location) :
    (absolutePath place).toList = '/' :: ['/'].intercalate (place.map String.toList) := by
  simp [absolutePath, String.toList_intercalate]

theorem absolutePath_ne_empty (place : Location) : absolutePath place ≠ "" := by
  intro h
  have hlist := toList_absolutePath place
  rw [h] at hlist
  cases hlist

theorem isAbsolute_absolutePath (place : Location) :
    Path.isAbsolute (absolutePath place) = true := by
  simp [Path.isAbsolute, toList_absolutePath]

/-- Below the root the path joins an empty piece and the names. -/
theorem toList_absolutePath_eq_intercalate (hplace : place ≠ []) :
    (absolutePath place).toList = ['/'].intercalate ([] :: place.map String.toList) := by
  rw [toList_absolutePath, List.intercalate_cons_of_ne_nil (by simpa using hplace)]
  rfl

theorem pieces_absolutePath (hplace : place ≠ []) (hnames : ∀ name ∈ place, IsName name) :
    Path.pieces (absolutePath place) = [] :: place.map String.toList := by
  rw [Path.pieces, toList_absolutePath_eq_intercalate hplace]
  refine List.splitOn_intercalate '/' (fun piece hpiece => ?_) (List.cons_ne_nil _ _)
  rcases List.mem_cons.1 hpiece with rfl | hpiece
  · exact List.not_mem_nil
  · obtain ⟨name, hname, rfl⟩ := List.mem_map.1 hpiece
    exact (hnames name hname).slash_notMem

theorem toList_absolutePath_concat (hhere : here ≠ []) (name : String) :
    (absolutePath (here ++ [name])).toList = (absolutePath here).toList ++ '/' :: name.toList := by
  rw [toList_absolutePath_eq_intercalate (by simp), List.map_append, List.map_singleton,
    ← List.cons_append, intercalate_concat (List.cons_ne_nil _ _),
    toList_absolutePath_eq_intercalate hhere]

theorem getLast?_absolutePath (hname : IsName name) :
    (absolutePath (here ++ [name])).toList.getLast? = name.toList.getLast? := by
  rw [toList_absolutePath_eq_intercalate (by simp), List.map_append, List.map_singleton,
    ← List.cons_append, intercalate_concat (List.cons_ne_nil _ _),
    List.getLast?_append_of_ne_nil _ (List.cons_ne_nil _ _)]
  cases h : name.toList with
  | nil => exact absurd h hname.toList_ne_nil
  | cons c s => rw [List.getLast?_cons_cons]

/-- The path of a directory is not longer than the paths of what is below it. -/
theorem byteCount_absolutePath_le (here rest : Location) :
    Text.byteCount (absolutePath here).toList ≤
      Text.byteCount (absolutePath (here ++ rest)).toList := by
  induction rest using List.reverseRecOn with
  | nil => exact Nat.le_of_eq (by rw [List.append_nil])
  | append_singleton rest name ih =>
    refine Nat.le_trans ih ?_
    rw [← List.append_assoc]
    by_cases hnil : here ++ rest = []
    · rw [hnil, toList_absolutePath, toList_absolutePath]
      simp
    · rw [toList_absolutePath_concat hnil, Text.byteCount_append]
      exact Nat.le_add_right _ _

theorem mem_intercalate {c : Char} {sep : List Char} {ls : List (List Char)}
    (h : c ∈ sep.intercalate ls) : c ∈ sep ∨ ∃ l ∈ ls, c ∈ l := by
  induction ls with
  | nil => simp at h
  | cons l ls ih =>
    by_cases hls : ls = []
    · rw [hls, List.intercalate_singleton] at h
      exact .inr ⟨l, List.mem_cons_self, h⟩
    · rw [List.intercalate_cons_of_ne_nil hls, List.mem_append, List.mem_append] at h
      rcases h with (h | h) | h
      · exact .inr ⟨l, List.mem_cons_self, h⟩
      · exact .inl h
      · rcases ih h with h | ⟨l', hl', h⟩
        · exact .inl h
        · exact .inr ⟨l', List.mem_cons_of_mem _ hl', h⟩

theorem checked_absolutePath (hnames : ∀ name ∈ place, IsName name)
    (hlen : Text.byteCount (absolutePath place).toList ≤ longestPath) :
    checked (absolutePath place) = .ok () := by
  have hnul : '\x00' ∉ (absolutePath place).toList := by
    rw [toList_absolutePath]
    intro h
    rcases List.mem_cons.1 h with h | h
    · exact absurd h (by decide)
    · rcases mem_intercalate h with h | ⟨l, hl, h⟩
      · exact absurd h (by decide)
      · obtain ⟨name, hname, rfl⟩ := List.mem_map.1 hl
        exact (hnames name hname).nul_notMem h
  exact checked_eq_ok_iff.2 ⟨hnul, absolutePath_ne_empty place, hlen⟩

namespace WellFormed

/-- A location that is there is found by its path from the root. -/
theorem locate_absolutePath (hfs : fs.WellFormed) (h : (fs.get? place).isSome = true)
    (hlen : Text.byteCount (absolutePath place).toList ≤ longestPath) :
    fs.locate (absolutePath place) = .ok place := by
  have hnames : ∀ name ∈ place, IsName name := fun name hn => hfs.isName_of_get? h hn
  have hwalk : fs.walk [] (Path.pieces (absolutePath place)) = .ok place := by
    by_cases hplace : place = []
    · rw [hplace]
      rfl
    · rw [pieces_absolutePath hplace hnames, walk]
      exact hfs.walk_names [] place h
  rw [locate, checked_absolutePath hnames hlen, origin, isAbsolute_absolutePath, if_pos rfl]
  exact hwalk

theorem find?_absolutePath (hfs : fs.WellFormed) (h : (fs.get? place).isSome = true)
    (hlen : Text.byteCount (absolutePath place).toList ≤ longestPath) :
    fs.find? (absolutePath place) = fs.get? place := by
  simp only [find?, hfs.locate_absolutePath h hlen]

end WellFormed

/-! ### Parents and order -/

theorem components_absolutePath (hnames : ∀ name ∈ place, IsName name) :
    Path.components (absolutePath place) = (place.map String.toList).zipIdx 1 := by
  by_cases hplace : place = []
  · rw [hplace]
    rfl
  · rw [Path.components, isAbsolute_absolutePath, pieces_absolutePath hplace hnames,
      List.zipIdx_cons, List.filter_cons_of_neg (by simp [Path.isComponent]),
      List.filter_eq_self]
    intro p hp
    obtain ⟨name, hname, hpiece⟩ := List.mem_map.1 (List.fst_mem_of_mem_zipIdx hp)
    have hempty : p.1 ≠ [] := hpiece ▸ (hnames name hname).toList_ne_nil
    have hdot : p.1 ≠ ['.'] := hpiece ▸ (hnames name hname).toList_ne_dot
    simp [Path.isComponent, hempty, hdot]

theorem upTo_absolutePath (hhere : here ≠ []) (hnames : ∀ n ∈ here ++ [name], IsName n) :
    Path.upTo (absolutePath (here ++ [name])) here.length = absolutePath here := by
  have htake : ((here ++ [name]).map String.toList).take here.length =
      here.map String.toList := by
    rw [List.map_append]
    exact List.take_left' (List.length_map _)
  rw [← String.toList_inj, Path.upTo, pieces_absolutePath (by simp) hnames, List.take_succ_cons,
    htake, String.toList_ofList, toList_absolutePath_eq_intercalate hhere]

/-- The path of a location without its own name is that of the directory around it. -/
theorem parent?_absolutePath (hnames : ∀ n ∈ here ++ [name], IsName n) :
    Path.parent? (absolutePath (here ++ [name])) = some (absolutePath here) := by
  have hcomponents : (Path.components (absolutePath (here ++ [name]))).reverse =
      (name.toList, here.length + 1) :: ((here.map String.toList).zipIdx 1).reverse := by
    rw [components_absolutePath hnames, List.map_append, List.zipIdx_append, List.reverse_append]
    simp [Nat.add_comm]
  rw [Path.parent?, Path.ancestors, hcomponents, isAbsolute_absolutePath]
  cases here using List.reverseRecOn with
  | nil => rfl
  | append_singleton above last =>
    have hnext := upTo_absolutePath (by simp) hnames
    rw [List.length_append, List.length_singleton] at hnext
    rw [List.map_append, List.zipIdx_append, List.reverse_append]
    simpa [Nat.add_comm] using hnext

theorem componentKey_eq (hname : IsName name) :
    Path.componentKey name.toList = 4 :: name.toList.map (fun c => c.toNat + 1) ++ [0] := by
  rw [Path.componentKey, if_neg hname.toList_ne_dot, if_neg hname.toList_ne_dots]

/-- A zero ends the codes of a name's characters. -/
theorem codes_append_inj {s' t' : List Char} {s t : List ℕ}
    (h : s'.map (fun c => c.toNat + 1) ++ 0 :: s = t'.map (fun c => c.toNat + 1) ++ 0 :: t) :
    s' = t' ∧ s = t := by
  induction s' generalizing t' with
  | nil =>
    cases t' with
    | nil => simpa using h
    | cons c t' => simp at h
  | cons c s' ih =>
    cases t' with
    | nil => simp at h
    | cons d t' =>
      simp only [List.map_cons, List.cons_append, List.cons.injEq, Nat.add_right_cancel_iff,
        Char.toNat_inj] at h
      obtain ⟨hs, ht⟩ := ih h.2
      exact ⟨by rw [h.1, hs], ht⟩

/-- A name's key shows where it ends. -/
theorem componentKey_append_inj {a b : String} (ha : IsName a) (hb : IsName b) {s t : List ℕ}
    (h : Path.componentKey a.toList ++ s = Path.componentKey b.toList ++ t) : a = b ∧ s = t := by
  rw [componentKey_eq ha, componentKey_eq hb] at h
  simp only [List.cons_append, List.append_assoc, List.cons.injEq, true_and, List.nil_append] at h
  obtain ⟨hname, hrest⟩ := codes_append_inj h
  exact ⟨String.toList_inj.1 hname, hrest⟩

theorem flatMap_componentKey_inj (hhere : ∀ n ∈ here, IsName n) (hplace : ∀ n ∈ place, IsName n)
    (h : (here.flatMap fun n => Path.componentKey n.toList) =
      place.flatMap fun n => Path.componentKey n.toList) : here = place := by
  induction here generalizing place with
  | nil =>
    cases place with
    | nil => rfl
    | cons n place =>
      rw [List.flatMap_nil, List.flatMap_cons, componentKey_eq (hplace n List.mem_cons_self)] at h
      cases h
  | cons n here ih =>
    cases place with
    | nil =>
      rw [List.flatMap_nil, List.flatMap_cons, componentKey_eq (hhere n List.mem_cons_self)] at h
      cases h
    | cons n' place =>
      rw [List.flatMap_cons, List.flatMap_cons] at h
      obtain ⟨hn, hrest⟩ := componentKey_append_inj (hhere n List.mem_cons_self)
        (hplace n' List.mem_cons_self) h
      rw [hn, ih (fun n hn => hhere n (List.mem_cons_of_mem _ hn))
        (fun n hn => hplace n (List.mem_cons_of_mem _ hn)) hrest]

theorem orderKey_absolutePath (hplace : ∀ n ∈ place, IsName n) :
    Path.orderKey (absolutePath place) =
      1 :: place.flatMap fun n => Path.componentKey n.toList := by
  rw [Path.orderKey, isAbsolute_absolutePath, components_absolutePath hplace, if_pos rfl,
    ← List.flatMap_map Prod.fst Path.componentKey, List.zipIdx_map_fst, List.flatMap_map]
  rfl

/-- The order tells the paths of two locations apart. -/
theorem orderKey_absolutePath_inj (hhere : ∀ n ∈ here, IsName n) (hplace : ∀ n ∈ place, IsName n)
    (h : Path.orderKey (absolutePath here) = Path.orderKey (absolutePath place)) :
    here = place := by
  rw [orderKey_absolutePath hhere, orderKey_absolutePath hplace, List.cons.injEq] at h
  exact flatMap_componentKey_inj hhere hplace h.2

end FileSystem

end TypeCorpus
