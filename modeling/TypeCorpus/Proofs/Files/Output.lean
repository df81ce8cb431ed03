import Mathlib.Data.List.Induction
import Mathlib.Data.List.TakeWhile
import TypeCorpus.Command.Basic
import TypeCorpus.Proofs.Files.Enumeration

/-! What a command leaves in its output directory. Making the directory adds directories where
nothing was and changes nothing else. A file that is written below the directory's path under a
plain name is an entry of that directory with that name, however the directory is spelled, and
nothing else changes; whether it can be written depends on the directories alone, so writing other
files makes no difference. Whatever else is written or made, it is where its own path leads
afterwards, and the paths tell all that can have changed. -/

namespace TypeCorpus

namespace Path

/-- A name that is one component of a path and leads down. -/
structure IsEntryName (name : String) : Prop where
  ne_empty : name ≠ ""
  ne_dot : name ≠ "."
  ne_dots : name ≠ ".."
  slash_notMem : '/' ∉ name.toList

namespace IsEntryName

variable {name : String}

theorem toList_ne_nil (h : IsEntryName name) : name.toList ≠ [] :=
  fun hnil => h.ne_empty (String.toList_inj.1 hnil)

theorem toList_notBlank (h : IsEntryName name) : ¬ (name.toList = [] ∨ name.toList = ['.']) :=
  not_or.2 ⟨h.toList_ne_nil, fun hdot => h.ne_dot (String.toList_inj.1 hdot)⟩

theorem toList_ne_dots (h : IsEntryName name) : name.toList ≠ ['.', '.'] :=
  fun hdots => h.ne_dots (String.toList_inj.1 hdots)

/-- A path that ends in a name does not end in a slash. -/
theorem getLast?_join_ne (h : IsEntryName name) (base : String) :
    (join base name).toList.getLast? ≠ some '/' := by
  intro hlast
  have hpieces := (pieces_join base h.slash_notMem).1.symm.trans (pieces_of_getLast? hlast)
  exact h.toList_ne_nil (List.append_singleton_inj.1 hpieces).2

end IsEntryName

theorem exists_ancestors (path : String) : ∃ above, ancestors path = path :: above := by
  rw [ancestors]
  cases (components path).reverse with
  | nil => exact ⟨[], rfl⟩
  | cons p above => exact ⟨_, rfl⟩

theorem exists_toList_join (base : String) {name : String} (hname : '/' ∉ name.toList) :
    ∃ rest, (join base name).toList = base.toList ++ rest := by
  rw [join, isAbsolute_of_notMem hname, if_neg Bool.false_ne_true]
  split
  · exact ⟨name.toList, String.toList_append⟩
  · exact ⟨'/' :: name.toList, by simp⟩

/-- Pieces are all empty, or there is a last one that is not. -/
theorem split_last (pieces : List (List Char)) : (∀ piece ∈ pieces, piece = []) ∨
    ∃ above last blanks, pieces = above ++ last :: blanks ∧ last ≠ [] ∧
      ∀ piece ∈ blanks, piece = [] := by
  induction pieces using List.reverseRecOn with
  | nil => exact .inl (by simp)
  | append_singleton pieces piece ih =>
    by_cases hpiece : piece = []
    · subst hpiece
      rcases ih with hall | ⟨above, last, blanks, rfl, hlast, hblanks⟩
      · exact .inl (List.forall_mem_append.2 ⟨hall, by simp⟩)
      · exact .inr ⟨above, last, blanks ++ [[]], by simp, hlast,
          List.forall_mem_append.2 ⟨hblanks, by simp⟩⟩
    · exact .inr ⟨pieces, piece, [], rfl, hpiece, by simp⟩

/-- A path whose pieces end in empty ones behind another ends in a slash. -/
theorem getLast?_of_blanks {path : String} {above blanks : List (List Char)} {last : List Char}
    (hpieces : pieces path = above ++ last :: blanks) (hblanks : ∀ piece ∈ blanks, piece = [])
    (hne : blanks ≠ []) : path.toList.getLast? = some '/' := by
  obtain ⟨blanks, piece, rfl⟩ := (List.eq_nil_or_concat' blanks).resolve_left hne
  have hfront : above ++ last :: blanks ≠ [] := by simp
  rw [← FileSystem.intercalate_pieces, hpieces, hblanks piece (by simp), ← List.cons_append,
    ← List.append_assoc, FileSystem.intercalate_concat hfront, List.getLast?_concat]

theorem suffix_join (base path : String) : path.toList <:+ (join base path).toList := by
  rw [join]
  split_ifs
  · exact List.suffix_rfl
  · exact String.toList_append ▸ List.suffix_append _ _
  · exact String.toList_append ▸ List.suffix_append _ _

end Path

namespace FileSystem

variable {fs fs' fs'' : FileSystem} {here place : Location} {path dir name : String}
  {content : ByteArray}

theorem get?_put_self (fs : FileSystem) (hplace : place ≠ []) (e : Entry) :
    (fs.put place e).get? place = some e := by
  cases place with
  | nil => exact absurd rfl hplace
  | cons name rest => exact Table.get?_insert_self _ _ _

/-- Writing where no directory is keeps the directories. -/
theorem sameDirectories_put (hplace : fs.get? place ≠ some .directory) :
    SameDirectories fs (fs.put place (.file content)) := by
  have hne : place ≠ [] := by
    rintro rfl
    exact hplace rfl
  refine ⟨rfl, fun other => ?_⟩
  by_cases h : place = other
  · subst h
    rw [fs.get?_put_self hne]
    exact iff_of_false hplace nofun
  · rw [fs.get?_put_of_ne h]

/-- Writing where nothing is keeps the directories. -/
theorem keepsDirectories_put (hplace : fs.get? place = none) (e : Entry) :
    KeepsDirectories fs (fs.put place e) := by
  refine ⟨rfl, fun other hother => ?_⟩
  have hne : place ≠ other := by
    rintro rfl
    cases hplace.symm.trans hother
  rw [fs.get?_put_of_ne hne, hother]

/-! ### Targets -/

/-- An empty piece asks for a directory. -/
theorem walk_empties {blanks : List (List Char)} (hblanks : ∀ piece ∈ blanks, piece = [])
    (hhere : fs.get? here = some .directory) : fs.walk here blanks = .ok here := by
  induction blanks with
  | nil => rfl
  | cons piece blanks ih =>
    rw [walk, hhere]
    simp only [hblanks piece List.mem_cons_self, true_or, if_true]
    exact ih fun p hp => hblanks p (List.mem_cons_of_mem _ hp)

theorem walk_concat_nil_iff {pieces : List (List Char)} :
    fs.walk here (pieces ++ [[]]) = .ok place ↔
      fs.walk here pieces = .ok place ∧ fs.get? place = some .directory := by
  rw [walk_append]
  cases fs.walk here pieces with
  | error e => exact iff_of_false nofun fun h => nomatch h.1
  | ok there =>
    change fs.walk there [[]] = .ok place ↔ _
    constructor
    · intro h
      have hthere := (walk_cons h).1
      rw [walk_empties (by simp) hthere] at h
      exact ⟨h, Except.ok.inj h ▸ hthere⟩
    · rintro ⟨h, hplace⟩
      rw [Except.ok.inj h]
      exact walk_empties (by simp) hplace

/-- What a path makes is in the directory that it reaches before its last piece that is not
empty. -/
theorem target_eq_ok_iff {above blanks : List (List Char)} {last : List Char}
    (hpieces : Path.pieces path = above ++ last :: blanks) (hlast : last ≠ [])
    (hblanks : ∀ piece ∈ blanks, piece = []) {found : Option String} :
    fs.target path = .ok (here, found) ↔ checked path = .ok () ∧
      (fs.walk (fs.origin path) above = .ok here ∧ fs.get? here = some .directory) ∧
        if last = ['.'] ∨ last = ['.', '.'] then found = none
        else Text.byteCount last ≤ longestName ∧ found = some (String.ofList last) := by
  have hdrop : (Path.pieces path).reverse.dropWhile (· = []) = last :: above.reverse := by
    rw [hpieces, List.reverse_append, List.reverse_cons, List.append_assoc,
      List.dropWhile_append_of_pos fun piece hpiece => decide_eq_true
        (hblanks piece (List.mem_reverse.1 hpiece))]
    exact List.dropWhile_cons_of_neg (by simpa using hlast)
  rw [target, hdrop]
  cases checked path with
  | error e => exact iff_of_false nofun fun h => nomatch h.1
  | ok =>
    refine Iff.trans ?_ (and_iff_right rfl).symm
    dsimp only
    rw [List.reverse_reverse]
    cases fs.walk (fs.origin path) above with
    | error e => exact iff_of_false nofun fun h => nomatch h.1.1
    | ok there =>
      change (if fs.get? there ≠ some .directory then Except.error FileError.notADirectory
        else if last = ['.'] ∨ last = ['.', '.'] then .ok (there, none)
        else if longestName < Text.byteCount last then .error .nameTooLong
        else .ok (there, some (String.ofList last))) = .ok (here, found) ↔ _
      by_cases hthere : fs.get? there = some .directory
      · have hsame : (Except.ok there = (.ok here : Except FileError Location) ∧
            fs.get? here = some .directory) ↔ there = here :=
          ⟨fun h => Except.ok.inj h.1, fun h => ⟨congrArg _ h, h ▸ hthere⟩⟩
        rw [if_neg (not_not.2 hthere), hsame]
        split_ifs with hdots hlong
        · simp [eq_comm]
        · exact iff_of_false nofun fun h => Nat.not_lt.2 h.2.1 hlong
        · simp [Nat.not_lt.1 hlong, eq_comm]
      · rw [if_pos hthere]
        refine iff_of_false nofun fun h => hthere ?_
        rw [Except.ok.inj h.1.1, h.1.2]

/-- A path with a name for something new has that name as its last piece that is not empty. -/
theorem exists_of_target (h : fs.target path = .ok (here, some name)) :
    checked path = .ok () ∧ fs.get? here = some .directory ∧ Path.IsEntryName name ∧
      Text.byteCount name.toList ≤ longestName ∧ ∃ above blanks,
        Path.pieces path = above ++ name.toList :: blanks ∧ (∀ piece ∈ blanks, piece = []) ∧
          fs.walk (fs.origin path) above = .ok here := by
  rcases Path.split_last (Path.pieces path) with
    hall | ⟨above, last, blanks, hpieces, hlast, hblanks⟩
  · have hdrop : (Path.pieces path).reverse.dropWhile (· = []) = [] := by
      rw [List.dropWhile_eq_nil_iff]
      exact fun piece hpiece => decide_eq_true (hall piece (List.mem_reverse.1 hpiece))
    rw [target, hdrop] at h
    cases hchecked : checked path with
    | error e => rw [hchecked] at h; cases h
    | ok => rw [hchecked] at h; cases h
  · obtain ⟨hchecked, ⟨hwalk, hhere⟩, hfound⟩ := (target_eq_ok_iff hpieces hlast hblanks).1 h
    have hslash : '/' ∉ last := by
      have hmem : last ∈ Path.pieces path := by rw [hpieces]; simp
      exact Path.slash_notMem_of_mem_splitOn hmem
    split_ifs at hfound with hdots
    obtain ⟨hlength, hname⟩ := hfound
    cases hname
    rw [not_or] at hdots
    have hlist : ∀ s : String, String.ofList last = s → last = s.toList := fun s hs => by
      rw [← hs, String.toList_ofList]
    refine ⟨hchecked, hhere, ⟨fun h => hlast (hlist _ h), fun h => hdots.1 (hlist _ h),
      fun h => hdots.2 (hlist _ h), ?_⟩, ?_, above, blanks, ?_, hblanks, hwalk⟩
    · rwa [String.toList_ofList]
    · rwa [String.toList_ofList]
    · rwa [String.toList_ofList]

/-- What is made at a path is where the path leads afterwards; if the path ends in a slash it has to
be a directory. -/
theorem locate_of_target (h : fs.target path = .ok (here, some name))
    (hkeeps : KeepsDirectories fs fs') (hsome : (fs'.get? (here ++ [name])).isSome = true)
    (hslash : path.toList.getLast? = some '/' → fs'.get? (here ++ [name]) = some .directory) :
    fs'.locate path = .ok (here ++ [name]) := by
  obtain ⟨hchecked, hhere, hname, hlength, above, blanks, hpieces, hblanks, hwalk⟩ :=
    exists_of_target h
  have hhere' := hkeeps.directory _ hhere
  refine locate_eq_ok_iff.2 ⟨hchecked, ?_⟩
  rw [hpieces, hkeeps.origin_eq, walk_append, hkeeps.walk_eq hwalk (by rw [hhere']; rfl)]
  refine (walk_cons_name _ hhere' hname.toList_notBlank hname.toList_ne_dots hlength hsome).trans ?_
  by_cases hnil : blanks = []
  · rw [hnil, walk]
  · exact walk_empties hblanks (hslash (Path.getLast?_of_blanks hpieces hblanks hnil))

/-- A file that is written has a name, and no directory is there. -/
theorem exists_of_write (h : fs.write path content = .ok fs') :
    ∃ here name, fs.target path = .ok (here, some name) ∧ path.toList.getLast? ≠ some '/' ∧
      fs.get? (here ++ [name]) ≠ some .directory ∧
        fs' = fs.put (here ++ [name]) (.file content) := by
  rw [write] at h
  cases hfound : fs.target path with
  | error e =>
    rw [hfound] at h
    cases h
  | ok found =>
    obtain ⟨here, found⟩ := found
    rw [hfound] at h
    cases found with
    | none => cases h
    | some name =>
      replace h : (if fs.get? (here ++ [name]) = some .directory ∨
          path.toList.getLast? = some '/' then Except.error FileError.isADirectory
        else .ok (fs.put (here ++ [name]) (.file content))) = .ok fs' := h
      split_ifs at h with hrefused
      rw [not_or] at hrefused
      exact ⟨here, name, rfl, hrefused.2, hrefused.1, (Except.ok.inj h).symm⟩

/-- A directory is made where nothing is, and its path leads there. -/
theorem exists_of_makeDirectory (h : fs.makeDirectory path = .ok fs') :
    ∃ place, place ≠ [] ∧ fs.get? place = none ∧ fs' = fs.put place .directory ∧
      fs'.locate path = .ok place := by
  rw [makeDirectory] at h
  cases hfound : fs.target path with
  | error e =>
    rw [hfound] at h
    cases h
  | ok found =>
    obtain ⟨here, found⟩ := found
    rw [hfound] at h
    cases found with
    | none => cases h
    | some name =>
      replace h : (if (fs.get? (here ++ [name])).isSome = true then
        Except.error FileError.alreadyThere
          else .ok (fs.put (here ++ [name]) .directory)) = .ok fs' := h
      split_ifs at h with hsome
      cases h
      have hnone : fs.get? (here ++ [name]) = none := by simpa using hsome
      have hnew : (fs.put (here ++ [name]) .directory).get? (here ++ [name]) = some .directory :=
        fs.get?_put_self (by simp) .directory
      exact ⟨here ++ [name], by simp, hnone, rfl, locate_of_target hfound
        (keepsDirectories_put hnone .directory) (by rw [hnew]; rfl) fun _ => hnew⟩

/-! ### The output directory -/

/-- Where the directory for a command's output is; an empty path stands for the working
directory. -/
def outputPlace (fs : FileSystem) (dir : String) : Except FileError Location :=
  if dir = "" then .ok fs.workingDirectory else fs.locate dir

theorem checked_of_join (hslash : '/' ∉ name.toList) (hdir : dir ≠ "")
    (h : checked (Path.join dir name) = .ok ()) : checked dir = .ok () := by
  obtain ⟨rest, hrest⟩ := Path.exists_toList_join dir hslash
  obtain ⟨hnul, -, hlen⟩ := checked_eq_ok_iff.1 h
  rw [hrest] at hnul hlen
  rw [Text.byteCount_append] at hlen
  exact checked_eq_ok_iff.2 ⟨fun h => hnul (List.mem_append_left _ h), hdir, by omega⟩

/-- The pieces before a name below a path lead to the directory that the path means. -/
theorem walk_above_iff (hslash : '/' ∉ name.toList)
    (hchecked : checked (Path.join dir name) = .ok ()) :
    fs.walk (fs.origin (Path.join dir name)) (Path.above dir) = .ok here ∧
        fs.get? here = some .directory ↔
      fs.outputPlace dir = .ok here ∧ fs.get? here = some .directory := by
  have horigin : fs.origin (Path.join dir name) = fs.origin dir := by
    rw [origin, (Path.pieces_join dir hslash).2, origin]
  rw [horigin, Path.above, outputPlace]
  by_cases hdir : dir = ""
  · subst hdir
    exact Iff.rfl
  rw [if_neg hdir, if_neg hdir, locate_eq_ok_iff,
    and_iff_right (checked_of_join hslash hdir hchecked)]
  split
  · rename_i hlast
    have hpieces := Path.pieces_of_getLast? hlast
    rw [← walk_concat_nil_iff, ← hpieces]
    exact ⟨fun h => ⟨h, (walk_concat_nil_iff.1 (hpieces ▸ h)).2⟩, fun h => h.1⟩
  · exact Iff.rfl

theorem SameDirectories.outputPlace_eq (hsame : SameDirectories fs fs')
    (h : fs.outputPlace dir = .ok here) (hhere : fs.get? here = some .directory) :
    fs'.outputPlace dir = .ok here := by
  rw [outputPlace] at h ⊢
  split_ifs at h with hdir
  · rw [if_pos hdir, ← hsame.workingDirectory]
    exact h
  · rw [if_neg hdir]
    refine hsame.locate_eq h ?_
    rw [(hsame.directory_iff here).1 hhere]
    rfl

/-- A file with a name can be written in a directory. -/
structure Accepts (fs : FileSystem) (dir name : String) (here : Location) : Prop where
  checked : FileSystem.checked (Path.join dir name) = .ok ()
  outputPlace_eq : fs.outputPlace dir = .ok here
  directory : fs.get? here = some .directory
  length_le : Text.byteCount name.toList ≤ longestName
  free : fs.get? (here ++ [name]) ≠ some .directory

namespace Accepts

theorem unique {here' : Location} (h : fs.Accepts dir name here) (h' : fs.Accepts dir name here') :
    here = here' := Except.ok.inj (h.outputPlace_eq.symm.trans h'.outputPlace_eq)

/-- Whether a file can be written depends on the directories alone. -/
theorem of_sameDirectories (hsame : SameDirectories fs fs') (h : fs.Accepts dir name here) :
    fs'.Accepts dir name here where
  checked := h.checked
  outputPlace_eq := hsame.outputPlace_eq h.outputPlace_eq h.directory
  directory := (hsame.directory_iff here).1 h.directory
  length_le := h.length_le
  free hplace := h.free ((hsame.directory_iff _).2 hplace)

end Accepts

theorem target_join_eq_ok_iff (hname : Path.IsEntryName name) {found : Option String} :
    fs.target (Path.join dir name) = .ok (here, found) ↔ checked (Path.join dir name) = .ok () ∧
      (fs.outputPlace dir = .ok here ∧ fs.get? here = some .directory) ∧
        Text.byteCount name.toList ≤ longestName ∧ found = some name := by
  have hslash := hname.slash_notMem
  have hdots : ¬ (name.toList = ['.'] ∨ name.toList = ['.', '.']) :=
    not_or.2 ⟨fun h => hname.toList_notBlank (.inr h), hname.toList_ne_dots⟩
  rw [target_eq_ok_iff (Path.pieces_join dir hslash).1 hname.toList_ne_nil (by simp),
    if_neg hdots, String.ofList_toList]
  exact and_congr_right fun hchecked => and_congr_left' (walk_above_iff hslash hchecked)

/-- A file that is written below a directory is an entry of it, and nothing else changes. -/
theorem write_join_eq_ok_iff (hname : Path.IsEntryName name) :
    fs.write (Path.join dir name) content = .ok fs' ↔
      ∃ here, fs.Accepts dir name here ∧ fs' = fs.put (here ++ [name]) (.file content) := by
  rw [write]
  cases hfound : fs.target (Path.join dir name) with
  | error e =>
    refine iff_of_false nofun fun ⟨here, haccepts, _⟩ => ?_
    have hok := (target_join_eq_ok_iff hname).2 ⟨haccepts.checked,
      ⟨haccepts.outputPlace_eq, haccepts.directory⟩, haccepts.length_le, rfl⟩
    rw [hfound] at hok
    cases hok
  | ok found =>
    obtain ⟨here, found⟩ := found
    obtain ⟨hchecked, ⟨hplace, hhere⟩, hlength, rfl⟩ := (target_join_eq_ok_iff hname).1 hfound
    change (if fs.get? (here ++ [name]) = some .directory ∨
        (Path.join dir name).toList.getLast? = some '/' then Except.error FileError.isADirectory
      else .ok (fs.put (here ++ [name]) (.file content))) = .ok fs' ↔ _
    by_cases hfree : fs.get? (here ++ [name]) = some .directory
    · rw [if_pos (.inl hfree)]
      refine iff_of_false nofun fun ⟨here', haccepts, _⟩ => haccepts.free ?_
      rwa [← Except.ok.inj (hplace.symm.trans haccepts.outputPlace_eq)]
    · have haccepts : fs.Accepts dir name here := ⟨hchecked, hplace, hhere, hlength, hfree⟩
      rw [if_neg (not_or.2 ⟨hfree, hname.getLast?_join_ne dir⟩), Except.ok.injEq]
      constructor
      · rintro rfl
        exact ⟨here, haccepts, rfl⟩
      · rintro ⟨here', haccepts', rfl⟩
        rw [haccepts.unique haccepts']

/-- Below a directory, whether a file can be written and why not is told by the path and by whether
a directory has its name. -/
theorem write_join_eq (hname : Path.IsEntryName name) (hplace : fs.outputPlace dir = .ok here)
    (hhere : fs.get? here = some .directory) (content : ByteArray) :
    fs.write (Path.join dir name) content = (do
      checked (Path.join dir name)
      if longestName < Text.byteCount name.toList then .error .nameTooLong
      else if fs.get? (here ++ [name]) = some .directory then .error .isADirectory
      else .ok (fs.put (here ++ [name]) (.file content))) := by
  have hslash := hname.slash_notMem
  have hdots : ¬ (name.toList = ['.'] ∨ name.toList = ['.', '.']) :=
    not_or.2 ⟨fun h => hname.toList_notBlank (.inr h), hname.toList_ne_dots⟩
  have hdrop : (Path.pieces (Path.join dir name)).reverse.dropWhile (· = []) =
      name.toList :: (Path.above dir).reverse := by
    rw [(Path.pieces_join dir hslash).1, List.reverse_append, List.reverse_singleton,
      List.singleton_append]
    exact List.dropWhile_cons_of_neg (by simpa using hname.toList_ne_nil)
  rw [write, target, hdrop]
  cases hchecked : checked (Path.join dir name) with
  | error e => rfl
  | ok =>
    have hwalk := ((walk_above_iff hslash hchecked).2 ⟨hplace, hhere⟩).1
    have hslashed : ¬ (Path.join dir name).toList.getLast? = some '/' := hname.getLast?_join_ne dir
    simp only [List.reverse_reverse, hwalk, bind, Except.bind, hhere, ne_eq, not_true_eq_false,
      if_false, if_neg hdots, String.ofList_toList]
    split_ifs <;> simp_all

/-- Below a directory, why a file cannot be written depends on the directories alone. -/
theorem SameDirectories.write_join_eq_error_iff (hsame : SameDirectories fs fs')
    (hname : Path.IsEntryName name) (hplace : fs.outputPlace dir = .ok here)
    (hhere : fs.get? here = some .directory) {e : FileError} :
    fs'.write (Path.join dir name) content = .error e ↔
      fs.write (Path.join dir name) content = .error e := by
  have hhere' := (hsame.directory_iff here).1 hhere
  rw [write_join_eq hname hplace hhere,
    write_join_eq hname (hsame.outputPlace_eq hplace hhere) hhere']
  cases checked (Path.join dir name) with
  | error e' => rfl
  | ok =>
    simp only [bind, Except.bind, hsame.directory_iff (here ++ [name])]
    split_ifs <;> simp

/-- Whether a file can be written at a path. -/
def takesFile (fs : FileSystem) (path : String) : Bool := (fs.write path .empty).isOk

theorem takesFile_join_iff (hname : Path.IsEntryName name) :
    fs.takesFile (Path.join dir name) = true ↔ ∃ here, fs.Accepts dir name here := by
  have hok : fs.takesFile (Path.join dir name) = true ↔
      ∃ fs', fs.write (Path.join dir name) .empty = .ok fs' := by
    rw [takesFile]
    cases fs.write (Path.join dir name) .empty <;> simp [Except.isOk, Except.toBool]
  rw [hok]
  constructor
  · rintro ⟨fs', hwrite⟩
    obtain ⟨here, haccepts, -⟩ := (write_join_eq_ok_iff hname).1 hwrite
    exact ⟨here, haccepts⟩
  · rintro ⟨here, haccepts⟩
    exact ⟨_, (write_join_eq_ok_iff hname).2 ⟨here, haccepts, rfl⟩⟩

/-! ### Making the directory -/

/-- The second file system has what the first one has, and directories where that has nothing. -/
structure AddsDirectories (fs fs' : FileSystem) : Prop where
  workingDirectory : fs.workingDirectory = fs'.workingDirectory
  get?_eq : ∀ place, fs'.get? place = fs.get? place ∨
    fs.get? place = none ∧ fs'.get? place = some .directory

namespace AddsDirectories

theorem refl (fs : FileSystem) : AddsDirectories fs fs := ⟨rfl, fun _ => .inl rfl⟩

theorem trans (h : AddsDirectories fs fs') (h' : AddsDirectories fs' fs'') :
    AddsDirectories fs fs'' := by
  refine ⟨h.workingDirectory.trans h'.workingDirectory, fun place => ?_⟩
  rcases h'.get?_eq place with heq | ⟨hnone, hnew⟩
  · rw [heq]
    exact h.get?_eq place
  · rcases h.get?_eq place with heq | ⟨-, hplace⟩
    · exact .inr ⟨heq ▸ hnone, hnew⟩
    · rw [hplace] at hnone
      cases hnone

theorem get?_of_get? (h : AddsDirectories fs fs') {e : Entry} (he : fs.get? place = some e) :
    fs'.get? place = some e := by
  rcases h.get?_eq place with heq | ⟨hnone, -⟩
  · rw [heq, he]
  · rw [he] at hnone
    cases hnone

theorem keepsDirectories (h : AddsDirectories fs fs') : KeepsDirectories fs fs' :=
  ⟨h.workingDirectory, fun _ => h.get?_of_get?⟩

/-- The files are the same. -/
theorem get?_file_iff (h : AddsDirectories fs fs') :
    fs'.get? place = some (.file content) ↔ fs.get? place = some (.file content) := by
  refine ⟨fun hfile => ?_, h.get?_of_get?⟩
  rcases h.get?_eq place with heq | ⟨-, hnew⟩
  · rw [← heq, hfile]
  · rw [hfile] at hnew
    cases hnew

end AddsDirectories

theorem isDirectory_iff :
    fs.isDirectory path = true ↔ ∃ place, fs.locate path = .ok place ∧
      fs.get? place = some .directory := by
  rw [isDirectory, decide_eq_true_eq, find?]
  cases fs.locate path with
  | error e => simp
  | ok place => simp

/-- A directory is made where nothing was, and then the path names it. -/
theorem addsDirectories_of_makeDirectory (h : fs.makeDirectory path = .ok fs') :
    AddsDirectories fs fs' ∧ fs'.isDirectory path = true := by
  obtain ⟨place, hne, hnone, rfl, hlocate⟩ := exists_of_makeDirectory h
  have hnew := fs.get?_put_self hne .directory
  refine ⟨⟨rfl, fun other => ?_⟩, isDirectory_iff.2 ⟨place, hlocate, hnew⟩⟩
  by_cases hother : place = other
  · exact .inr (hother ▸ ⟨hnone, hnew⟩)
  · exact .inl (fs.get?_put_of_ne hother _)

/-- What came of making the directory at a path. -/
structure Makes (fs : FileSystem) (path : String) (made : FileSystem × Except FileError Unit) :
    Prop where
  adds : AddsDirectories fs made.1
  names : made.2 = .ok () → path = "" ∨ made.1.isDirectory path = true

theorem makes_of_makeDirectory (h : AddsDirectories fs fs')
    (hmake : fs'.makeDirectory path = .ok fs'') : Makes fs path (fs'', .ok ()) :=
  have hmade := addsDirectories_of_makeDirectory hmake
  ⟨h.trans hmade.1, fun _ => .inr hmade.2⟩

/-- A directory that cannot be made because it is there is good enough. -/
theorem makes_of_isDirectory (h : AddsDirectories fs fs') (path : String) (e : FileError) :
    Makes fs path (fs', if fs'.isDirectory path = true then .ok () else .error e) := by
  refine ⟨h, fun hok => .inr ?_⟩
  by_contra hnot
  rw [if_neg hnot] at hok
  cases hok

/-- What was made stays, also when a later step fails; if none fails the first path names a
directory. -/
theorem makes_makeNested (fs : FileSystem) (paths : List String) :
    AddsDirectories fs (fs.makeNested paths).1 ∧
      ∀ path above, paths = path :: above → Makes fs path (fs.makeNested paths) := by
  induction paths with
  | nil => exact ⟨.refl fs, nofun⟩
  | cons path above ih =>
    suffices hmakes : Makes fs path (fs.makeNested (path :: above)) by
      refine ⟨hmakes.adds, fun path' above' h => ?_⟩
      rwa [← (List.cons.inj h).1]
    rw [makeNested]
    by_cases hempty : path = ""
    · rw [if_pos hempty]
      exact ⟨.refl fs, fun _ => .inl hempty⟩
    rw [if_neg hempty]
    cases hmake : fs.makeDirectory path with
    | ok made => exact makes_of_makeDirectory (.refl fs) hmake
    | error e =>
      cases e with
      | notFound =>
        have habove := ih.1
        dsimp only
        cases hrest : fs.makeNested above with
        | mk fs' result =>
          rw [hrest] at habove
          cases result with
          | error e' => exact ⟨habove, nofun⟩
          | ok =>
            dsimp only
            cases hagain : fs'.makeDirectory path with
            | ok made => exact makes_of_makeDirectory habove hagain
            | error e' => exact makes_of_isDirectory habove path e'
      | _ => exact makes_of_isDirectory (.refl fs) path _

theorem makes_makeOutput (fs : FileSystem) (dir : String) :
    Makes fs dir ((fs.makeOutput dir).files, (fs.makeDirectories dir).2) := by
  obtain ⟨above, hancestors⟩ := Path.exists_ancestors dir
  exact (fs.makes_makeNested (Path.ancestors dir)).2 dir above hancestors

theorem makeOutput_of_error {left : FileSystem} {e : FileError}
    (h : fs.makeDirectories dir = (left, .error e)) :
    fs.makeOutput dir = ⟨left, .error (.outputDirectory dir e)⟩ := by
  rw [makeOutput, h]
  rfl

theorem makeOutput_of_ok (h : fs.makeDirectories dir = (fs', .ok ())) :
    fs.makeOutput dir = ⟨fs', .ok ()⟩ := by
  rw [makeOutput, h]
  rfl

/-- An output directory that could be made is there. -/
theorem isDirectory_makeOutput (hok : (fs.makeOutput dir).result = .ok ()) :
    dir = "" ∨ (fs.makeOutput dir).files.isDirectory dir = true := by
  cases hmade : fs.makeDirectories dir with
  | mk made result =>
    cases result with
    | error e =>
      rw [makeOutput_of_error hmade] at hok
      cases hok
    | ok => exact (fs.makes_makeOutput dir).names (congrArg Prod.snd hmade)

/-- Making the output directory adds directories at most; if it goes well the directory is there. -/
theorem makeOutput_spec (fs : FileSystem) (dir : String) :
    AddsDirectories fs (fs.makeOutput dir).files ∧ ((fs.makeOutput dir).result = .ok () →
      ∃ out, (fs.makeOutput dir).files.outputPlace dir = .ok out) := by
  refine ⟨(fs.makes_makeOutput dir).adds, fun hok => ?_⟩
  rw [outputPlace]
  split_ifs with hempty
  · exact ⟨_, rfl⟩
  · obtain ⟨place, hlocate, -⟩ :=
      isDirectory_iff.1 ((isDirectory_makeOutput hok).resolve_left hempty)
    exact ⟨place, hlocate⟩

theorem writeOutput_of_error {text : String} {e : FileError}
    (h : fs.write path text.toUTF8 = .error e) :
    fs.writeOutput path text = ⟨fs, .error (.write path e)⟩ := by
  rw [writeOutput, h]

theorem writeOutput_of_ok {text : String} (h : fs.write path text.toUTF8 = .ok fs') :
    fs.writeOutput path text = ⟨fs', .ok ()⟩ := by
  rw [writeOutput, h]

/-! ### What is changed -/

/-- The second file system keeps the directories of the first one, and what is otherwise in it is
where one of some paths leads. -/
structure ChangesAt (fs fs' : FileSystem) (paths : List String) : Prop
    extends KeepsDirectories fs fs' where
  changed : ∀ place, fs'.get? place ≠ fs.get? place →
    (fs'.get? place).isSome = true ∧ ∃ path ∈ paths, fs'.locate path = .ok place

namespace ChangesAt

variable {paths paths' : List String}

theorem refl (fs : FileSystem) (paths : List String) : ChangesAt fs fs paths where
  workingDirectory := rfl
  directory _ := id
  changed _ h := absurd rfl h

theorem mono (h : ChangesAt fs fs' paths) (hsub : paths ⊆ paths') : ChangesAt fs fs' paths' where
  toKeepsDirectories := h.toKeepsDirectories
  changed place hplace := (h.changed place hplace).imp_right fun ⟨path, hpath, hlocate⟩ =>
    ⟨path, hsub hpath, hlocate⟩

theorem trans (h : ChangesAt fs fs' paths) (h' : ChangesAt fs' fs'' paths) :
    ChangesAt fs fs'' paths where
  workingDirectory := h.workingDirectory.trans h'.workingDirectory
  directory place := h'.directory place ∘ h.directory place
  changed place hplace := by
    by_cases hsame : fs''.get? place = fs'.get? place
    · -- what the first step put there is still there, and a path that led there leads there
      rw [hsame] at hplace ⊢
      obtain ⟨hsome, path, hpath, hlocate⟩ := h.changed place hplace
      exact ⟨hsome, path, hpath, h'.locate_eq hlocate (hsame ▸ hsome)⟩
    · exact h'.changed place hsame

/-- One place is changed, and a path leads there. -/
theorem put {e : Entry} (hkeeps : KeepsDirectories fs (fs.put place e)) (hplace : place ≠ [])
    (hlocate : (fs.put place e).locate path = .ok place) :
    ChangesAt fs (fs.put place e) [path] where
  toKeepsDirectories := hkeeps
  changed other hother := by
    have heq : place = other := by
      by_contra hne
      exact hother (fs.get?_put_of_ne hne e)
    subst heq
    exact ⟨by rw [fs.get?_put_self hplace]; rfl, path, List.mem_singleton_self _, hlocate⟩

end ChangesAt

/-- What is known of a file that was written at a path. -/
structure Wrote (fs fs' : FileSystem) (path : String) (content : ByteArray) (place : Location) :
    Prop where
  eq_put : fs' = fs.put place (.file content)
  free : fs.get? place ≠ some .directory
  locate_eq : fs'.locate path = .ok place
  ending : ∀ w, '/' ∉ w → w <:+ path.toList →
    ∃ name, place.getLast? = some name ∧ w <:+ name.toList

theorem exists_wrote (h : fs.write path content = .ok fs') :
    ∃ place, fs.Wrote fs' path content place := by
  obtain ⟨here, name, htarget, hslash, hfree, rfl⟩ := exists_of_write h
  have hsame : SameDirectories fs (fs.put (here ++ [name]) (.file content)) :=
    sameDirectories_put hfree
  have hlocate := locate_of_target htarget hsame.keepsDirectories
    (by rw [fs.get?_put_self (by simp)]; rfl) fun h => absurd h hslash
  refine ⟨here ++ [name], rfl, hfree, hlocate, fun w hw hends => ⟨name, by simp, ?_⟩⟩
  obtain ⟨-, -, -, -, above, blanks, hpieces, hblanks, -⟩ := exists_of_target htarget
  have hnil : blanks = [] := by
    by_contra hne
    exact hslash (Path.getLast?_of_blanks hpieces hblanks hne)
  rw [hnil] at hpieces
  exact (suffix_iff_of_pieces hpieces hw).1 hends

namespace Wrote

theorem place_ne_nil (h : fs.Wrote fs' path content place) : place ≠ [] := by
  rintro rfl
  exact h.free rfl

theorem get?_self (h : fs.Wrote fs' path content place) :
    fs'.get? place = some (.file content) := by
  rw [h.eq_put, fs.get?_put_self h.place_ne_nil]

theorem get?_of_ne (h : fs.Wrote fs' path content place) {other : Location} (hne : other ≠ place) :
    fs'.get? other = fs.get? other := by
  rw [h.eq_put, fs.get?_put_of_ne hne.symm]

theorem sameDirectories (h : fs.Wrote fs' path content place) : SameDirectories fs fs' :=
  h.eq_put ▸ sameDirectories_put h.free

theorem changesAt (h : fs.Wrote fs' path content place) : ChangesAt fs fs' [path] := by
  have hkeeps := h.sameDirectories.keepsDirectories
  have hlocate := h.locate_eq
  rw [h.eq_put] at hkeeps hlocate ⊢
  exact .put hkeeps h.place_ne_nil hlocate

end Wrote

theorem changesAt_makeDirectory (h : fs.makeDirectory path = .ok fs') :
    ChangesAt fs fs' [path] := by
  obtain ⟨place, hne, hnone, rfl, hlocate⟩ := exists_of_makeDirectory h
  exact .put (keepsDirectories_put hnone .directory) hne hlocate

/-- Every directory that is made, of those that are missing, is where its own path leads. -/
theorem changesAt_makeNested (fs : FileSystem) (paths : List String) :
    ChangesAt fs (fs.makeNested paths).1 paths := by
  induction paths with
  | nil => exact .refl fs []
  | cons path above ih =>
    have hpath : [path] ⊆ path :: above := by simp
    rw [makeNested]
    by_cases hempty : path = ""
    · rw [if_pos hempty]
      exact .refl fs _
    rw [if_neg hempty]
    cases hmake : fs.makeDirectory path with
    | ok made => exact (changesAt_makeDirectory hmake).mono hpath
    | error e =>
      cases e with
      | notFound =>
        dsimp only
        cases hrest : fs.makeNested above with
        | mk fs' result =>
          rw [hrest] at ih
          replace ih := ih.mono (List.subset_cons_self path above)
          cases result with
          | error e' => exact ih
          | ok =>
            dsimp only
            cases hagain : fs'.makeDirectory path with
            | ok made => exact ih.trans ((changesAt_makeDirectory hagain).mono hpath)
            | error e' => exact ih
      | _ => exact .refl fs _

theorem changesAt_makeOutput (fs : FileSystem) (dir : String) :
    ChangesAt fs (fs.makeOutput dir).files (Path.ancestors dir) :=
  fs.changesAt_makeNested (Path.ancestors dir)

/-- Making the output directory changes nothing but that a directory is new, which the path or one
of its parents leads to. -/
theorem get?_makeOutput (fs : FileSystem) (dir : String) (place : Location) :
    (fs.makeOutput dir).files.get? place = fs.get? place ∨
      fs.get? place = none ∧ (fs.makeOutput dir).files.get? place = some .directory ∧
        ∃ path ∈ Path.ancestors dir, (fs.makeOutput dir).files.locate path = .ok place := by
  rcases (fs.makes_makeOutput dir).adds.get?_eq place with heq | ⟨hnone, hnew⟩
  · exact .inl heq
  · have hchanged : (fs.makeOutput dir).files.get? place ≠ fs.get? place := by
      rw [hnone]
      exact fun h => nomatch hnew.symm.trans h
    exact .inr ⟨hnone, hnew, ((fs.changesAt_makeOutput dir).changed place hchanged).2⟩

end FileSystem

end TypeCorpus
