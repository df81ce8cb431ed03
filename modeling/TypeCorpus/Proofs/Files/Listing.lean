import Mathlib.Data.List.Nodup
import TypeCorpus.Proofs.Files.Location
import TypeCorpus.Proofs.Files.Wildcard

/-! What is enumerated in a directory. A pattern of an escaped path and a star before an extension
is cut into one part for each piece of the path and one for the star. Each of the first leads on to
one place at most, with wildcards in the piece or without; the last one keeps of the names in the
directory those that end in the extension. So the documents of a directory that is there are the
files in it with such names, in order, each with its path from the root if the directory is named by
its own. -/

namespace TypeCorpus

open Wildcard (Part escape tokens tokensFrom)

/-! ### The pattern -/

namespace Wildcard

/-- A character that stands for itself in a name. -/
def IsPlain (c : Char) : Prop := ¬ (c = '?' ∨ c = '*' ∨ c = '[') ∧ c ≠ '/'

instance (c : Char) : Decidable (IsPlain c) := inferInstanceAs (Decidable (_ ∧ _))

/-- The part for all names that end in a dot and an extension. -/
def Part.endingIn (ext : List Char) : Part :=
  ⟨'*' :: '.' :: ext, .many :: ('.' :: ext).map .literal⟩

/-- The pieces of the path of a location after its first slash. -/
def below (place : Location) : List (List Char) :=
  if place = [] then [[]] else place.map String.toList

variable {ext : List Char} {place : Location}

theorem tokensFrom_literals {w : List Char} (hw : ∀ c ∈ w, ¬ (c = '?' ∨ c = '*' ∨ c = '['))
    (place : ℕ) (atStart : Bool) : tokensFrom place atStart w = .ok (w.map .literal) := by
  induction w generalizing place atStart with
  | nil => rw [tokensFrom]; rfl
  | cons c w ih =>
    rw [tokensFrom_literal (hw c List.mem_cons_self),
      ih fun d hd => hw d (List.mem_cons_of_mem _ hd)]
    rfl

theorem tokensFrom_endingIn (hext : ∀ c ∈ ext, IsPlain c) (place : ℕ) (atStart : Bool) :
    tokensFrom place atStart (Part.endingIn ext).text = .ok (Part.endingIn ext).tokens := by
  have hliteral : ∀ c ∈ '.' :: ext, ¬ (c = '?' ∨ c = '*' ∨ c = '[') := by
    intro c hc
    rcases List.mem_cons.1 hc with rfl | hc
    · decide
    · exact (hext c hc).1
  rw [Part.endingIn, tokensFrom, tokensFrom_literals hliteral]
  · rfl
  · exact fun _ h => absurd (List.cons.inj h).1 (by decide)
  · exact fun _ h => absurd (List.cons.inj h).1 (by decide)

/-- A path without a slash at its front. -/
def relative (path : List Char) : List Char := if path.head? = some '/' then path.drop 1 else path

theorem splitOn_append_of_notMem {w : List Char} (hw : '/' ∉ w) (s : List Char) :
    (w ++ s).splitOn '/' = (s.splitOn '/').modifyHead (w ++ ·) := by
  induction w with
  | nil =>
    rw [List.nil_append]
    cases s.splitOn '/' <;> rfl
  | cons c w ih =>
    rw [List.mem_cons, not_or] at hw
    have hc : ¬ ((c == '/') = true) := by simpa using Ne.symm hw.1
    rw [List.cons_append, List.splitOn_cons_eq_if_modifyHead, if_neg hc, ih hw.2]
    cases s.splitOn '/' <;> rfl

/-- Escaping keeps the slashes, and so the pieces between them. -/
theorem splitOn_escape (s : List Char) : (escape s).splitOn '/' = (s.splitOn '/').map escape := by
  induction s with
  | nil => rfl
  | cons c s ih =>
    have hslash : ¬ ('/' = '?' ∨ '/' = '*' ∨ '/' = '[' ∨ '/' = ']') := by decide
    rw [escape_cons]
    by_cases hc : c = '/'
    · subst hc
      rw [if_neg hslash, List.singleton_append, List.splitOn_cons_eq_if_modifyHead,
        List.splitOn_cons_eq_if_modifyHead, if_pos (by rfl), if_pos (by rfl), ih]
      rfl
    · have hblock : '/' ∉ if c = '?' ∨ c = '*' ∨ c = '[' ∨ c = ']' then ['[', c, ']'] else [c] := by
        split <;> simp [Ne.symm hc]
      have hne : ¬ ((c == '/') = true) := by simpa using hc
      rw [splitOn_append_of_notMem hblock, ih, List.splitOn_cons_eq_if_modifyHead, if_neg hne]
      cases s.splitOn '/' with
      | nil => rfl
      | cons piece pieces =>
        rw [List.modifyHead_cons, List.map_cons, List.map_cons, List.modifyHead_cons, escape_cons]

/-- The pieces of an escaped path with one more piece behind it. -/
theorem pieces_escape_append {w : List Char} (hw : '/' ∉ w) (hne : w ≠ []) (s : List Char) :
    pieces (escape s ++ '/' :: w) = (s.splitOn '/').map escape ++ [w] := by
  have hsplit : (escape s ++ '/' :: w).splitOn '/' = (s.splitOn '/').map escape ++ [w] := by
    rw [List.splitOn_append_cons_self, List.splitOn_eq_singleton hw, splitOn_escape]
  have hreverse : ((escape s ++ '/' :: w).splitOn '/').reverse =
      w :: ((s.splitOn '/').map escape).reverse := by rw [hsplit]; simp
  rw [pieces, hreverse]
  cases w with
  | nil => exact absurd rfl hne
  | cons c w => simp

/-- The pieces are read as a part for each name and one for the files. -/
theorem mapM_endingIn (hext : ∀ c ∈ ext, IsPlain c) (names : List (List Char)) :
    (names.map escape ++ [(Part.endingIn ext).text]).mapM
        (fun text => (tokens text).map (Part.mk text)) =
      .ok (names.map Part.ofName ++ [Part.endingIn ext]) := by
  induction names with
  | nil =>
    rw [List.map_nil, List.nil_append, List.mapM_cons, tokens, tokensFrom_endingIn hext]
    rfl
  | cons name names ih =>
    have hnil : ∀ place atStart, tokensFrom place atStart [] = .ok [] :=
      fun _ _ => by rw [tokensFrom]
    have hname : tokens (escape name) = .ok (name.map only) := by
      have hread := tokensFrom_escape hnil name 0 true
      rwa [List.append_nil, List.append_nil] at hread
    rw [List.map_cons, List.cons_append, List.mapM_cons, hname, ih]
    rfl

theorem exists_tokens_pattern (hext : ∀ c ∈ ext, IsPlain c) (s : List Char) :
    ∃ ts, tokens (escape s ++ '/' :: (Part.endingIn ext).text) = .ok ts := by
  have hslash : ∀ n atStart, tokensFrom n atStart ('/' :: (Part.endingIn ext).text) =
      .ok (.literal '/' :: (Part.endingIn ext).tokens) := by
    intro n atStart
    rw [tokensFrom_literal (by decide), tokensFrom_endingIn hext]
    rfl
  exact ⟨_, tokensFrom_escape hslash _ 0 true⟩

/-- Escaping keeps a slash at the front, and puts none there. -/
theorem head?_escape_append {s : List Char} (hs : s ≠ []) (w : List Char) :
    (escape s ++ w).head? = some '/' ↔ s.head? = some '/' := by
  cases s with
  | nil => exact absurd rfl hs
  | cons c s =>
    rw [escape_cons]
    split
    · rename_i hc
      refine iff_of_false (by simp) fun hslash => ?_
      rw [Option.some.inj hslash] at hc
      exact absurd hc (by decide)
    · rfl

theorem relative_escape_append {s : List Char} (hs : s ≠ []) (w : List Char) :
    relative (escape s ++ w) = escape (relative s) ++ w := by
  by_cases h : s.head? = some '/'
  · obtain ⟨s', rfl⟩ := List.head?_eq_some_iff.1 h
    rw [relative, relative, if_pos ((head?_escape_append hs w).2 h), if_pos h, escape_cons,
      if_neg (by decide)]
    rfl
  · rw [relative, relative, if_neg (h ∘ (head?_escape_append hs w).1), if_neg h]

/-- The pattern for the files of a directory has a part for each piece of the directory's path and
one for the files. -/
theorem parse_endingIn {dir : String} (hdir : dir ≠ "") {ext : String}
    (hext : ∀ c ∈ ext.toList, IsPlain c) :
    Pattern.parse (String.ofList (escape dir.toList) ++ "/*." ++ ext) =
      .ok ⟨Path.isAbsolute dir, ((relative dir.toList).splitOn '/').map Part.ofName ++
        [Part.endingIn ext.toList], false⟩ := by
  have hchars : dir.toList ≠ [] := fun h => hdir (String.toList_inj.1 h)
  have htext : '/' ∉ (Part.endingIn ext.toList).text := by
    simpa [Part.endingIn] using fun h => (hext '/' h).2 rfl
  have hpattern : (String.ofList (escape dir.toList) ++ "/*." ++ ext).toList =
      escape dir.toList ++ '/' :: (Part.endingIn ext.toList).text := by simp [Part.endingIn]
  have hrest : (if (escape dir.toList ++ '/' :: (Part.endingIn ext.toList).text).head? = some '/'
      then (escape dir.toList ++ '/' :: (Part.endingIn ext.toList).text).drop 1
      else escape dir.toList ++ '/' :: (Part.endingIn ext.toList).text) =
        escape (relative dir.toList) ++ '/' :: (Part.endingIn ext.toList).text :=
    relative_escape_append hchars _
  have hlast : (escape dir.toList ++ '/' :: (Part.endingIn ext.toList).text).getLast? ≠
      some '/' := by
    rw [List.getLast?_append_of_ne_nil _ (List.cons_ne_nil _ _), Part.endingIn,
      List.getLast?_cons_cons]
    exact fun h => htext (List.mem_of_getLast? h)
  have hne : escape (relative dir.toList) ++ '/' :: (Part.endingIn ext.toList).text ≠ [] := by simp
  obtain ⟨ts, htokens⟩ := exists_tokens_pattern hext dir.toList
  simp only [Pattern.parse, hpattern, htokens, hrest, hne, if_false, hlast, decide_false,
    pieces_escape_append htext (List.cons_ne_nil _ _)]
  simp only [head?_escape_append hchars]
  rw [Path.isAbsolute, mapM_endingIn hext]
  rfl

/-- What a path from the root has after its first slash. -/
theorem splitOn_relative_absolutePath (hnames : ∀ n ∈ place, FileSystem.IsName n) :
    (relative (FileSystem.absolutePath place).toList).splitOn '/' = below place := by
  rw [FileSystem.toList_absolutePath, below]
  by_cases hplace : place = []
  · rw [hplace]
    rfl
  · rw [if_neg hplace]
    refine List.splitOn_intercalate '/' (fun piece hpiece => ?_) (by simpa using hplace)
    obtain ⟨n, hn, rfl⟩ := List.mem_map.1 hpiece
    exact (hnames n hn).slash_notMem

end Wildcard

namespace FileSystem

variable {fs : FileSystem} {here place : Location} {name : String}

/-! ### Names in a directory -/

theorem nameIn_eq_some_iff : nameIn here place = some name ↔ place = here ++ [name] := by
  rw [nameIn]
  constructor
  · intro h
    split at h
    · rename_i hdrop
      rw [← hdrop, List.dropLast_append_getLast? name h]
    · cases h
  · rintro rfl
    rw [if_pos List.dropLast_concat, List.getLast?_concat]

theorem mem_names : name ∈ fs.names here ↔ here ++ [name] ∈ fs.entries.keys := by
  rw [names, List.mem_mergeSort, List.mem_filterMap]
  constructor
  · rintro ⟨place, hplace, hname⟩
    rwa [nameIn_eq_some_iff.1 hname] at hplace
  · exact fun h => ⟨_, h, nameIn_eq_some_iff.2 rfl⟩

theorem mem_names_iff_isSome : name ∈ fs.names here ↔ (fs.get? (here ++ [name])).isSome = true :=
  mem_names.trans (isSome_get?_iff (by simp)).symm

namespace WellFormed

variable (hfs : fs.WellFormed)

include hfs

theorem nodup_names (here : Location) : (fs.names here).Nodup := by
  rw [names, (List.mergeSort_perm _ _).nodup_iff]
  refine List.Nodup.filterMap (fun place place' name h h' => ?_) hfs.nodup
  rw [nameIn_eq_some_iff.1 h, nameIn_eq_some_iff.1 h']

theorem isName_of_mem_names (h : name ∈ fs.names here) : ∀ n ∈ here ++ [name], IsName n :=
  hfs.isName _ (mem_names.1 h)

end WellFormed

/-! ### Following the pattern -/

/-- A location, shown with its path from the root. -/
def Found.at (place : Location) : Found := ⟨absolutePath place, place⟩

/-- The path of an entry goes on from the path of its directory. -/
theorem join_absolutePath (hnames : ∀ n ∈ here ++ [name], IsName n) :
    Path.join (absolutePath here) name = absolutePath (here ++ [name]) := by
  have hname : IsName name := hnames name (by simp)
  have hrelative : Path.isAbsolute name = false := by
    rw [Path.isAbsolute, decide_eq_false_iff_not]
    exact fun h => hname.slash_notMem (List.mem_of_head? h)
  rw [Path.join, hrelative, if_neg Bool.false_ne_true]
  cases here using List.reverseRecOn with
  | nil => rfl
  | append_singleton above last =>
    have hlast : (absolutePath (above ++ [last])).toList.getLast? ≠ some '/' := by
      have hslash := (hnames last (by simp)).slash_notMem
      rw [getLast?_absolutePath (hnames last (by simp))]
      exact fun h => hslash (List.mem_of_getLast? h)
    have hempty : absolutePath (above ++ [last]) ≠ "" := absolutePath_ne_empty _
    rw [if_neg (not_or.2 ⟨hempty, hlast⟩), ← String.toList_inj,
      toList_absolutePath_concat (by simp)]
    simp

theorem entry_at (hnames : ∀ n ∈ here ++ [name], IsName n) :
    (Found.at here).entry name = Found.at (here ++ [name]) := by
  have hhere : Path.isHere (absolutePath here) = false := by
    rw [Path.isHere, isAbsolute_absolutePath]
    rfl
  simp only [Found.entry, Found.at, hhere, join_absolutePath hnames]
  rfl

/-- A name with wildcards is not that of dots. -/
theorem dots_ofName {name : List Char} (hplain : (Part.ofName name).isPlain = false) :
    (Part.ofName name).dots = [] := by
  have hhits : ∀ dot ∈ ["..", "."], (Part.ofName name).hits dot = false := by
    intro dot hdot
    rw [Bool.eq_false_iff, ne_eq, Part.hits_ofName]
    rintro rfl
    simp only [List.mem_cons, List.not_mem_nil, or_false] at hdot
    rcases hdot with rfl | rfl <;> exact absurd hplain (by decide)
  rw [Part.dots]
  split
  · exact List.filter_eq_nil_iff.2 fun dot hdot => by simp [hhits dot hdot]
  · rfl

theorem flatMap_ite_eq {α β : Type} (p : α → Bool) (g : α → List β) (l : List α) :
    (l.flatMap fun a => if p a = true then g a else []) = (l.filter p).flatMap g := by
  induction l with
  | nil => rfl
  | cons a l ih =>
    rw [List.flatMap_cons, ih]
    by_cases h : p a = true
    · rw [if_pos h, List.filter_cons_of_pos h, List.flatMap_cons]
    · rw [if_neg h, List.filter_cons_of_neg h, List.nil_append]

/-- A part with wildcards goes on from each entry of a directory with a name that it matches. -/
theorem inside_eq_flatMap {f : Found} (hf : fs.holdsDirectory f = true) {p : Part}
    (hplain : p.isPlain = false) (hrecursive : p.isRecursive = false) (hdots : p.dots = [])
    (dirsOnly : Bool) (rest : List Part) :
    fs.inside dirsOnly f (p :: rest) =
      ((fs.names f.place).filter p.hits).flatMap fun n => fs.inside dirsOnly (f.entry n) rest := by
  have hentry : ∀ n, ∀ h : n ∈ fs.names f.place,
      fs.atEntry dirsOnly n (f.entry n) (p :: rest) =
        if p.hits n = true then fs.inside dirsOnly (f.entry n) rest else [] := by
    intro n _
    rw [atEntry, hrecursive, if_neg Bool.false_ne_true]
  rw [inside, hplain, if_neg Bool.false_ne_true, if_pos hf, hdots, List.flatMap_nil,
    List.nil_append, List.flatMap_subtype hentry, List.unattach_attach, flatMap_ite_eq]

/-- The part for an extension finds the entries of a directory whose names end in it, in order. -/
theorem inside_endingIn {f : Found} (hf : fs.holdsDirectory f = true) (ext : List Char) :
    fs.inside false f [Part.endingIn ext] =
      ((fs.names f.place).filter fun n => ('.' :: ext).isSuffixOf n.toList).map f.entry := by
  have hhits : ∀ n ∈ fs.names f.place,
      (Part.endingIn ext).hits n = ('.' :: ext).isSuffixOf n.toList := by
    intro n _
    rw [Bool.eq_iff_iff, List.isSuffixOf_iff_suffix]
    exact Wildcard.matchesName_many _ _
  have hone : ∀ n, fs.inside false (f.entry n) [] = [f.entry n] := by
    intro n
    rw [inside]
    rfl
  rw [inside_eq_flatMap hf rfl (by simp [Part.isRecursive, Part.endingIn]) rfl,
    List.filter_congr hhits]
  simp only [hone]
  exact (List.map_eq_flatMap).symm

theorem holdsDirectory_at (hhere : fs.get? here = some .directory) :
    fs.holdsDirectory (.at here) = true := by
  rw [holdsDirectory, Found.at, hhere, decide_eq_true_eq]

theorem inside_of_not_holdsDirectory {f : Found} (hf : ¬ fs.holdsDirectory f = true)
    (ext : List Char) : fs.inside false f [Part.endingIn ext] = [] := by
  have hplain : (Part.endingIn ext).isPlain = false := rfl
  rw [inside, hplain, if_neg Bool.false_ne_true, if_neg hf]

/-- The path of a piece in what was found. -/
def Found.next (f : Found) (piece : String) : String :=
  if Path.isHere f.path then piece else Path.join f.path piece

/-- Where a part for a piece leads. -/
def step? (fs : FileSystem) (f : Found) (piece : List Char) : Option Found :=
  if (Part.ofName piece).isPlain then fs.piece? f (String.ofList piece)
  else if fs.holdsDirectory f ∧ String.ofList piece ∈ fs.names f.place then
    some (f.entry (String.ofList piece))
  else none

/-- Where the parts for some pieces lead. -/
def follow (fs : FileSystem) (f : Found) : List (List Char) → Option Found
  | [] => some f
  | piece :: pieces => (fs.step? f piece).bind (fs.follow · pieces)

/-- Where what a path names is looked for. -/
def startOf (fs : FileSystem) (path : String) : Found :=
  if Path.isAbsolute path then ⟨"/", []⟩ else ⟨".", fs.workingDirectory⟩

/-- The files in a directory whose names end in a dot and an extension. -/
def filesAt (fs : FileSystem) (ext : String) (f : Found) : List String :=
  if fs.holdsDirectory f then
    (((fs.names f.place).filter fun n => ('.' :: ext.toList).isSuffixOf n.toList).map
      f.next).filter fs.isFile
  else []

namespace WellFormed

variable (hfs : fs.WellFormed)

include hfs

/-- Of the names in a directory a part for a piece matches that one, if it is there. -/
theorem filter_hits_ofName (here : Location) (piece : List Char) :
    (fs.names here).filter (Part.ofName piece).hits =
      if String.ofList piece ∈ fs.names here then [String.ofList piece] else [] := by
  have hhits : ∀ n ∈ fs.names here, (Part.ofName piece).hits n = (n == String.ofList piece) := by
    intro n _
    rw [Bool.eq_iff_iff, Part.hits_ofName, beq_iff_eq, ← String.toList_inj, String.toList_ofList,
      eq_comm]
  rw [List.filter_congr hhits, List.filter_beq]
  split
  · rw [List.count_eq_one_of_mem (hfs.nodup_names here) ‹_›, List.replicate_one]
  · rw [List.count_eq_zero_of_not_mem ‹_›, List.replicate_zero]

theorem inside_step (f : Found) (piece : List Char) (rest : List Part) :
    fs.inside false f (Part.ofName piece :: rest) =
      (fs.step? f piece).elim [] (fs.inside false · rest) := by
  rw [step?]
  cases hplain : (Part.ofName piece).isPlain with
  | true =>
    rw [inside, hplain, if_pos rfl, if_pos rfl, Part.text_of_isPlain hplain]
    cases fs.piece? f (String.ofList piece) <;> rfl
  | false =>
    rw [if_neg Bool.false_ne_true]
    by_cases hf : fs.holdsDirectory f = true
    · rw [inside_eq_flatMap hf hplain (Part.isRecursive_ofName _) (dots_ofName hplain),
        hfs.filter_hits_ofName f.place piece]
      by_cases hmem : String.ofList piece ∈ fs.names f.place
      · rw [if_pos hmem, if_pos ⟨hf, hmem⟩, List.flatMap_singleton, Option.elim_some]
      · rw [if_neg hmem, if_neg fun h => hmem h.2, List.flatMap_nil, Option.elim_none]
    · rw [inside, hplain, if_neg Bool.false_ne_true, if_neg hf, if_neg fun h => hf h.1,
        Option.elim_none]

/-- The parts for some pieces lead to one place at most. -/
theorem inside_follow (f : Found) (pieces : List (List Char)) (rest : List Part) :
    fs.inside false f (pieces.map Part.ofName ++ rest) =
      (fs.follow f pieces).elim [] (fs.inside false · rest) := by
  induction pieces generalizing f with
  | nil => rfl
  | cons piece pieces ih =>
    rw [List.map_cons, List.cons_append, hfs.inside_step, follow]
    cases fs.step? f piece with
    | none => rfl
    | some g => exact ih g

/-- The files that a text for a directory leads to are those at the place that it leads to. -/
theorem filesWith_follow {dir : String} (hdir : dir ≠ "") {ext : String}
    (hext : ∀ c ∈ ext.toList, Wildcard.IsPlain c) :
    fs.filesWith dir ext = .ok ((fs.follow (fs.startOf dir)
      ((Wildcard.relative dir.toList).splitOn '/')).elim [] (fs.filesAt ext)) := by
  have hparts : (((Wildcard.relative dir.toList).splitOn '/').map Part.ofName ++
      [Part.endingIn ext.toList]).isEmpty = false := by simp
  simp only [filesWith, Wildcard.parse_endingIn hdir hext]
  refine congrArg Except.ok ?_
  rw [expand, hparts, if_neg Bool.false_ne_true]
  dsimp only
  rw [← startOf, hfs.inside_follow]
  cases fs.follow (fs.startOf dir) ((Wildcard.relative dir.toList).splitOn '/') with
  | none => rfl
  | some g =>
    rw [Option.elim_some, Option.elim_some, filesAt]
    split
    · rename_i hg
      rw [inside_endingIn hg, List.map_map]
      rfl
    · rename_i hg
      rw [inside_of_not_holdsDirectory hg]
      rfl

end WellFormed

/-! ### The files of a directory -/

/-- No directory has a name that the search for its files stumbles over. -/
theorem exists_filesWith (fs : FileSystem) {dir : String} (hdir : dir ≠ "") {ext : String}
    (hext : ∀ c ∈ ext.toList, Wildcard.IsPlain c) : ∃ files, fs.filesWith dir ext = .ok files := by
  rw [filesWith, Wildcard.parse_endingIn hdir hext]
  exact ⟨_, rfl⟩

theorem isPlain_of_mem_xml : ∀ c ∈ "xml".toList, Wildcard.IsPlain c := by simp [Wildcard.IsPlain]

/-- The paths of the entries of a directory whose names end in a dot and an extension. -/
def entriesWith (fs : FileSystem) (place : Location) (ext : String) : List String :=
  ((fs.names place).filter fun n => ('.' :: ext.toList).isSuffixOf n.toList).map
    fun n => absolutePath (place ++ [n])

namespace WellFormed

variable (hfs : fs.WellFormed)

include hfs

/-- A part for a name leads from a directory to the entry with that name. -/
theorem step?_at (hhere : fs.get? here = some .directory)
    (hnext : (fs.get? (here ++ [name])).isSome = true)
    (hlen : Text.byteCount (absolutePath (here ++ [name])).toList ≤ longestPath) :
    fs.step? (.at here) name.toList = some (.at (here ++ [name])) := by
  have hnames : ∀ n ∈ here ++ [name], IsName n := fun n hn => hfs.isName_of_get? hnext hn
  have hname : IsName name := hnames name (by simp)
  have hpath : (if Path.isHere (Found.at here).path = true then name
      else Path.join (Found.at here).path name) = absolutePath (here ++ [name]) :=
    congrArg Found.path (entry_at hnames)
  rw [step?, String.ofList_toList]
  split
  · have hdots : ¬ ((name = "." ∨ name = "..") ∧ (!fs.holdsDirectory (.at here)) = true) :=
      fun h => h.1.elim hname.ne_dot hname.ne_dots
    simp only [piece?, if_neg hdots, hpath, hfs.locate_absolutePath hnext hlen]
    rfl
  · rw [if_pos ⟨holdsDirectory_at hhere, mem_names_iff_isSome.2 hnext⟩, entry_at hnames]

/-- The parts for the names of a location lead to it. -/
theorem follow_at (names : Location) (here : Location)
    (h : (fs.get? (here ++ names)).isSome = true)
    (hlen : Text.byteCount (absolutePath (here ++ names)).toList ≤ longestPath) :
    fs.follow (.at here) (names.map String.toList) = some (.at (here ++ names)) := by
  induction names generalizing here with
  | nil => rw [List.append_nil]; rfl
  | cons name names ih =>
    have hsplit : here ++ name :: names = here ++ [name] ++ names := by simp
    rw [hsplit] at h hlen ⊢
    have hhere : fs.get? here = some .directory :=
      hfs.get?_of_append (hsplit ▸ h) (List.cons_ne_nil _ _)
    have hnext : (fs.get? (here ++ [name])).isSome = true := hfs.isSome_of_append h
    have hstep := hfs.step?_at hhere hnext (Nat.le_trans (byteCount_absolutePath_le _ _) hlen)
    rw [List.map_cons, follow, hstep, Option.bind_some, ih _ h hlen]

/-- The path of a directory from the root leads to it. -/
theorem follow_below (hplace : fs.get? place = some .directory)
    (hlen : Text.byteCount (absolutePath place).toList ≤ longestPath) :
    fs.follow (.at []) (Wildcard.below place) = some (.at place) := by
  rw [Wildcard.below]
  split
  · -- the only piece of the root is empty and is followed to the root itself
    rename_i hroot
    have hempty : fs.step? (.at []) [] = some (.at []) := rfl
    rw [follow, hempty, hroot]
    rfl
  · exact hfs.follow_at place [] (by rw [List.nil_append, hplace]; rfl) hlen

/-- The files of a directory with an extension are its entries with it that are files. -/
theorem filesWith_absolutePath (hplace : fs.get? place = some .directory)
    (hlen : Text.byteCount (absolutePath place).toList ≤ longestPath) {ext : String}
    (hext : ∀ c ∈ ext.toList, Wildcard.IsPlain c) :
    fs.filesWith (absolutePath place) ext = .ok ((fs.entriesWith place ext).filter fs.isFile) := by
  have hnames : ∀ n ∈ place, IsName n :=
    fun n hn => hfs.isName_of_get? (by rw [hplace]; rfl) hn
  have hstart : fs.startOf (absolutePath place) = .at [] := by
    rw [startOf, isAbsolute_absolutePath]
    rfl
  rw [hfs.filesWith_follow (absolutePath_ne_empty place) hext, hstart,
    Wildcard.splitOn_relative_absolutePath hnames, hfs.follow_below hplace hlen, Option.elim_some,
    filesAt, if_pos (holdsDirectory_at hplace), entriesWith]
  refine congrArg (fun found : List String => Except.ok (found.filter fs.isFile)) ?_
  refine List.map_congr_left fun n hn => congrArg Found.path (entry_at ?_)
  exact hfs.isName_of_mem_names (List.mem_filter.1 hn).1

theorem isDirectory_absolutePath (hplace : fs.get? place = some .directory)
    (hlen : Text.byteCount (absolutePath place).toList ≤ longestPath) :
    fs.isDirectory (absolutePath place) = true := by
  rw [isDirectory, hfs.find?_absolutePath (by rw [hplace]; rfl) hlen, hplace, decide_eq_true_eq]

/-- The documents of a directory, named by its path from the root, are the files in it whose names
end in the schema extension, in order. -/
theorem schemaFiles_absolutePath (hplace : fs.get? place = some .directory)
    (hlen : Text.byteCount (absolutePath place).toList ≤ longestPath) :
    fs.schemaFiles (absolutePath place) = .ok ((fs.entriesWith place "xml").filter fs.isFile) := by
  rw [schemaFiles, if_pos (hfs.isDirectory_absolutePath hplace hlen),
    hfs.filesWith_absolutePath hplace hlen isPlain_of_mem_xml]

end WellFormed

/-! ### One directory -/

/-- A file system with some text files in its working directory and nothing else. -/
def oneDirectory (files : List (String × String)) : FileSystem where
  entries := (["w"], .directory) :: files.map fun f => (["w", f.1], .file f.2.toUTF8)
  workingDirectory := ["w"]

theorem keys_oneDirectory (files : List (String × String)) :
    (oneDirectory files).entries.keys = ["w"] :: (files.map Prod.fst).map fun n => ["w", n] := by
  simp [oneDirectory, Table.keys]

theorem wellFormed_oneDirectory {files : List (String × String)}
    (hnodup : (files.map Prod.fst).Nodup) (hnames : ∀ f ∈ files, IsName f.1) :
    (oneDirectory files).WellFormed where
  nodup := by
    rw [keys_oneDirectory, List.nodup_cons]
    exact ⟨by simp, hnodup.map fun n n' h => by simpa using h⟩
  isName := by
    have hw : IsName "w" := by decide
    intro place hplace n hn
    rcases List.mem_cons.1 hplace with rfl | hplace
    · exact List.mem_singleton.1 hn ▸ hw
    · obtain ⟨e, he, rfl⟩ := List.mem_map.1 hplace
      obtain ⟨f, hf, rfl⟩ := List.mem_map.1 he
      rcases List.mem_cons.1 hn with rfl | hn
      · exact hw
      · exact List.mem_singleton.1 hn ▸ hnames f hf
  parent := by
    intro place hplace
    rcases List.mem_cons.1 hplace with rfl | hplace
    · exact ⟨List.cons_ne_nil _ _, rfl⟩
    · obtain ⟨e, he, rfl⟩ := List.mem_map.1 hplace
      obtain ⟨f, -, rfl⟩ := List.mem_map.1 he
      exact ⟨List.cons_ne_nil _ _, rfl⟩
  workingDirectory := rfl

theorem names_oneDirectory {files : List (String × String)}
    (hsorted : (files.map Prod.fst).Pairwise fun a b => Text.ordered a b = true) :
    (oneDirectory files).names ["w"] = files.map Prod.fst := by
  have hnames : (oneDirectory files).entries.keys.filterMap (nameIn ["w"]) =
      files.map Prod.fst := by
    rw [keys_oneDirectory, List.filterMap_cons_none (by decide), List.filterMap_map]
    have hname : nameIn ["w"] ∘ (fun n => ["w", n]) = some :=
      funext fun n => nameIn_eq_some_iff.2 rfl
    rw [hname, List.filterMap_some]
  rw [names, hnames, List.mergeSort_of_pairwise hsorted]

end FileSystem

end TypeCorpus
