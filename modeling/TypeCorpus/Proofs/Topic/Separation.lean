import TypeCorpus.Proofs.Command.Account
import TypeCorpus.Proofs.Topic
import TypeCorpus.Text.Word

/-! Names that stay apart when they are joined. A module's name and a structure's are flattened with
two underscores between them. Where the module's name has no two underscores in a row and none at
its end, they are the first two in a row of the whole, so both names can be read off it. Leaving out
topics by their names is then leaving them out by their logical names, and no sample takes the file
of a structure with another logical name. -/

namespace TypeCorpus

/-! ### Words -/

namespace Name

/-- A name of letters, digits and underscores. -/
structure IsWord (name : String) : Prop where
  ne_empty : name ≠ ""
  word : ∀ c ∈ name.toList, Text.isWord c = true

/-- A word in which no two underscores stand in a row, and none at the end. -/
structure IsModuleWord (name : String) : Prop extends IsWord name where
  underscores_notInfix : ¬ ['_', '_'] <:+: name.toList
  getLast?_ne : name.toList.getLast? ≠ some '_'

variable {module struct module' struct' : String}

theorem isForbidden_of_isWord {c : Char} (h : Text.isWord c = true) : isForbidden c = false := by
  rw [← Bool.not_eq_true]
  intro hc
  have hnone : ['<', '>', ':', '"', '/', '\\', '|', '?', '*', ' '].any Text.isWord = false := by
    decide
  have hany : ['<', '>', ':', '"', '/', '\\', '|', '?', '*', ' '].any Text.isWord = true :=
    List.any_eq_true.2 ⟨c, List.contains_iff_mem.1 hc, h⟩
  cases hnone.symm.trans hany

theorem IsWord.colon_notMem (h : IsWord struct) : ':' ∉ struct.toList :=
  fun hc => absurd (isForbidden_of_isWord (h.word _ hc)) (by decide)

/-- Two underscores that follow on a part end it, where it has no two in a row and none at its
end. -/
theorem eq_nil_of_underscores {a k s t : List Char} (ha : ¬ ['_', '_'] <:+: a ++ k)
    (hlast : (a ++ k).getLast? ≠ some '_') (h : '_' :: '_' :: s = k ++ '_' :: '_' :: t) :
    k = [] := by
  match k with
  | [] => rfl
  | [c] =>
    rw [← (List.cons.inj h).1, List.getLast?_concat] at hlast
    exact absurd rfl hlast
  | c :: d :: k =>
    obtain ⟨hc, hd, -⟩ : '_' = c ∧ '_' = d ∧ s = k ++ '_' :: '_' :: t := by simpa using h
    subst hc hd
    exact absurd ⟨a, k, by simp⟩ ha

theorem append_underscores_inj {a b s t : List Char} (ha : ¬ ['_', '_'] <:+: a)
    (ha' : a.getLast? ≠ some '_') (hb : ¬ ['_', '_'] <:+: b) (hb' : b.getLast? ≠ some '_')
    (h : a ++ '_' :: '_' :: s = b ++ '_' :: '_' :: t) : a = b ∧ s = t := by
  rcases List.append_eq_append_iff.1 h with ⟨k, rfl, hk⟩ | ⟨k, rfl, hk⟩
  · obtain rfl := eq_nil_of_underscores hb hb' hk
    exact ⟨(List.append_nil a).symm, by simpa using hk⟩
  · obtain rfl := eq_nil_of_underscores ha ha' hk
    exact ⟨List.append_nil b, by simpa [eq_comm] using hk⟩

theorem toList_flatten_word (hm : IsWord module) (hs : IsWord struct) :
    (flatten "__" (inScope (some module) struct)).toList =
      module.toList ++ '_' :: '_' :: struct.toList := by
  rw [toList_flatten_inScope _ hm.ne_empty hm.colon_notMem hs.colon_notMem]
  simp

/-- The names of a module and of a structure in it can be read off the flattened name. -/
theorem flatten_word_inj (hm : IsModuleWord module) (hs : IsWord struct)
    (hm' : IsModuleWord module') (hs' : IsWord struct')
    (h : flatten "__" (inScope (some module) struct) =
      flatten "__" (inScope (some module') struct')) : module = module' ∧ struct = struct' := by
  have hlist := congrArg String.toList h
  rw [toList_flatten_word hm.toIsWord hs, toList_flatten_word hm'.toIsWord hs'] at hlist
  obtain ⟨hmodule, hstruct⟩ := append_underscores_inj hm.underscores_notInfix hm.getLast?_ne
    hm'.underscores_notInfix hm'.getLast?_ne hlist
  exact ⟨String.toList_inj.1 hmodule, String.toList_inj.1 hstruct⟩

/-- No character of a flattened word is kept out of file names. -/
theorem sanitized_flatten_word (hm : IsWord module) (hs : IsWord struct) :
    sanitized (flatten "__" (inScope (some module) struct)) =
      flatten "__" (inScope (some module) struct) := by
  have hplain : ∀ c ∈ (flatten "__" (inScope (some module) struct)).toList,
      isForbidden c = false := by
    rw [toList_flatten_word hm hs]
    intro c hc
    simp only [List.mem_append, List.mem_cons] at hc
    rcases hc with hc | rfl | rfl | hc
    · exact isForbidden_of_isWord (hm.word c hc)
    · decide
    · decide
    · exact isForbidden_of_isWord (hs.word c hc)
  rw [← String.toList_inj, toList_sanitized]
  refine (List.map_congr_left fun c hc => ?_).trans (List.map_id _)
  rw [hplain c hc]
  rfl

end Name

/-! ### Structures in modules -/

namespace QualifiedName

/-- The name of a structure in a module, with the modules around that one. -/
def inModule (outer : Option String) (module struct : String) : QualifiedName :=
  .ofScope (some (Name.inScope outer module)) struct

/-- The name of a structure in a module can be told from its flattened logical name. -/
def Separable (q : QualifiedName) : Prop :=
  ∃ outer module struct, Name.IsModuleWord module ∧ Name.IsWord struct ∧
    q = inModule outer module struct

variable {q q' : QualifiedName} {module struct module' struct' : String}

theorem logical_inModule (outer : Option String) (hm : Name.IsWord module) (struct : String) :
    (inModule outer module struct).logical = Name.inScope (some module) struct := by
  have hne : Name.inScope outer module ≠ "" := by
    intro h
    have hshort := Name.short_inScope outer hm.colon_notMem
    rw [h] at hshort
    exact hm.ne_empty (hshort.symm.trans (by decide))
  have hscope : (inModule outer module struct).scope = some (Name.inScope outer module) := by
    simp [inModule, ofScope, Option.filter, hne]
  rw [logical, innermost, hscope, Option.map_some, Name.short_inScope outer hm.colon_notMem]
  rfl

/-- Separable names with one flattened logical name have one logical name. -/
theorem Separable.flatten_eq_iff (h : q.Separable) (h' : q'.Separable) :
    Name.flatten "__" q.logical = Name.flatten "__" q'.logical ↔ q.logical = q'.logical := by
  refine ⟨fun heq => ?_, congrArg _⟩
  obtain ⟨outer, m, s, hm, hs, rfl⟩ := h
  obtain ⟨outer', m', s', hm', hs', rfl⟩ := h'
  rw [logical_inModule outer hm.toIsWord, logical_inModule outer' hm'.toIsWord] at heq ⊢
  obtain ⟨rfl, rfl⟩ := Name.flatten_word_inj hm hs hm' hs' heq
  rfl

theorem Separable.sampleFileName_eq (h : q.Separable) :
    sampleFileName q.logical = Name.flatten "__" q.logical ++ ".json" := by
  obtain ⟨outer, m, s, hm, hs, rfl⟩ := h
  rw [sampleFileName, logical_inModule outer hm.toIsWord,
    Name.sanitized_flatten_word hm.toIsWord hs]

theorem Separable.sampleFileName_eq_iff (h : q.Separable) (h' : q'.Separable) :
    sampleFileName q.logical = sampleFileName q'.logical ↔ q.logical = q'.logical := by
  rw [h.sampleFileName_eq, h'.sampleFileName_eq, String.append_left_inj, h.flatten_eq_iff h']

/-- The logical name tells the module and the structure. -/
theorem logical_inModule_eq_iff {outer outer' : Option String} (hm : Name.IsModuleWord module)
    (hs : Name.IsWord struct) (hm' : Name.IsModuleWord module') (hs' : Name.IsWord struct') :
    (inModule outer module struct).logical = (inModule outer' module' struct').logical ↔
      module = module' ∧ struct = struct' := by
  rw [logical_inModule outer hm.toIsWord, logical_inModule outer' hm'.toIsWord]
  refine ⟨fun h => Name.flatten_word_inj hm hs hm' hs' (congrArg _ h), ?_⟩
  rintro ⟨rfl, rfl⟩
  rfl

end QualifiedName

open QualifiedName (inModule Separable)

/-- Two topics that lie in modules without underscores in a row or at the end have one name exactly
if their modules and structures have the same names, whatever is around the modules, and so have
the files of their samples. So topics are left out by their logical names, and the sample that a
file ends up with is that of the last structure with its logical name. -/
theorem flattened_names_apart :
    (∀ outer outer' module module' struct struct', Name.IsModuleWord module →
      Name.IsModuleWord module' → Name.IsWord struct → Name.IsWord struct' →
      (Topic.topicName ⟨inModule outer module struct⟩ =
          Topic.topicName ⟨inModule outer' module' struct'⟩ ↔
        module = module' ∧ struct = struct') ∧
      (sampleFileName (inModule outer module struct).logical =
          sampleFileName (inModule outer' module' struct').logical ↔
        module = module' ∧ struct = struct')) ∧
    (∀ ts : List Topic, (∀ t ∈ ts, t.name.Separable) →
      Topic.distinct [] ts = firsts (·.name.logical) [] ts) ∧
    ∀ (r : Registry) (out : Location) (fs : FileSystem) (front : List QualifiedName)
      (q : QualifiedName) (back : List QualifiedName),
      (∀ p ∈ q :: back, p.Separable) → q.logical ∉ back.map QualifiedName.logical →
      (SampleCommand.stored r out fs (front ++ q :: back)).get?
          (out ++ [SampleCommand.fileName q]) =
        some (.file (SampleCommand.content r q)) := by
  refine ⟨?_, fun ts hts => ?_, ?_⟩
  · intro outer outer' module module' struct struct' hm hm' hs hs'
    have hq : (inModule outer module struct).Separable := ⟨_, _, _, hm, hs, rfl⟩
    have hq' : (inModule outer' module' struct').Separable := ⟨_, _, _, hm', hs', rfl⟩
    rw [← QualifiedName.logical_inModule_eq_iff hm hs hm' hs']
    exact ⟨hq.flatten_eq_iff hq', hq.sampleFileName_eq_iff hq'⟩
  · rw [Topic.distinct_eq_firsts]
    refine firsts_eq_of_keys [] fun t ht u hu => (hts t ht).flatten_eq_iff (hts u ?_)
    simpa using hu
  · intro r out fs front q back hsep hlogical
    refine SampleCommand.get?_stored_append_cons fun hmem => hlogical ?_
    obtain ⟨p, hp, hname⟩ := List.mem_map.1 hmem
    have hq := hsep q List.mem_cons_self
    have hsame := ((hsep p (List.mem_cons_of_mem _ hp)).sampleFileName_eq_iff hq).1 hname
    exact List.mem_map.2 ⟨p, hp, hsame⟩

/-- Structures that begin with an underscore or not: it is the third in a row behind the module,
and outer modules do not show. -/
theorem flattened_names_apart_underscore :
    let p := inModule (some "O") "A_1" "_B__C"
    let q := inModule none "A_1" "_B__C"
    let q' := inModule none "A_1" "B__C"
    Name.IsModuleWord "A_1" ∧ Name.IsWord "_B__C" ∧ Name.IsWord "B__C" ∧
    Topic.topicName ⟨p⟩ = Topic.topicName ⟨q⟩ ∧ Topic.topicName ⟨q⟩ ≠ Topic.topicName ⟨q'⟩ ∧
    sampleFileName q.logical ≠ sampleFileName q'.logical ∧
    Topic.distinct [] [⟨p⟩, ⟨q⟩, ⟨q'⟩] = [⟨p⟩, ⟨q'⟩] ∧
    (SampleCommand.stored .empty ["o"] {} [p, q, q']).get? ["o", SampleCommand.fileName q] =
      some (.file (SampleCommand.content .empty q)) := by
  intro p q q'
  obtain ⟨hnames, hdistinct, hstored⟩ := flattened_names_apart
  have hm : Name.IsModuleWord "A_1" :=
    ⟨⟨by decide, List.all_eq_true.1 (by decide)⟩, by decide, by decide⟩
  have hs : Name.IsWord "_B__C" := ⟨by decide, List.all_eq_true.1 (by decide)⟩
  have hs' : Name.IsWord "B__C" := ⟨by decide, List.all_eq_true.1 (by decide)⟩
  have hp : p.Separable := ⟨_, _, _, hm, hs, rfl⟩
  have hq : q.Separable := ⟨_, _, _, hm, hs, rfl⟩
  have hq' : q'.Separable := ⟨_, _, _, hm, hs', rfl⟩
  have happart := hnames none none _ _ _ _ hm hm hs hs'
  refine ⟨hm, hs, hs', (hnames _ _ _ _ _ _ hm hm hs hs).1.2 ⟨rfl, rfl⟩,
    fun h => absurd (happart.1.1 h).2 (by decide), fun h => absurd (happart.2.1 h).2 (by decide),
    (hdistinct _ (by simp [hp, hq, hq'])).trans (by decide), ?_⟩
  exact hstored .empty ["o"] {} [p] q [q'] (by simp [hq, hq']) (by decide)

end TypeCorpus
