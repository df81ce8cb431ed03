import Mathlib.Data.List.Nodup
import TypeCorpus.Proofs.First
import TypeCorpus.Proofs.Schema

/-! Topics of documents. A property of paths that every element hands on from its own path to the
path inside it holds of all paths in a tree; so where modules and structures have identifiers for
names, every topic is a module's identifier and a structure's. The topics of a directory are topics
of its documents, and no two of them have one name. -/

namespace TypeCorpus

open Xml (Element)

namespace Schema

variable {P : Option String → Prop}

mutual

/-- What each visited element hands on to the path inside it holds of every path. -/
theorem forall_scope_of_visits {scope : Option String} (hscope : P scope) (e : Element)
    (hstep : ∀ v ∈ visits scope e, P v.1 → P (innerScope v.1 v.2)) :
    ∀ v ∈ visits scope e, P v.1 := by
  obtain ⟨tag, attributes, children⟩ := e
  intro v hv
  rcases List.mem_cons.1 hv with rfl | hv
  · exact hscope
  · exact forall_scope_of_visitsAll (hstep _ List.mem_cons_self hscope) children
      (fun u hu => hstep u (List.mem_cons_of_mem _ hu)) v hv

theorem forall_scope_of_visitsAll {scope : Option String} (hscope : P scope) (es : List Element)
    (hstep : ∀ v ∈ visitsAll scope es, P v.1 → P (innerScope v.1 v.2)) :
    ∀ v ∈ visitsAll scope es, P v.1 := by
  cases es with
  | nil => intro v hv; cases hv
  | cons e es =>
    intro v hv
    rcases List.mem_append.1 hv with hv | hv
    · exact forall_scope_of_visits hscope e
        (fun u hu => hstep u (List.mem_append_left _ hu)) v hv
    · exact forall_scope_of_visitsAll hscope es
        (fun u hu => hstep u (List.mem_append_right _ hu)) v hv

end

/-- A path, if there is one, ends in the identifier of a module. -/
def EndsInIdentifier (scope : Option String) : Prop :=
  ∀ path, scope = some path → Name.IsIdentifier (Name.short path)

theorem endsInIdentifier_none : EndsInIdentifier none := by
  intro path h
  cases h

theorem EndsInIdentifier.innerScope {scope : Option String} (h : EndsInIdentifier scope)
    {e : Element}
    (he : e.tag = "module" → ∀ name, e.attr? "name" = some name → Name.IsIdentifier name) :
    EndsInIdentifier (innerScope scope e) := by
  rw [Schema.innerScope]
  split
  · rename_i htag
    cases hname : e.attr? "name" with
    | none => exact h
    | some name =>
      have hid : Name.IsIdentifier name := he htag name hname
      intro path hpath
      rw [← Option.some.inj hpath, Name.short_inScope scope hid.colon_notMem]
      exact hid
  · exact h

end Schema

/-- The modules and structures of a document have identifiers for names, if any. -/
def Document.HasIdentifiers (d : Document) : Prop :=
  ∀ v ∈ Schema.visits none (Schema.typesRoot d.root), v.2.tag = "module" ∨ v.2.tag = "struct" →
    ∀ name, v.2.attr? "name" = some name → Name.IsIdentifier name

instance (d : Document) : Decidable d.HasIdentifiers :=
  inferInstanceAs (Decidable (∀ v ∈ Schema.visits none (Schema.typesRoot d.root),
    v.2.tag = "module" ∨ v.2.tag = "struct" →
      ∀ name ∈ v.2.attr? "name", Name.IsIdentifier name))

namespace Topic

/-- The identifiers that a topic is made of: a module's and a structure's. -/
structure Joins (t : Topic) (module struct : String) : Prop where
  module_isIdentifier : Name.IsIdentifier module
  struct_isIdentifier : Name.IsIdentifier struct
  innermost_eq : t.name.innermost = some module
  name_eq : t.name.name = struct

theorem exists_joins {d : Document} (hd : d.HasIdentifiers) {t : Topic} (ht : t ∈ d.topics) :
    ∃ module struct, t.Joins module struct := by
  obtain ⟨⟨q, decl⟩, hq, rfl⟩ := List.mem_map.1 ht
  obtain ⟨hs, hscope⟩ := List.mem_filter.1 hq
  obtain ⟨⟨scope, e⟩, hv, hstruct⟩ := List.mem_filterMap.1 hs
  have hends : Schema.EndsInIdentifier scope :=
    Schema.forall_scope_of_visits Schema.endsInIdentifier_none _
      (fun v hv h => h.innerScope fun htag => hd v hv (.inl htag)) _ hv
  obtain ⟨htag, name, hname, rfl, -⟩ := Schema.struct?_eq_some_iff.1 hstruct
  obtain ⟨path, hpath⟩ := Option.isSome_iff_exists.1 hscope
  have hfilter : scope.filter (· ≠ "") = some path := hpath
  have hsome : scope = some path := (Option.filter_eq_some_iff.1 hfilter).1
  exact ⟨Name.short path, name, hends path hsome, hd _ hv (.inr htag) name hname,
    congrArg (Option.map Name.short) hpath, rfl⟩

variable {t u : Topic} {m s m' s' : String}

theorem Joins.logical_eq (h : t.Joins m s) : t.name.logical = Name.inScope (some m) s := by
  rw [QualifiedName.logical, h.innermost_eq, h.name_eq]

theorem Joins.toList_apiSuffix (h : t.Joins m s) :
    t.apiSuffix.toList = m.toList ++ '_' :: s.toList := by
  rw [apiSuffix, h.logical_eq, Name.toList_flatten_inScope _ h.module_isIdentifier.ne_empty
    h.module_isIdentifier.colon_notMem h.struct_isIdentifier.colon_notMem]
  simp

/-! ### The topics of a directory -/

theorem sorted_perm (ts : List Topic) : (sorted ts).Perm ts := List.mergeSort_perm ts _

end Topic

namespace FileSystem

variable {fs : FileSystem} {t : Topic}

theorem mem_allTopics {paths : List String} : t ∈ (fs.allTopics paths).value ↔
    ∃ path ∈ paths, ∃ d, fs.loadDocument path = .ok d ∧ t ∈ d.topics := by
  induction paths with
  | nil => simp [allTopics]
  | cons path paths ih =>
    cases hload : fs.loadDocument path with
    | ok d => simp [allTopics, hload, ih]
    | error e => simp [allTopics, hload, ih]

/-- No two topics of a directory have one name. -/
theorem nodup_topicNames_collectTopics {dir : String} {topics : Traced Event (List Topic)}
    (h : fs.collectTopics dir = .ok topics) : (topics.value.map Topic.topicName).Nodup := by
  simp only [collectTopics] at h
  split at h
  · cases h
    rw [Traced.value_map, ((Topic.sorted_perm _).map _).nodup_iff, Topic.distinct_eq_firsts]
    exact nodup_map_firsts _ _ _
  · cases h

/-- The topics of a directory are topics of its documents. -/
theorem exists_of_mem_collectTopics {dir : String} {topics : Traced Event (List Topic)}
    (h : fs.collectTopics dir = .ok topics) (ht : t ∈ topics.value) :
    ∃ files, fs.schemaFiles dir = .ok files ∧
      ∃ path ∈ files, ∃ d, fs.loadDocument path = .ok d ∧ t ∈ d.topics := by
  simp only [collectTopics] at h
  split at h
  · rename_i files hfiles
    cases h
    rw [Traced.value_map, (Topic.sorted_perm _).mem_iff, Topic.distinct_eq_firsts] at ht
    exact ⟨files, hfiles, mem_allTopics.1 ((firsts_sublist _ _ _).subset ht)⟩
  · cases h

end FileSystem

end TypeCorpus
