import TypeCorpus.Proofs.First
import TypeCorpus.Proofs.Scan
import TypeCorpus.Proofs.Schema
import TypeCorpus.Proofs.Topic

/-! The topics of a directory. A document publishes the structures that have a name and lie in a
module with a name, at whatever depth. Of the documents of a directory, in the order of their paths,
and of the structures of each, in the order of their places, the first with a topic's name is kept,
and what is kept is put in the order of the names. -/

namespace TypeCorpus

namespace Schema

/-- The element at a spot is a structure in a named module, published as a topic. -/
structure Spot.Publishes (s : Spot) (t : Topic) : Prop where
  tag : s.element.tag = "struct"
  named : s.element.attr? "name" = some t.name.name
  enclosed : modulePath s.around ≠ []
  scope_eq : t.name.scope = some ("::".intercalate (modulePath s.around))

/-- The topic that the element at a spot is published as. -/
def topicAt? (s : Spot) : Option Topic :=
  ((struct? (scopeOf (modulePath s.around)) s.element).filter (·.1.scope.isSome)).map (⟨·.1⟩)

theorem scopeOf_of_ne_nil {names : List String} (h : names ≠ []) :
    scopeOf names = some ("::".intercalate names) := by
  cases names with
  | nil => exact absurd rfl h
  | cons first names => rfl

/-- The scope of some modules is the path of a name in it. -/
theorem scope_ofScope {names : List String} (h : "" ∉ names) (name : String) :
    (QualifiedName.ofScope (scopeOf names) name).scope = scopeOf names := by
  cases names with
  | nil => rfl
  | cons first names =>
    have hfirst : first ≠ "" := fun hfirst => h (hfirst ▸ List.mem_cons_self)
    simp [QualifiedName.ofScope, scopeOf, Option.filter, intercalate_ne_empty hfirst names]

theorem topicAt?_eq_some_iff {s : Spot} {t : Topic} : topicAt? s = some t ↔ s.Publishes t := by
  have hscope := scope_ofScope (empty_notMem_modulePath s.around)
  rw [topicAt?, Option.map_eq_some_iff]
  constructor
  · rintro ⟨⟨q, decl⟩, h, rfl⟩
    obtain ⟨hstruct, hsome⟩ := Option.filter_eq_some_iff.1 h
    obtain ⟨htag, name, hname, rfl, -⟩ := struct?_eq_some_iff.1 hstruct
    rw [hscope] at hsome
    have henclosed : modulePath s.around ≠ [] := fun hnil => by
      rw [hnil] at hsome
      cases hsome
    exact ⟨htag, hname, henclosed, (hscope name).trans (scopeOf_of_ne_nil henclosed)⟩
  · rintro ⟨htag, hname, henclosed, hpath⟩
    have hnames : scopeOf (modulePath s.around) = t.name.scope :=
      (scopeOf_of_ne_nil henclosed).trans hpath.symm
    have hq : QualifiedName.ofScope (scopeOf (modulePath s.around)) t.name.name = t.name := by
      obtain ⟨⟨scope, name, hne⟩⟩ := t
      simpa [QualifiedName.ofScope, hnames] using (hscope name).trans hnames
    exact ⟨(t.name, structNamed (Name.inScope (scopeOf (modulePath s.around)) t.name.name)
      s.element), Option.filter_eq_some_iff.2
        ⟨struct?_eq_some_iff.2 ⟨htag, t.name.name, hname, hq.symm, rfl⟩, by rw [hpath]; rfl⟩, rfl⟩

theorem structs_eq_filterMap_spots (root : Xml.Element) :
    structs root = (spots (typesRoot root)).filterMap fun s =>
      struct? (scopeOf (modulePath s.around)) s.element := by
  have hvisits : visits none (typesRoot root) = _ := visits_eq_map_spots _ List.not_mem_nil
  rw [structs, hvisits, List.filterMap_map]
  rfl

end Schema

open Schema (Lies Spot spots typesRoot topicAt? topicAt?_eq_some_iff)

theorem Document.topics_eq_filterMap_spots (d : Document) :
    d.topics = (spots (typesRoot d.root)).filterMap topicAt? := by
  rw [topics, structs, Schema.structs_eq_filterMap_spots, List.filter_filterMap,
    List.map_filterMap]
  rfl

/-- A document publishes a topic at a spot. -/
def Document.PublishesAt (d : Document) (s : Spot) (t : Topic) : Prop :=
  Lies (typesRoot d.root) s ∧ s.Publishes t

theorem Document.mem_topics_iff {d : Document} {t : Topic} :
    t ∈ d.topics ↔ ∃ s, d.PublishesAt s t := by
  simp only [topics_eq_filterMap_spots, List.mem_filterMap, PublishesAt, Schema.mem_spots_iff,
    topicAt?_eq_some_iff]

/-- The first value that is selected from a list in strict order comes from the least entry. -/
theorem find?_filterMap_eq_some_iff {α β : Type} {R : α → α → Prop} {l : List α}
    (hl : l.Pairwise R) (hasymm : ∀ a b, R a b → ¬ R b a) {f : α → Option β} {p : β → Bool}
    {b : β} : (l.filterMap f).find? p = some b ↔
      ∃ a ∈ l, f a = some b ∧ p b = true ∧ ∀ a' ∈ l, R a' a → ∀ b', f a' = some b' → ¬ p b' := by
  rw [List.find?_filterMap, Option.bind_eq_some_iff]
  constructor
  · rintro ⟨a, ha, hb⟩
    obtain ⟨hp, front, back, rfl, hfront⟩ := List.find?_eq_some_iff_append.1 ha
    obtain ⟨-, hback, -⟩ := List.pairwise_append.1 hl
    rw [hb, Option.any_some] at hp
    refine ⟨a, by simp, hb, hp, fun a' ha' hlt b' hb' => ?_⟩
    rcases List.mem_append.1 ha' with ha' | ha'
    · simpa [hb'] using hfront a' ha'
    · rcases List.mem_cons.1 ha' with rfl | ha'
      · exact absurd hlt (hasymm _ _ hlt)
      · exact absurd hlt (hasymm _ _ (List.rel_of_pairwise_cons hback ha'))
  · rintro ⟨a, ha, hb, hp, hleast⟩
    obtain ⟨front, back, rfl⟩ := List.append_of_mem ha
    obtain ⟨-, -, hfront⟩ := List.pairwise_append.1 hl
    refine ⟨a, List.find?_eq_some_iff_append.2 ⟨by rw [hb, Option.any_some, hp], front, back, rfl,
      fun x hx => ?_⟩, hb⟩
    cases hfx : f x with
    | none => rfl
    | some c =>
      simpa using hleast x (List.mem_append_left _ hx) (hfront x hx a List.mem_cons_self) c hfx

namespace Topic

/-- A topic is the first with its name in some documents: no document before that which publishes it
has one, nor has that document at an earlier place. -/
structure FirstAt (before : List Document) (d : Document) (s : Spot) (t : Topic) : Prop where
  published : d.PublishesAt s t
  before_ne : ∀ d' ∈ before, ∀ s' t', d'.PublishesAt s' t' → t'.topicName ≠ t.topicName
  earlier_ne : ∀ s' t', d.PublishesAt s' t' → s'.place < s.place → t'.topicName ≠ t.topicName

/-- The first topic with its name in some documents. -/
def FirstIn (ds : List Document) (t : Topic) : Prop :=
  ∃ before d after s, ds = before ++ d :: after ∧ t.FirstAt before d s

/-- The first topic of a document with a name is that of the first spot. -/
theorem find?_topics_eq_some_iff {d : Document} {t : Topic} :
    d.topics.find? (fun u => u.topicName = t.topicName) = some t ↔
      ∃ s, d.PublishesAt s t ∧
        ∀ s' t', d.PublishesAt s' t' → s'.place < s.place → t'.topicName ≠ t.topicName := by
  rw [Document.topics_eq_filterMap_spots,
    find?_filterMap_eq_some_iff (Schema.pairwise_spots _) fun _ _ => List.lt_asymm]
  simp only [Document.PublishesAt, Schema.mem_spots_iff, topicAt?_eq_some_iff, decide_true,
    decide_eq_true_eq]
  constructor
  · rintro ⟨s, hs, ht, -, hleast⟩
    exact ⟨s, ⟨hs, ht⟩, fun s' t' h hlt => hleast s' h.1 hlt t' h.2⟩
  · rintro ⟨s, ⟨hs, ht⟩, hleast⟩
    exact ⟨s, hs, ht, trivial, fun s' hs' hlt t' ht' => hleast s' t' ⟨hs', ht'⟩ hlt⟩

theorem firstIn_iff {ds : List Document} {t : Topic} : t.FirstIn ds ↔
    (ds.flatMap Document.topics).find? (fun u => u.topicName = t.topicName) = some t := by
  have hnone : ∀ d : Document, d.topics.find? (fun u => u.topicName = t.topicName) = none ↔
      ∀ s' t', d.PublishesAt s' t' → t'.topicName ≠ t.topicName := by
    intro d
    simp only [List.find?_eq_none, Document.mem_topics_iff, decide_eq_true_eq]
    exact ⟨fun h s' t' ht' => h t' ⟨s', ht'⟩, fun h t' ⟨s', ht'⟩ => h s' t' ht'⟩
  rw [List.find?_flatMap, List.findSome?_eq_some_iff]
  simp only [find?_topics_eq_some_iff, hnone]
  constructor
  · rintro ⟨before, d, after, s, rfl, hfirst⟩
    exact ⟨before, d, after, rfl, ⟨s, hfirst.published, hfirst.earlier_ne⟩, hfirst.before_ne⟩
  · rintro ⟨before, d, after, rfl, ⟨s, hpublished, hearlier⟩, hbefore⟩
    exact ⟨before, d, after, s, rfl, hpublished, hbefore, hearlier⟩

/-- The first topic has a name that comes strictly before the other's. -/
def Before (t u : Topic) : Prop :=
  Text.ordered t.topicName u.topicName = true ∧ t.topicName ≠ u.topicName

/-- Topics with different names are put in strict order. -/
theorem pairwise_sorted {ts : List Topic} (h : (ts.map topicName).Nodup) :
    (sorted ts).Pairwise Before := by
  have htrans : ∀ t u v : Topic, Text.ordered t.topicName u.topicName = true →
      Text.ordered u.topicName v.topicName = true → Text.ordered t.topicName v.topicName = true :=
    fun _ _ _ => Text.notAfter_trans
  have htotal : ∀ t u : Topic,
      (Text.ordered t.topicName u.topicName || Text.ordered u.topicName t.topicName) = true :=
    fun _ _ => Text.notAfter_total _ _
  have hnames : ((sorted ts).map topicName).Nodup := ((sorted_perm ts).map _).nodup_iff.2 h
  exact (List.pairwise_mergeSort htrans htotal ts).and (List.pairwise_map.1 hnames)

end Topic

namespace FileSystem

variable {fs : FileSystem} {dir : String} {files : List String}

theorem value_allTopics (fs : FileSystem) (paths : List String) :
    (fs.allTopics paths).value = (fs.documentsAt paths).flatMap Document.topics := by
  induction paths with
  | nil => rfl
  | cons path paths ih =>
    cases h : fs.loadDocument path with
    | ok d => simp [allTopics, h, ih, (documentsAt_of_ok h paths).1]
    | error e => simp [allTopics, h, ih, (documentsAt_of_error h paths).1]

/-- The topics of a directory: the first with each name, in the order of the names. -/
def topicsOf (ds : List Document) : List Topic :=
  Topic.sorted (firsts Topic.topicName [] (ds.flatMap Document.topics))

theorem collectTopics_eq (hfiles : fs.schemaFiles dir = .ok files) :
    ∃ topics, fs.collectTopics dir = .ok topics ∧
      topics.value = topicsOf (fs.documentsAt files) := by
  refine ⟨_, by rw [collectTopics, hfiles], ?_⟩
  rw [Traced.value_map, value_allTopics, Topic.distinct_eq_firsts, topicsOf]

theorem mem_topicsOf_iff {ds : List Document} {t : Topic} : t ∈ topicsOf ds ↔ t.FirstIn ds := by
  rw [topicsOf, (Topic.sorted_perm _).mem_iff, mem_firsts_iff, Topic.firstIn_iff]
  exact and_iff_right List.not_mem_nil

theorem mem_topicNames_topicsOf_iff {ds : List Document} {name : String} :
    name ∈ (topicsOf ds).map Topic.topicName ↔
      ∃ d ∈ ds, ∃ s t, d.PublishesAt s t ∧ t.topicName = name := by
  rw [topicsOf, ((Topic.sorted_perm _).map _).mem_iff, mem_map_firsts_iff]
  simp only [List.not_mem_nil, not_false_eq_true, true_and, List.mem_map, List.mem_flatMap,
    Document.mem_topics_iff]
  constructor
  · rintro ⟨t, ⟨d, hd, s, hs⟩, rfl⟩
    exact ⟨d, hd, s, t, hs, rfl⟩
  · rintro ⟨d, hd, s, t, hs, rfl⟩
    exact ⟨t, ⟨d, hd, s, hs⟩, rfl⟩

/-- The topics of a directory that can be enumerated are in strict order of their names. They have
the names under which its documents publish structures, and each is the first with its name, in the
order of the documents' paths and of the places in a document. Files that are no documents make no
difference. -/
theorem collectTopics_firsts (hfiles : fs.schemaFiles dir = .ok files) :
    ∃ topics, fs.collectTopics dir = .ok topics ∧ topics.value.Pairwise Topic.Before ∧
      (∀ name, name ∈ topics.value.map Topic.topicName ↔
        ∃ d ∈ fs.documentsAt files, ∃ s t, d.PublishesAt s t ∧ t.topicName = name) ∧
      (∀ t, t ∈ topics.value ↔ t.FirstIn (fs.documentsAt files)) ∧
      (fs.WellFormed →
        (fs.documentsAt files).Pairwise (fun d d' => Path.Before d.path d'.path) ∧
        ∀ fs', fs'.WellFormed → SameDocuments fs fs' →
          ∃ topics', fs'.collectTopics dir = .ok topics' ∧ topics'.value = topics.value) := by
  obtain ⟨topics, htopics, hvalue⟩ := collectTopics_eq hfiles
  refine ⟨topics, htopics, ?_⟩
  rw [hvalue]
  refine ⟨Topic.pairwise_sorted (nodup_map_firsts _ _ _), fun name => mem_topicNames_topicsOf_iff,
    fun t => mem_topicsOf_iff,
    fun hfs => ⟨hfs.pairwise_documentsAt hfiles, fun fs' hfs' hsame => ?_⟩⟩
  obtain ⟨files', hfiles'⟩ := hsame.sameDirectories.exists_schemaFiles hfs hfs' hfiles
  obtain ⟨topics', htopics', hvalue'⟩ := collectTopics_eq hfiles'
  exact ⟨topics', htopics', by rw [hvalue', hsame.documentsAt_eq hfs hfs' hfiles hfiles']⟩

/-- A directory with two documents that publish one topic, at different depths, and files that break
off between them. -/
def sharedTopicBeside (broken : List (String × String)) : FileSystem :=
  .oneDirectory <|
    [("a.xml", "<types><struct name='Top'/><module name='M'><struct name='Z'/>" ++
      "<module name='N'><struct name='A'/></module></module></types>")] ++ broken ++
    [("c.xml", "<types><module name='P'><module name='N'><struct name='A'/></module>" ++
      "</module></types>")]

def sharedTopic : FileSystem :=
  sharedTopicBeside [("b.xml", "<types><module name='N'><struct name='A'/>")]

theorem wellFormed_sharedTopic : sharedTopic.WellFormed :=
  wellFormed_oneDirectory (by decide) (by decide)

theorem schemaFiles_sharedTopic :
    sharedTopic.schemaFiles "/w" = .ok ["/w/a.xml", "/w/b.xml", "/w/c.xml"] := by
  have hpath : absolutePath ["w"] = "/w" := by decide
  have hentries : sharedTopic.entriesWith ["w"] "xml" = ["/w/a.xml", "/w/b.xml", "/w/c.xml"] := by
    rw [entriesWith, sharedTopic, sharedTopicBeside, names_oneDirectory (by decide)]
    decide +kernel
  rw [← hpath, wellFormed_sharedTopic.schemaFiles_absolutePath rfl (by decide), hentries]
  decide +kernel

theorem sameDocuments_sharedTopic : SameDocuments sharedTopic (sharedTopicBeside []) := by
  have hread : String.fromUTF8? "<types><module name='N'><struct name='A'/>".toUTF8 =
      some "<types><module name='N'><struct name='A'/>" := by decide +kernel
  have hbroken : (Xml.Element.parse "<types><module name='N'><struct name='A'/>").toOption.isNone =
      true := by decide +kernel
  refine sameDocuments_of_broken ["w", "b.xml"] rfl rfl rfl (fun place hplace => ?_) hread
    (Option.isNone_iff_eq_none.1 hbroken)
  cases place with
  | nil => rfl
  | cons name rest =>
    simp [sharedTopic, sharedTopicBeside, get?, oneDirectory, Table.get?, Ne.symm hplace]

/-- The topic is that of the first document, and the structure outside of modules is none. Without
the file that breaks off the topics are the same. -/
theorem collectTopics_firsts_shared :
    sharedTopic.schemaFiles "/w" = .ok ["/w/a.xml", "/w/b.xml", "/w/c.xml"] ∧
    ∃ topics, sharedTopic.collectTopics "/w" = .ok topics ∧ topics.value.Pairwise Topic.Before ∧
      (∀ t, t ∈ topics.value ↔
        t.FirstIn (sharedTopic.documentsAt ["/w/a.xml", "/w/b.xml", "/w/c.xml"])) ∧
      topics.value.map Topic.typeName = ["M::Z", "M::N::A"] ∧
      ∃ topics', (sharedTopicBeside []).collectTopics "/w" = .ok topics' ∧
        topics'.value = topics.value := by
  obtain ⟨topics, htopics, hbefore, -, hfirst, hsame⟩ :=
    collectTopics_firsts schemaFiles_sharedTopic
  obtain ⟨topics', htopics', hvalue⟩ := collectTopics_eq schemaFiles_sharedTopic
  cases htopics.symm.trans htopics'
  let published : List Topic := [⟨.ofScope (some "M") "Z"⟩, ⟨.ofScope (some "M::N") "A"⟩,
    ⟨.ofScope (some "P::N") "A"⟩]
  have hpublished : (sharedTopic.documentsAt ["/w/a.xml", "/w/b.xml", "/w/c.xml"]).flatMap
      Document.topics = published := by decide +kernel
  have hsorted : (firsts Topic.topicName [] published).Pairwise
      fun t u => Text.ordered t.topicName u.topicName = true := by decide +kernel
  refine ⟨schemaFiles_sharedTopic, topics, htopics, hbefore, hfirst, ?_,
    (hsame wellFormed_sharedTopic).2 _ (wellFormed_oneDirectory (by decide) (by decide))
      sameDocuments_sharedTopic⟩
  rw [hvalue, topicsOf, hpublished, Topic.sorted, List.mergeSort_of_pairwise hsorted]
  decide +kernel

end FileSystem

end TypeCorpus
