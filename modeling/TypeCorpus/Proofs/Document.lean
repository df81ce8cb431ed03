import TypeCorpus.Proofs.Command.Account
import TypeCorpus.Proofs.Registry.History
import TypeCorpus.Proofs.Topic.Collection

/-! The two views of a document. It is read twice: once for its declarations, which go into a
registry under their full names, and once for its structures, which are sampled and published under
a name and a path apart. Both readings come to the same structures in the same order, and the parts
of a name join to the full one. So registering a document writes the listed structures under the
names that their samples are looked up by, the last of a name over those before it, and what is
published are the listed structures that some named module encloses. -/

namespace TypeCorpus

open Xml (Element)

namespace Schema

/-! ### Listed structures and their spots -/

/-- One of the elements around a spot is a module with a name. -/
def Spot.InModule (s : Spot) : Prop :=
  ∃ e ∈ s.around, e.tag = "module" ∧ (e.attr? "name").isSome = true

instance (s : Spot) : Decidable s.InModule :=
  inferInstanceAs (Decidable (∃ e ∈ s.around, e.tag = "module" ∧ (e.attr? "name").isSome = true))

/-- The element at a spot declares a structure, which is listed with its name and path apart. -/
structure Spot.Lists (s : Spot) (q : QualifiedName) (decl : StructDecl) : Prop where
  declares : s.Declares (.struct decl)
  named : s.element.attr? "name" = some q.name
  scope_eq : q.scope = scopeOf (modulePath s.around)

theorem Spot.inModule_iff {s : Spot} : s.InModule ↔ modulePath s.around ≠ [] := by
  simp only [InModule, modulePath, ne_eq, List.filterMap_eq_nil_iff, List.mem_filter,
    decide_eq_true_eq, not_forall, Option.isSome_iff_ne_none]
  exact ⟨fun ⟨e, he, htag, hname⟩ => ⟨e, ⟨he, htag⟩, hname⟩,
    fun ⟨e, ⟨he, htag⟩, hname⟩ => ⟨e, he, htag, hname⟩⟩

theorem Spot.Lists.tag_eq {s : Spot} {q : QualifiedName} {decl : StructDecl} (h : s.Lists q decl) :
    s.element.tag = "struct" := by
  cases h.declares with
  | struct tag _ _ => exact tag

/-- A listed structure has a path exactly if it lies in a module with a name. -/
theorem Spot.Lists.isSome_scope_iff {s : Spot} {q : QualifiedName} {decl : StructDecl}
    (h : s.Lists q decl) : q.scope.isSome = true ↔ s.InModule := by
  rw [Spot.inModule_iff, h.scope_eq]
  cases modulePath s.around <;> simp [scopeOf]

/-- The structure that is listed for the element at a spot. -/
def structAt? (s : Spot) : Option (QualifiedName × StructDecl) :=
  struct? (scopeOf (modulePath s.around)) s.element

theorem lists_of_structAt? {s : Spot} {q : QualifiedName} {decl : StructDecl}
    (h : structAt? s = some (q, decl)) : s.Lists q decl := by
  have hdeclared : (declaration? (scopeOf (modulePath s.around)) s.element).bind
      Declaration.struct? = some decl := by
    rw [← map_snd_struct?]
    exact congrArg (Option.map Prod.snd) h
  obtain ⟨d, hd, hstruct⟩ := Option.bind_eq_some_iff.1 hdeclared
  rw [Declaration.struct?_eq_some_iff.1 hstruct] at hd
  obtain ⟨-, name, hname, rfl, -⟩ := struct?_eq_some_iff.1 h
  exact ⟨s.declares_of_declaration? hd, hname, scope_ofScope (empty_notMem_modulePath _) name⟩

/-- The listed structures with their spots. -/
def listing (root : Element) : List (Spot × QualifiedName × StructDecl) :=
  (spots (typesRoot root)).filterMap fun s => (structAt? s).map (s, ·)

theorem map_snd_listing (root : Element) : (listing root).map Prod.snd = structs root := by
  rw [listing, List.map_filterMap, structs_eq_filterMap_spots]
  refine List.filterMap_congr fun s _ => ?_
  rw [Option.map_map]
  exact Option.map_id'

theorem pairwise_listing (root : Element) :
    (listing root).Pairwise fun row row' => row.1.place < row'.1.place := by
  refine List.pairwise_filterMap.2 ((pairwise_spots (typesRoot root)).imp ?_)
  intro s s' hplace row hrow row' hrow'
  obtain ⟨-, -, rfl⟩ := Option.map_eq_some_iff.1 hrow
  obtain ⟨-, -, rfl⟩ := Option.map_eq_some_iff.1 hrow'
  exact hplace

theorem lists_of_mem_listing {root : Element} {row : Spot × QualifiedName × StructDecl}
    (h : row ∈ listing root) : Lies (typesRoot root) row.1 ∧ row.1.Lists row.2.1 row.2.2 := by
  obtain ⟨s, hs, hrow⟩ := List.mem_filterMap.1 h
  obtain ⟨⟨q, decl⟩, hstruct, rfl⟩ := Option.map_eq_some_iff.1 hrow
  exact ⟨(mem_spots_iff _ _).1 hs, lists_of_structAt? hstruct⟩

/-- Every structure element with a name has its row. -/
theorem exists_mem_listing_iff {root : Element} {s : Spot} :
    (∃ q decl, (s, q, decl) ∈ listing root) ↔ Lies (typesRoot root) s ∧
      s.element.tag = "struct" ∧ (s.element.attr? "name").isSome = true := by
  constructor
  · rintro ⟨q, decl, h⟩
    obtain ⟨hlies, hlists⟩ := lists_of_mem_listing h
    exact ⟨hlies, hlists.tag_eq, Option.isSome_iff_exists.2 ⟨q.name, hlists.named⟩⟩
  · rintro ⟨hlies, htag, hname⟩
    obtain ⟨name, hname⟩ := Option.isSome_iff_exists.1 hname
    obtain ⟨⟨q, decl⟩, hstruct⟩ : ∃ listed, structAt? s = some listed :=
      ⟨_, struct?_eq_some_iff.2 ⟨htag, name, hname, rfl, rfl⟩⟩
    exact ⟨q, decl, List.mem_filterMap.2 ⟨s, (mem_spots_iff _ _).2 hlies, by rw [hstruct]; rfl⟩⟩

end Schema

open Schema (Lies Spot typesRoot)

namespace Document

variable {d : Document}

/-- Topics are published for the rows in a module. -/
theorem topics_eq_filter_listing (d : Document) :
    d.topics = ((Schema.listing d.root).filter (·.1.InModule)).map (⟨·.2.1⟩) := by
  rw [topics, structs, ← Schema.map_snd_listing, List.filter_map, List.map_map]
  refine congrArg (List.map _) (List.filter_congr fun row hrow => ?_)
  rw [Bool.eq_iff_iff, decide_eq_true_iff]
  exact (Schema.lists_of_mem_listing hrow).2.isSome_scope_iff

/-! ### Registered documents -/

theorem map_registration_struct? (ds : List Declaration) :
    (ds.map Declaration.registration).filterMap Registration.struct? =
      (ds.filterMap Declaration.struct?).map fun decl => (decl.name, decl) := by
  rw [List.filterMap_map, List.map_filterMap]
  refine List.filterMap_congr fun d _ => ?_
  cases d <;> rfl

/-- Registering a document writes the listed structures, in order, under their full names. -/
theorem structs_registerAll (r : Registry) (d : Document) :
    (r.registerAll d.declarations).structs =
      r.structs.extend (d.structs.map fun s => (s.1.qualified, s.2)) := by
  have hnames : d.structs.map (fun s => (s.1.qualified, s.2)) =
      (d.structs.map Prod.snd).map fun decl => (decl.name, decl) := by
    rw [List.map_map]
    refine List.map_congr_left fun s hs => ?_
    rw [Schema.qualified_of_mem_structs hs, Function.comp_apply]
  rw [Registry.registerAll_eq_enterAll, Registry.enterAll_eq, map_registration_struct?, hnames,
    structs, Schema.map_snd_structs]
  rfl

/-- The last structure that a document lists under a name. -/
def ListsLast (d : Document) (name : String) (decl : StructDecl) : Prop :=
  ∃ front q back, d.structs = front ++ (q, decl) :: back ∧ q.qualified = name ∧
    ∀ s ∈ back, s.1.qualified ≠ name

/-- Whatever it is registered into, each listed structure stands under its full name as the last
that the document lists with that name. -/
theorem exists_get?_registerAll (r : Registry) {s : QualifiedName × StructDecl}
    (h : s ∈ d.structs) : ∃ decl, d.ListsLast s.1.qualified decl ∧
      (r.registerAll d.declarations).structs.get? s.1.qualified = some decl := by
  obtain ⟨front, ⟨q, decl⟩, back, hstructs, hq, hback, hlast⟩ :=
    Table.exists_last (fun s : QualifiedName × StructDecl => (s.1.qualified, s.2))
      (List.mem_map_of_mem h)
  refine ⟨decl, ⟨front, q, back, hstructs, hq, hback⟩, ?_⟩
  rw [structs_registerAll, Table.get?_extend, hlast, Option.some_or]

/-- The structures of a document are the structures among its declarations, in the same order, and
the parts of their names join to the names they are declared under, which are also what is shown and
what a sample is looked up by. After the document is registered, whatever was registered before,
each stands under that name as the last of the document with it. Each is listed for the structure
element with a name at one spot, in the order of the spots, and the topics are those at spots in a
module with a name. -/
theorem views_agree (d : Document) :
    d.structs.map Prod.snd = d.declarations.filterMap Declaration.struct? ∧
    (∀ s ∈ d.structs, s.1.qualified = s.2.name ∧ s.1.display = s.2.name) ∧
    (∀ (r : Registry), ∀ s ∈ d.structs,
      (SampleCommand.sample r s.1).value = (r.sample s.2.name false).value ∧
      ∃ decl, d.ListsLast s.2.name decl ∧
        (r.registerAll d.declarations).structs.get? s.2.name = some decl) ∧
    ∃ rows : List (Spot × QualifiedName × StructDecl), rows.map Prod.snd = d.structs ∧
      (rows.Pairwise fun row row' => row.1.place < row'.1.place) ∧
      (∀ row ∈ rows, row.1.Lists row.2.1 row.2.2) ∧
      (∀ s, (∃ q decl, (s, q, decl) ∈ rows) ↔ Lies (typesRoot d.root) s ∧
        s.element.tag = "struct" ∧ (s.element.attr? "name").isSome = true) ∧
      d.topics = (rows.filter (·.1.InModule)).map (⟨·.2.1⟩) := by
  have hname : ∀ s ∈ d.structs, s.1.qualified = s.2.name :=
    fun s hs => Schema.qualified_of_mem_structs hs
  refine ⟨Schema.map_snd_structs d.root, fun s hs => ⟨hname s hs, ?_⟩, fun r s hs => ?_,
    Schema.listing d.root, Schema.map_snd_listing d.root, Schema.pairwise_listing d.root,
    fun row hrow => (Schema.lists_of_mem_listing hrow).2, fun s => Schema.exists_mem_listing_iff,
    topics_eq_filter_listing d⟩
  · rw [QualifiedName.display_eq_qualified, hname s hs]
  · rw [SampleCommand.value_sample, ← hname s hs]
    exact ⟨rfl, exists_get?_registerAll r hs⟩

end Document

end TypeCorpus
