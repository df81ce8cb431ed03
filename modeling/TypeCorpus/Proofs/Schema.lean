import Mathlib.Data.List.Forall2
import TypeCorpus.Document
import TypeCorpus.Proofs.Name

/-! Declarations by their place. An element has its place in a tree, by the numbers of the children
to go through, and the elements around it. The declarations of a document are those of the
elements that declare something, each once, in the order of their places; a declaration has the
names of the modules around its element before its own. The structures among them are those that
are listed with their names and paths apart. -/

namespace TypeCorpus

namespace Xml.Element

/-- An attribute that is there has a value. -/
theorem attr?_eq_some_iff {e : Element} {key value : String} :
    e.attr? key = some value ↔ e.attributes.lookup key = some value ∧ value ≠ "" := by
  simp [attr?, Option.filter_eq_some_iff]

theorem attr?_ne_empty (e : Element) (key : String) : e.attr? key ≠ some "" :=
  fun h => (attr?_eq_some_iff.1 h).2 rfl

end Xml.Element

/-- The structure that is declared, if it is one. -/
def Declaration.struct? : Declaration → Option StructDecl
  | struct decl => some decl
  | _ => none

theorem Declaration.struct?_eq_some_iff {d : Declaration} {decl : StructDecl} :
    d.struct? = some decl ↔ d = .struct decl := by
  cases d <;> simp [struct?]

namespace Schema

open Xml (Element)

/-! ### Places -/

/-- An element at a place of a tree, with the elements around it, the outermost first. -/
structure Spot where
  place : List Nat
  around : List Element
  element : Element

/-- The same spot, seen from an element that has the tree as a child. -/
def Spot.under (parent : Element) (i : Nat) (s : Spot) : Spot :=
  ⟨i :: s.place, parent :: s.around, s.element⟩

/-- The spots of a tree. -/
inductive Lies : Element → Spot → Prop
  | top (t : Element) : Lies t ⟨[], [], t⟩
  | deeper {t c : Element} {i : Nat} {s : Spot} (child : t.children[i]? = some c)
      (inside : Lies c s) : Lies t (s.under t i)

/-- The names of the modules among some elements; a nameless one has none. -/
def modulePath (around : List Element) : List String :=
  (around.filter (·.tag = "module")).filterMap (·.attr? "name")

/-- The name of a declaration: those of the modules around it, and its own. -/
def Spot.fullName (s : Spot) (name : String) : String :=
  "::".intercalate (modulePath s.around ++ [name])

/-- What a typedef element refers to. -/
inductive Refers (e : Element) : String → Prop
  | nonBasic {reference : String} (h : e.attr? "nonBasicTypeName" = some reference) :
      Refers e reference
  | basic {reference : String} (absent : e.attr? "nonBasicTypeName" = none)
      (h : e.attr? "type" = some reference) : Refers e reference

/-- The elements that declare something. -/
def Declaring (e : Element) : Prop :=
  e.tag ∈ ["typedef", "enum", "struct"] ∧ (∃ name, e.attr? "name" = some name) ∧
    (e.tag = "typedef" → ∃ reference, Refers e reference)

/-- The children of a kind that have a name. -/
def namedChildren (kind : Element → Bool) (e : Element) : List Element :=
  (e.children.filter kind).filter fun c => (c.attr? "name").isSome

/-- A member as its element has it. -/
structure Describes (c : Element) (m : Member) : Prop where
  name : c.attr? "name" = some m.name
  typeName : m.typeName = c.attr? "type"
  nonBasicTypeName : m.nonBasicTypeName = c.attr? "nonBasicTypeName"
  sequenceMaxLength : m.sequenceMaxLength = c.attr? "sequenceMaxLength"
  arrayDimensions : m.arrayDimensions = c.attr? "arrayDimensions"

/-- What the element at a spot declares. -/
inductive Spot.Declares (s : Spot) : Declaration → Prop
  | typedef {name reference : String} (tag : s.element.tag = "typedef")
      (named : s.element.attr? "name" = some name) (refers : Refers s.element reference) :
      Declares s (.typedef (s.fullName name) reference)
  | enum {name : String} {values : List String} (tag : s.element.tag = "enum")
      (named : s.element.attr? "name" = some name)
      (enumerators : List.Forall₂ (fun c value => c.attr? "name" = some value)
        (namedChildren isEnumerator s.element) values) :
      Declares s (.enum (s.fullName name) values)
  | struct {name : String} {members : List Member} (tag : s.element.tag = "struct")
      (named : s.element.attr? "name" = some name)
      (described : List.Forall₂ Describes (namedChildren isMember s.element) members) :
      Declares s (.struct
        { name := s.fullName name, baseType := s.element.attr? "baseType", members })

/-! ### The spots in order -/

mutual

/-- The spots of a tree in document order. -/
def spots : Element → List Spot
  | ⟨tag, attributes, children⟩ =>
    ⟨[], [], ⟨tag, attributes, children⟩⟩ :: spotsFrom ⟨tag, attributes, children⟩ 0 children

/-- The spots of some of the children of an element, by the number of the first. -/
def spotsFrom (parent : Element) (i : Nat) : List Element → List Spot
  | [] => []
  | c :: cs => (spots c).map (.under parent i) ++ spotsFrom parent (i + 1) cs

end

variable {t parent : Element} {s : Spot}

theorem lies_iff : Lies t s ↔ s = ⟨[], [], t⟩ ∨
    ∃ i c s', t.children[i]? = some c ∧ Lies c s' ∧ s = s'.under t i := by
  constructor
  · rintro (_ | ⟨child, inside⟩)
    · exact .inl rfl
    · exact .inr ⟨_, _, _, child, inside, rfl⟩
  · rintro (rfl | ⟨i, c, s', child, inside, rfl⟩)
    · exact .top t
    · exact .deeper child inside

mutual

theorem mem_spots_iff : ∀ (t : Element) (s : Spot), s ∈ spots t ↔ Lies t s
  | ⟨tag, attributes, children⟩, s => by
    rw [spots, List.mem_cons, mem_spotsFrom_iff, lies_iff]
    simp

theorem mem_spotsFrom_iff : ∀ (parent : Element) (i : Nat) (cs : List Element) (s : Spot),
    s ∈ spotsFrom parent i cs ↔
      ∃ j c s', cs[j]? = some c ∧ Lies c s' ∧ s = s'.under parent (i + j)
  | parent, i, [], s => by simp [spotsFrom]
  | parent, i, c :: cs, s => by
    rw [spotsFrom, List.mem_append, List.mem_map, mem_spotsFrom_iff]
    constructor
    · rintro (⟨s', hs', rfl⟩ | ⟨j, d, s', hd, hs', rfl⟩)
      · exact ⟨0, c, s', rfl, (mem_spots_iff c s').1 hs', rfl⟩
      · exact ⟨j + 1, d, s', hd, hs', by rw [Nat.add_right_comm, Nat.add_assoc]⟩
    · rintro ⟨j, d, s', hd, hs', rfl⟩
      cases j with
      | zero =>
        cases hd
        exact .inl ⟨s', (mem_spots_iff c s').2 hs', rfl⟩
      | succ j => exact .inr ⟨j, d, s', hd, hs', by rw [Nat.add_right_comm, Nat.add_assoc]⟩

end

mutual

theorem pairwise_spots : ∀ t : Element, (spots t).Pairwise fun s s' => s.place < s'.place
  | ⟨tag, attributes, children⟩ => by
    rw [spots, List.pairwise_cons]
    refine ⟨fun s hs => ?_, pairwise_spotsFrom _ 0 children⟩
    obtain ⟨j, c, s', -, -, rfl⟩ := (mem_spotsFrom_iff _ _ _ _).1 hs
    exact List.nil_lt_cons _ _

/-- The spots in one child come before those in the next. -/
theorem pairwise_spotsFrom : ∀ (parent : Element) (i : Nat) (cs : List Element),
    (spotsFrom parent i cs).Pairwise fun s s' => s.place < s'.place
  | parent, i, [] => .nil
  | parent, i, c :: cs => by
    rw [spotsFrom, List.pairwise_append, List.pairwise_map]
    refine ⟨(pairwise_spots c).imp fun h => List.cons_lt_cons_iff.2 (.inr ⟨rfl, h⟩),
      pairwise_spotsFrom parent (i + 1) cs, fun s hs s' hs' => ?_⟩
    obtain ⟨u, -, rfl⟩ := List.mem_map.1 hs
    obtain ⟨j, d, u', -, -, rfl⟩ := (mem_spotsFrom_iff _ _ _ _).1 hs'
    exact List.cons_lt_cons_iff.2 (.inl (by omega))

end

/-! ### Scopes -/

/-- The scope that the names of some modules make. -/
def scopeOf : List String → Option String
  | [] => none
  | name :: names => some ("::".intercalate (name :: names))

theorem intercalate_ne_empty {name : String} (h : name ≠ "") (names : List String) :
    "::".intercalate (name :: names) ≠ "" := by
  cases names with
  | nil => rwa [String.intercalate_singleton]
  | cons _ _ =>
    rw [String.intercalate_cons_cons]
    simp

theorem inScope_scopeOf {names : List String} (h : "" ∉ names) (name : String) :
    Name.inScope (scopeOf names) name = "::".intercalate (names ++ [name]) := by
  cases names with
  | nil => rw [scopeOf, Name.inScope_none, List.nil_append, String.intercalate_singleton]
  | cons first names =>
    have hfirst : first ≠ "" := fun hfirst => h (hfirst ▸ List.mem_cons_self)
    rw [scopeOf, Name.inScope, if_neg (intercalate_ne_empty hfirst names),
      String.intercalate_append_of_ne_nil (by simp) (by simp), String.intercalate_singleton]

theorem modulePath_cons (e : Element) (es : List Element) :
    modulePath (e :: es) = modulePath [e] ++ modulePath es := by
  rw [modulePath, modulePath, modulePath, ← List.filterMap_append, ← List.filter_append,
    List.singleton_append]

theorem empty_notMem_modulePath (es : List Element) : "" ∉ modulePath es := by
  intro h
  obtain ⟨e, -, he⟩ := List.mem_filterMap.1 h
  exact e.attr?_ne_empty _ he

/-- Going into an element adds its name to the path if it is a module. -/
theorem innerScope_scopeOf {names : List String} (h : "" ∉ names) (e : Element) :
    innerScope (scopeOf names) e = scopeOf (names ++ modulePath [e]) := by
  rw [innerScope]
  split
  · rename_i htag
    have hpath : modulePath [e] = (e.attr? "name").toList := by
      cases hname : e.attr? "name" <;> simp [modulePath, htag, hname]
    rw [hpath]
    cases e.attr? "name" with
    | none => simp
    | some name =>
      dsimp only
      rw [inScope_scopeOf h]
      cases names <;> rfl
  · rename_i htag
    simp [modulePath, htag]

mutual

/-- The visits are those of the spots, in their order. -/
theorem visits_eq_map_spots : ∀ (t : Element) {names : List String} (_ : "" ∉ names),
    visits (scopeOf names) t =
      (spots t).map fun s => (scopeOf (names ++ modulePath s.around), s.element)
  | ⟨tag, attributes, children⟩, names, h => by
    have hinner : innerScope (scopeOf names) ⟨tag, attributes, []⟩ =
        scopeOf (names ++ modulePath [⟨tag, attributes, children⟩]) :=
      innerScope_scopeOf h ⟨tag, attributes, children⟩
    rw [visits, hinner, visitsAll_eq_map_spotsFrom ⟨tag, attributes, children⟩ 0 children h, spots,
      List.map_cons]
    simp [modulePath]

theorem visitsAll_eq_map_spotsFrom : ∀ (parent : Element) (i : Nat) (cs : List Element)
    {names : List String} (_ : "" ∉ names),
    visitsAll (scopeOf (names ++ modulePath [parent])) cs =
      (spotsFrom parent i cs).map fun s => (scopeOf (names ++ modulePath s.around), s.element)
  | parent, i, [], names, h => by rw [visitsAll, spotsFrom, List.map_nil]
  | parent, i, c :: cs, names, h => by
    have hnames : "" ∉ names ++ modulePath [parent] := by
      simpa [h] using empty_notMem_modulePath [parent]
    rw [visitsAll, spotsFrom, visits_eq_map_spots c hnames,
      visitsAll_eq_map_spotsFrom parent (i + 1) cs h, List.map_append, List.map_map]
    congr 1
    refine List.map_congr_left fun s _ => ?_
    dsimp only [Function.comp_apply, Spot.under]
    rw [modulePath_cons parent s.around, List.append_assoc]

end

theorem declarations_eq_filterMap_spots (root : Element) :
    declarations root = (spots (typesRoot root)).filterMap fun s =>
      declaration? (scopeOf (modulePath s.around)) s.element := by
  have hvisits : visits none (typesRoot root) = _ := visits_eq_map_spots _ List.not_mem_nil
  rw [declarations, hvisits, List.filterMap_map]
  rfl

/-! ### What is declared -/

/-- What is left after a selection comes from what is selected, in order. -/
theorem forall₂_filterMap {α β : Type} (f : α → Option β) (l : List α) :
    List.Forall₂ (fun a b => f a = some b) (l.filter fun a => (f a).isSome) (l.filterMap f) := by
  induction l with
  | nil => exact .nil
  | cons a l ih =>
    cases h : f a with
    | none => rwa [List.filter_cons_of_neg (by simp [h]), List.filterMap_cons_none h]
    | some b =>
      rw [List.filter_cons_of_pos (by simp [h]), List.filterMap_cons_some h]
      exact .cons h ih

theorem exists_of_forall₂ {α β : Type} {R : α → β → Prop} {as : List α} {bs : List β}
    (h : List.Forall₂ R as bs) {b : β} (hb : b ∈ bs) : ∃ a, R a b := by
  induction h with
  | nil => cases hb
  | cons hab _ ih =>
    cases hb with
    | head => exact ⟨_, hab⟩
    | tail _ hb => exact ih hb

theorem describes_of_member? {c : Element} {m : Member} (h : member? c = some m) :
    Describes c m := by
  obtain ⟨name, hname, rfl⟩ := Option.map_eq_some_iff.1 h
  exact ⟨hname, rfl, rfl, rfl, rfl⟩

theorem forall₂_members (e : Element) :
    List.Forall₂ Describes (namedChildren isMember e) ((e.children.filter isMember).filterMap
      member?) := by
  have hmembers := forall₂_filterMap member? (e.children.filter isMember)
  simp only [member?, Option.isSome_map] at hmembers
  exact hmembers.imp fun c m => describes_of_member?

theorem underlying?_eq_some_iff {e : Element} {reference : String} :
    underlying? e = some reference ↔ Refers e reference := by
  rw [underlying?]
  constructor
  · intro h
    cases hnonBasic : e.attr? "nonBasicTypeName" with
    | none =>
      rw [hnonBasic, Option.none_or] at h
      exact .basic hnonBasic h
    | some reference' =>
      rw [hnonBasic, Option.some_or] at h
      cases h
      exact .nonBasic hnonBasic
  · rintro (h | ⟨absent, h⟩)
    · rw [h, Option.some_or]
    · rw [absent, Option.none_or, h]

/-- What is declared is what the element at the spot declares. -/
theorem Spot.declares_of_declaration? {d : Declaration}
    (h : declaration? (scopeOf (modulePath s.around)) s.element = some d) : s.Declares d := by
  rw [declaration?] at h
  split at h
  · cases h
  · rename_i name hname
    rw [inScope_scopeOf (empty_notMem_modulePath _)] at h
    dsimp only at h
    split at h
    · rename_i htag
      obtain ⟨reference, hreference, rfl⟩ := Option.map_eq_some_iff.1 h
      exact .typedef htag hname (underlying?_eq_some_iff.1 hreference)
    · rename_i htag
      cases h
      exact .enum htag hname (forall₂_filterMap _ _)
    · rename_i htag
      cases h
      exact .struct htag hname (forall₂_members s.element)
    · cases h

theorem isSome_declaration?_iff (scope : Option String) (e : Element) :
    (declaration? scope e).isSome = true ↔ Declaring e := by
  rw [Declaring, declaration?]
  split
  · rename_i hname
    simp [hname]
  · rename_i name hname
    dsimp only
    split
    · rename_i htag
      simp [htag, hname, Option.isSome_iff_exists, underlying?_eq_some_iff]
    · rename_i htag
      simp [htag, hname]
    · rename_i htag
      simp [htag, hname]
    · rename_i htypedef henum hstruct
      refine iff_of_false (by simp) fun h => ?_
      simp only [List.mem_cons, List.not_mem_nil, or_false] at h
      rcases h.1 with htag | htag | htag
      exacts [htypedef htag, henum htag, hstruct htag]

/-- No text of a structure is empty where it may be absent. -/
theorem Spot.Declares.texts_ne_empty {d : StructDecl} (h : s.Declares (.struct d)) :
    d.baseType ≠ some "" ∧ ∀ m ∈ d.members, m.typeName ≠ some "" ∧ m.nonBasicTypeName ≠ some "" ∧
      m.sequenceMaxLength ≠ some "" ∧ m.arrayDimensions ≠ some "" := by
  cases h with
  | struct tag named described =>
    refine ⟨s.element.attr?_ne_empty _, fun m hm => ?_⟩
    obtain ⟨c, hc⟩ := exists_of_forall₂ described hm
    rw [hc.typeName, hc.nonBasicTypeName, hc.sequenceMaxLength, hc.arrayDimensions]
    exact ⟨c.attr?_ne_empty _, c.attr?_ne_empty _, c.attr?_ne_empty _, c.attr?_ne_empty _⟩

/-- The declarations of a document are those of the declaring elements at and below its types root,
one for each, in document order; and no text of a structure is empty where it may be absent. -/
theorem declarations_by_place (root : Element) :
    (∃ spots : List Spot, (spots.Pairwise fun s s' => s.place < s'.place) ∧
      (∀ s, s ∈ spots ↔ Lies (typesRoot root) s ∧ Declaring s.element) ∧
      List.Forall₂ Spot.Declares spots (declarations root)) ∧
    ∀ d, .struct d ∈ declarations root → d.baseType ≠ some "" ∧ ∀ m ∈ d.members,
      m.typeName ≠ some "" ∧ m.nonBasicTypeName ≠ some "" ∧ m.sequenceMaxLength ≠ some "" ∧
        m.arrayDimensions ≠ some "" := by
  have hdeclares := (forall₂_filterMap (fun s : Spot =>
    declaration? (scopeOf (modulePath s.around)) s.element) (spots (typesRoot root))).imp
      fun s d => s.declares_of_declaration?
  rw [← declarations_eq_filterMap_spots] at hdeclares
  refine ⟨⟨_, (pairwise_spots _).filter _, fun s => ?_, hdeclares⟩, fun d hd => ?_⟩
  · rw [List.mem_filter, mem_spots_iff, isSome_declaration?_iff]
  · obtain ⟨s, hs⟩ := exists_of_forall₂ hdeclares hd
    exact hs.texts_ne_empty

/-! ### The listed structures -/

theorem struct?_eq_some_iff {scope : Option String} {e : Element} {q : QualifiedName}
    {decl : StructDecl} : struct? scope e = some (q, decl) ↔
      e.tag = "struct" ∧ ∃ name, e.attr? "name" = some name ∧ q = .ofScope scope name ∧
        decl = structNamed (Name.inScope scope name) e := by
  rw [struct?]
  split
  · rename_i htag
    simp only [htag, true_and, Option.map_eq_some_iff, Prod.mk.injEq]
    exact exists_congr fun name => and_congr_right fun _ => and_congr eq_comm eq_comm
  · rename_i htag
    simp [htag]

/-- What is listed of an element is what is declared, if that is a structure. -/
theorem map_snd_struct? (scope : Option String) (e : Element) :
    (struct? scope e).map Prod.snd = (declaration? scope e).bind Declaration.struct? := by
  rw [struct?, declaration?]
  cases e.attr? "name" with
  | none => simp
  | some name =>
    dsimp only
    split
    · rename_i htag
      simp [htag, Declaration.struct?]
    · rename_i hstruct
      split
      · cases underlying? e <;> rfl
      · rfl
      · rename_i htag
        exact absurd htag hstruct
      · rfl

theorem map_snd_structs (root : Element) :
    (structs root).map Prod.snd = (declarations root).filterMap Declaration.struct? := by
  simp only [structs, declarations, List.map_filterMap, List.filterMap_filterMap, map_snd_struct?]

/-- A structure is listed with the name that it is declared under. -/
theorem qualified_of_mem_structs {root : Element} {s : QualifiedName × StructDecl}
    (h : s ∈ structs root) : s.1.qualified = s.2.name := by
  obtain ⟨q, decl⟩ := s
  obtain ⟨⟨scope, e⟩, -, hs⟩ := List.mem_filterMap.1 h
  obtain ⟨-, name, -, rfl, rfl⟩ := struct?_eq_some_iff.1 hs
  exact QualifiedName.qualified_ofScope scope name

end Schema

end TypeCorpus
