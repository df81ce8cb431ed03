import TypeCorpus.Proofs.Registry.Canonical

/-! The graph of structures. A reference names a structure if it resolves to a name under which a
structure is registered and no enumeration; a structure refers to those that its base and the types
of its members name. What becomes of a reference depends on the structures being expanded only where
it names one: there it is expanded or marked as recursive, elsewhere its sample is always the same.
Where structures stand under their own names, a name tells which structure is meant. -/

namespace TypeCorpus.Registry

open Relation

variable {r : Registry} {ref ref' : String} {decl decl' : StructDecl} {expanding : List String}

/-- A reference names a structure: it resolves to a name that is a structure's and no enumeration's.
-/
def NamesStruct (r : Registry) (ref : String) (decl : StructDecl) : Prop :=
  ∃ name, r.resolve? ref = .ok name ∧ r.enums.get? name = none ∧ r.structs.get? name = some decl

/-- A structure refers to another by its base or by the type of a member. -/
def Refers (r : Registry) (decl decl' : StructDecl) : Prop :=
  ∃ ref ∈ decl.refs, r.NamesStruct ref decl'

/-- A structure is reached from a reference: it is the one that the reference names, or that one
refers to it, directly or through others. -/
def Reaches (r : Registry) (ref : String) (decl : StructDecl) : Prop :=
  ∃ first, r.NamesStruct ref first ∧ ReflTransGen r.Refers first decl

/-- A canonical name names the structure registered under it. -/
theorem Canonical.namesStruct {name : String} (h : r.Canonical name)
    (henum : r.enums.get? name = none) (hdecl : r.structs.get? name = some decl) :
    r.NamesStruct name decl :=
  ⟨name, h.resolve?_self, henum, hdecl⟩

theorem NamesStruct.unique (h : r.NamesStruct ref decl) (h' : r.NamesStruct ref decl') :
    decl = decl' := by
  obtain ⟨name, hname, -, hdecl⟩ := h
  obtain ⟨name', hname', -, hdecl'⟩ := h'
  obtain rfl : name = name' := Except.ok.inj (hname.symm.trans hname')
  exact Option.some.inj (hdecl.symm.trans hdecl')

theorem NamesStruct.reaches (h : r.NamesStruct ref decl) : r.Reaches ref decl := ⟨decl, h, .refl⟩

/-- What a reference of a structure reaches, the structure comes to in at least one step. -/
theorem Reaches.transGen (h : r.Reaches ref decl') (href : ref ∈ decl.refs) :
    TransGen r.Refers decl decl' := by
  obtain ⟨first, hfirst, hway⟩ := h
  exact TransGen.head' ⟨ref, href, hfirst⟩ hway

theorem NamesStruct.reaches_of_refs (h : r.NamesStruct ref decl) (href : ref' ∈ decl.refs)
    (h' : r.Reaches ref' decl') : r.Reaches ref decl' :=
  ⟨decl, h, (h'.transGen href).to_reflTransGen⟩

/-- Whatever is reached is named by some reference. -/
theorem Reaches.named (h : r.Reaches ref decl) : ∃ ref', r.NamesStruct ref' decl := by
  obtain ⟨first, hfirst, hway⟩ := h
  rcases hway.cases_tail with rfl | ⟨_, -, ref', -, hnamed⟩
  · exact ⟨ref, hfirst⟩
  · exact ⟨ref', hnamed⟩

theorem OwnNames.eq_of_name_eq (hr : r.OwnNames) (h : r.NamesStruct ref decl)
    (h' : r.NamesStruct ref' decl') (hname : decl.name = decl'.name) : decl = decl' := by
  obtain ⟨name, -, -, hdecl⟩ := h
  obtain ⟨name', -, -, hdecl'⟩ := h'
  rw [← hr _ _ hdecl, hname] at hdecl
  rw [← hr _ _ hdecl'] at hdecl'
  exact Option.some.inj (hdecl.symm.trans hdecl')

/-! ### What becomes of a reference -/

theorem NamesStruct.outcome (hr : r.Coherent) (h : r.NamesStruct ref decl)
    (expanding : List String) :
    r.outcome expanding ref =
      if decl.name ∈ expanding then .settled (.recursiveType ref) [] else .expand decl := by
  obtain ⟨name, hname, henum, hdecl⟩ := h
  rw [outcome_eq hr hname, henum, hdecl]

theorem exists_outcome_of_not_named (hr : r.Coherent) (h : ∀ decl, ¬ r.NamesStruct ref decl) :
    ∃ s notices, (∀ expanding, r.outcome expanding ref = .settled s notices) ∧
      ∀ t, s ≠ .recursiveType t := by
  cases hres : r.resolve? ref with
  | error cycle =>
    exact ⟨_, _, fun expanding => by rw [Registry.outcome, hres], fun t h => by cases h⟩
  | ok name =>
    simp only [outcome_eq hr hres]
    cases henum : r.enums.get? name with
    | some enumerators =>
      refine ⟨_, _, fun _ => rfl, fun t h => ?_⟩
      cases enumerators <;> cases h
    | none =>
      cases hdecl : r.structs.get? name with
      | some decl => exact absurd ⟨name, hres, henum, hdecl⟩ (h decl)
      | none =>
        cases Primitive.ofName? name with
        | some p =>
          refine ⟨_, _, fun _ => rfl, fun t h => ?_⟩
          cases p <;> cases h
        | none => exact ⟨_, _, fun _ => rfl, fun t h => by cases h⟩

/-- A reference names a structure, which is expanded unless it is being expanded already, or it has
the same sample at all times, which is no mark of recursion. -/
theorem outcome_cases (hr : r.Coherent) (ref : String) :
    (∃ decl, r.NamesStruct ref decl ∧ ∀ expanding, r.outcome expanding ref =
      if decl.name ∈ expanding then .settled (.recursiveType ref) [] else .expand decl) ∨
    (∀ decl, ¬ r.NamesStruct ref decl) ∧ ∃ s notices,
      (∀ expanding, r.outcome expanding ref = .settled s notices) ∧ ∀ t, s ≠ .recursiveType t := by
  by_cases hnamed : ∃ decl, r.NamesStruct ref decl
  · obtain ⟨decl, hdecl⟩ := hnamed
    exact .inl ⟨decl, hdecl, hdecl.outcome hr⟩
  · exact .inr ⟨not_exists.1 hnamed, exists_outcome_of_not_named hr (not_exists.1 hnamed)⟩

theorem namesStruct_of_expand (hr : r.Coherent) (h : r.outcome expanding ref = .expand decl) :
    r.NamesStruct ref decl := by
  rcases outcome_cases hr ref with ⟨decl', hdecl, ho⟩ | ⟨-, s, notices, ho, -⟩
  · rw [ho] at h
    split at h
    · cases h
    · cases h; exact hdecl
  · cases (ho expanding).symm.trans h

/-- A reference is marked as recursive where it names a structure that is being expanded. -/
theorem named_of_recursiveType (hr : r.Coherent) {notices : List CycleNotice} {t : String}
    (h : r.outcome expanding ref = .settled (.recursiveType t) notices) :
    t = ref ∧ ∃ decl, r.NamesStruct ref decl ∧ decl.name ∈ expanding := by
  rcases outcome_cases hr ref with ⟨decl, hdecl, ho⟩ | ⟨-, s, notices', ho, hne⟩
  · rw [ho] at h
    split at h
    · cases h; exact ⟨rfl, decl, hdecl, ‹_›⟩
    · cases h
  · cases (ho expanding).symm.trans h
    exact absurd rfl (hne t)

/-- Two stacks that agree on the structure that a reference names, if it names one, lead to the same
outcome. -/
theorem outcome_congr {expanding' : List String} (hr : r.Coherent)
    (h : ∀ decl, r.NamesStruct ref decl → (decl.name ∈ expanding ↔ decl.name ∈ expanding')) :
    r.outcome expanding ref = r.outcome expanding' ref := by
  rcases outcome_cases hr ref with ⟨decl, hdecl, ho⟩ | ⟨-, s, notices, ho, -⟩
  · rw [ho, ho]
    exact if_congr (h decl hdecl) rfl rfl
  · rw [ho, ho]

end TypeCorpus.Registry
