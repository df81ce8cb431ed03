import TypeCorpus.Proofs.Sample.Reference

/-! The guard against recursion. While structures are being expanded, the sample of a reference
depends only on those of them that the reference reaches. So a member keeps the sample that its type
has on its own unless the type reaches the structure of the member, and a mark of recursion stands
only for a structure that comes back to itself. -/

namespace TypeCorpus

namespace Sample

variable {scalar : String → Traced CycleNotice Sample} {t : String}

theorem Contains.of_repeatedIf {s : Sample} {isRepeated : Bool}
    (h : (repeatedIf isRepeated s).Contains (recursiveType t)) : s.Contains (recursiveType t) := by
  cases isRepeated with
  | false => exact h
  | true =>
    rw [repeatedIf, if_pos rfl, contains_recursiveType_list_iff] at h
    simpa only [List.mem_singleton, exists_eq_left] using h

theorem contains_of_ofMember {m : Member}
    (h : (ofMember scalar m).value.Contains (recursiveType t)) :
    ∃ ref, m.typeRef? = some ref ∧ (scalar ref).value.Contains (recursiveType t) := by
  simp only [ofMember] at h
  split at h
  · next ref href => exact ⟨ref, href, h.of_labelled.of_repeatedIf⟩
  · have hleaf : (unknownType "").IsLeaf := ⟨rfl, rfl⟩
    cases hleaf.eq_of_contains h

/-- A mark of recursion in the record of a structure comes from the sample of one of its references.
-/
theorem contains_of_ofStruct {decl : StructDecl}
    (h : (record (ofStruct scalar decl).value).Contains (recursiveType t)) :
    ∃ ref ∈ decl.refs, (scalar ref).value.Contains (recursiveType t) := by
  obtain ⟨e, he, hcontains⟩ := contains_recursiveType_record_iff.1 h
  refine forall_mem_ofStruct
    (P := fun e => e.2.Contains (recursiveType t) →
      ∃ ref ∈ decl.refs, (scalar ref).value.Contains (recursiveType t))
    decl (fun base hbase fields hfields e he hcontains => ⟨base, hbase, ?_⟩)
    (fun m hm hcontains => ?_) e he hcontains
  · rw [hfields]
    exact contains_recursiveType_record_iff.2 ⟨e, he, hcontains⟩
  · obtain ⟨ref, href, hcontains⟩ := contains_of_ofMember hcontains
    exact ⟨ref, StructDecl.mem_refs_of_member hm href, hcontains⟩

end Sample

namespace Registry

open Relation

variable {r : Registry} {ref : String} {decl : StructDecl} {expanding expanding' : List String}

/-! ### What the sample of a reference depends on -/

/-- Two stacks that agree on what a reference reaches give it the same sample. -/
theorem scalarSample_congr (hr : r.Coherent)
    (h : ∀ decl, r.Reaches ref decl → (decl.name ∈ expanding ↔ decl.name ∈ expanding')) :
    r.scalarSample expanding ref = r.scalarSample expanding' ref := by
  induction expanding, ref using expansion_induction (r := r) generalizing expanding' with
  | step expanding ref ih =>
    have houtcome := outcome_congr hr fun decl hdecl => h decl hdecl.reaches
    rw [scalarSample_eq_outcome, scalarSample_eq_outcome r expanding', ← houtcome]
    cases ho : r.outcome expanding ref with
    | settled s notices => rfl
    | expand decl =>
      have hnamed := namesStruct_of_expand hr ho
      have hfields : Sample.ofStruct (r.scalarSample (decl.name :: expanding)) decl =
          Sample.ofStruct (r.scalarSample (decl.name :: expanding')) decl := by
        refine Sample.ofStruct_congr fun ref' href' => ih decl ho ref' fun decl' hdecl' => ?_
        have hstack := h decl' (hnamed.reaches_of_refs href' hdecl')
        rw [List.mem_cons, List.mem_cons, hstack]
      simp only [hfields]

/-- The sample of a reference that names a structure, at the outset. -/
theorem sample_of_namesStruct (hr : r.Coherent) (h : r.NamesStruct ref decl) :
    (r.sample ref false).value =
      .record (Sample.ofStruct (r.scalarSample [decl.name]) decl).value := by
  rw [sample, Traced.value_map, scalarSample_eq_outcome, h.outcome hr, if_neg List.not_mem_nil]
  rfl

theorem sample_isRecord_iff (hr : r.Coherent) :
    (∃ fields, (r.sample ref false).value = .record fields) ↔ ∃ decl, r.NamesStruct ref decl := by
  constructor
  · rintro ⟨fields, h⟩
    rcases outcome_cases hr ref with ⟨decl, hdecl, -⟩ | ⟨-, s, notices, ho, -⟩
    · exact ⟨decl, hdecl⟩
    · rw [sample, Traced.value_map, scalarSample_eq_outcome, ho] at h
      have hleaf := isLeaf_of_settled (ho [])
      obtain rfl : s = .record fields := h
      cases hleaf.1
  · rintro ⟨decl, h⟩
    exact ⟨_, sample_of_namesStruct hr h⟩

/-- The guard spares what is not recursive. The sample of a reference is a record exactly if the
reference names a structure, and then the value of a field is the sample that the type of the last
member of its name has on its own, labelled for it, unless that type reaches the structure. -/
theorem guard_spares_unreachable (hr : r.Declared) (ref : String) :
    ((∃ fields, (r.sample ref false).value = .record fields) ↔ ∃ decl, r.NamesStruct ref decl) ∧
    ∀ decl fields, r.NamesStruct ref decl → (r.sample ref false).value = .record fields →
      ∀ field m t, decl.lastMember? field = some m → m.typeRef? = some t → ¬ r.Reaches t decl →
        Table.get? fields field =
          some (Sample.labelled field (r.sample t m.isRepeated).value) := by
  refine ⟨sample_isRecord_iff hr.coherent, ?_⟩
  intro decl fields hdecl hfields field m t hm ht hreach
  have hspared : r.scalarSample [decl.name] t = r.scalarSample [] t := by
    refine scalarSample_congr hr.coherent fun decl' hdecl' => ?_
    have hne : decl'.name ≠ decl.name := by
      intro hname
      obtain ⟨ref', href'⟩ := hdecl'.named
      exact hreach (hr.ownNames.eq_of_name_eq href' hdecl hname ▸ hdecl')
    simp [hne]
  rw [sample_of_namesStruct hr.coherent hdecl] at hfields
  cases hfields
  rw [Sample.ofStruct_eq, Traced.value_bind, Sample.get?_writeAll, hm, Option.map_some,
    Option.some_or, Sample.ofMember, ht, StructDecl.name_of_lastMember? hm]
  simp only [Traced.value_map, hspared, sample]

/-- In a structure that refers to itself, a repeated member of another structure is spared. -/
theorem guard_spares_position :
    let pos : StructDecl := { name := "Pos", members := [{ name := "x", typeName := some "long" }] }
    let node : StructDecl :=
      { name := "Node"
        members := [{ name := "next", typeName := some "Node" },
          { name := "at", typeName := some "Pos", arrayDimensions := some "2" }] }
    let r := ofDeclarations [.struct pos, .struct node]
    r.Declared ∧ TransGen r.Refers node node ∧ ¬ r.Reaches "Pos" node ∧
      ∃ fields, (r.sample "Node" false).value = .record fields ∧
        Table.get? fields "at" = some (Sample.labelled "at" (r.sample "Pos" true).value) := by
  intro pos node r
  have hr : r.Declared := declared_ofDeclarations _
  have hnode : r.NamesStruct "Node" node :=
    Canonical.namesStruct ⟨by decide, .inr (by decide)⟩ (by decide) (by decide)
  have hpos : r.NamesStruct "Pos" pos :=
    Canonical.namesStruct ⟨by decide, .inr (by decide)⟩ (by decide) (by decide)
  have hlong : ∀ decl, ¬ r.NamesStruct "long" decl := by
    rintro decl ⟨name, hname, -, hdecl⟩
    have hself : r.Canonical "long" := ⟨by decide, .inl (by decide)⟩
    obtain rfl : "long" = name := Except.ok.inj (hself.resolve?_self.symm.trans hname)
    have hnone : r.structs.get? "long" = none := by decide
    cases hnone.symm.trans hdecl
  have hreach : ¬ r.Reaches "Pos" node := by
    rintro ⟨first, hfirst, hway⟩
    obtain rfl : first = pos := hfirst.unique hpos
    rcases hway.cases_head with heq | ⟨decl, ⟨ref, href, hdecl⟩, -⟩
    · exact absurd heq (by decide)
    · obtain rfl : ref = "long" := List.mem_singleton.1 href
      exact hlong decl hdecl
  obtain ⟨fields, hfields⟩ := (sample_isRecord_iff hr.coherent).2 ⟨node, hnode⟩
  exact ⟨hr, .single ⟨"Node", by decide, hnode⟩, hreach, fields, hfields,
    (guard_spares_unreachable hr "Node").2 node fields hnode hfields "at" _ "Pos" rfl rfl hreach⟩

/-! ### Where a mark of recursion comes from -/

/-- What a mark of recursion tells: its reference names a structure that is reached, and that is
being expanded or comes back to itself. -/
def Recurs (r : Registry) (expanding : List String) (ref t : String) : Prop :=
  ∃ decl, r.NamesStruct t decl ∧ r.Reaches ref decl ∧
    (decl.name ∈ expanding ∨ TransGen r.Refers decl decl)

/-- A reference of a structure has one structure more on the stack than what names the structure: if
this is the one that it recurs to, a circle is closed. -/
theorem Recurs.of_refs (hr : r.OwnNames) {ref' t : String} (hnamed : r.NamesStruct ref decl)
    (href : ref' ∈ decl.refs) (h : r.Recurs (decl.name :: expanding) ref' t) :
    r.Recurs expanding ref t := by
  obtain ⟨decl', hdecl', hreach, hback⟩ := h
  refine ⟨decl', hdecl', hnamed.reaches_of_refs href hreach, ?_⟩
  rcases hback with hstack | hcircle
  · rcases List.mem_cons.1 hstack with hname | hstack
    · obtain rfl := hr.eq_of_name_eq hdecl' hnamed hname
      exact .inr (hreach.transGen href)
    · exact .inl hstack
  · exact .inr hcircle

theorem recurs_of_contains (hr : r.Declared) {t : String}
    (h : (r.scalarSample expanding ref).value.Contains (.recursiveType t)) :
    r.Recurs expanding ref t := by
  induction expanding, ref using expansion_induction (r := r) with
  | step expanding ref ih =>
    rw [scalarSample_eq_outcome] at h
    cases ho : r.outcome expanding ref with
    | settled s notices =>
      rw [ho] at h
      obtain rfl := (isLeaf_of_settled ho).eq_of_contains h
      obtain ⟨rfl, decl, hdecl, hstack⟩ := named_of_recursiveType hr.coherent ho
      exact ⟨decl, hdecl, hdecl.reaches, .inl hstack⟩
    | expand decl =>
      rw [ho] at h
      obtain ⟨ref', href', hcontains⟩ := Sample.contains_of_ofStruct h
      exact (ih decl ho ref' hcontains).of_refs hr.ownNames
        (namesStruct_of_expand hr.coherent ho) href'

/-- A mark of recursion anywhere in a sample stands for a structure that is reached from the
reference and that comes back to itself; where no such structure is reached, there is no mark. -/
theorem recursiveType_on_circle (hr : r.Declared) (ref : String) (isRepeated : Bool) :
    (∀ t, (r.sample ref isRepeated).value.Contains (.recursiveType t) →
      ∃ decl, r.NamesStruct t decl ∧ r.Reaches ref decl ∧ TransGen r.Refers decl decl) ∧
    ((∀ decl, r.Reaches ref decl → ¬ TransGen r.Refers decl decl) →
      ∀ t, ¬ (r.sample ref isRepeated).value.Contains (.recursiveType t)) := by
  have hmark : ∀ t, (r.sample ref isRepeated).value.Contains (.recursiveType t) →
      ∃ decl, r.NamesStruct t decl ∧ r.Reaches ref decl ∧ TransGen r.Refers decl decl := by
    intro t h
    rw [sample, Traced.value_map] at h
    obtain ⟨decl, hdecl, hreach, hback⟩ := recurs_of_contains hr h.of_repeatedIf
    exact ⟨decl, hdecl, hreach, hback.resolve_left List.not_mem_nil⟩
  refine ⟨hmark, fun hnone t h => ?_⟩
  obtain ⟨decl, -, hreach, hcircle⟩ := hmark t h
  exact hnone decl hreach hcircle

/-- A structure that comes back to itself by a reference with a path that nothing declares. -/
theorem recursiveType_by_foreign_path :
    let loop : StructDecl :=
      { name := "M::Loop", members := [{ name := "self", typeName := some "K::Loop" }] }
    let r := ofDeclarations [.struct loop]
    r.Declared ∧ (r.sample "Loop" false).value.Contains (.recursiveType "K::Loop") ∧
      ∃ decl, r.NamesStruct "K::Loop" decl ∧ r.Reaches "Loop" decl ∧
        TransGen r.Refers decl decl := by
  intro loop r
  have hr : r.Declared := declared_ofDeclarations _
  have hnamed : ∀ ref, r.Stops ref "M::Loop" → r.NamesStruct ref loop := fun ref h =>
    ⟨"M::Loop", resolve?_eq_ok_iff.2 h.resolvesTo, by decide, by decide⟩
  have hloop : r.NamesStruct "Loop" loop :=
    hnamed "Loop" (.shortName (by decide) (by decide) (by decide))
  have hself : r.NamesStruct "K::Loop" loop :=
    hnamed "K::Loop" (.shortName (by decide) (by decide) (by decide))
  have hmark : r.scalarSample ["M::Loop"] "K::Loop" = ⟨.recursiveType "K::Loop", []⟩ := by
    rw [scalarSample_eq_outcome, hself.outcome hr.coherent, if_pos List.mem_cons_self]
  have hvalue : (Sample.ofMember (r.scalarSample ["M::Loop"])
      { name := "self", typeName := some "K::Loop" }).value = .recursiveType "K::Loop" := by
    have href : ({ name := "self", typeName := some "K::Loop" } : Member).typeRef? =
      some "K::Loop" := rfl
    have hscalar : ({ name := "self", typeName := some "K::Loop" } : Member).isRepeated =
      false := by decide
    simp only [Sample.ofMember, href, hscalar, Traced.value_map, hmark]
    rfl
  have hcontains : (r.sample "Loop" false).value.Contains (.recursiveType "K::Loop") := by
    rw [sample_of_namesStruct hr.coherent hloop, Sample.contains_recursiveType_record_iff]
    refine ⟨("self", .recursiveType "K::Loop"), ?_, .refl⟩
    rw [Sample.ofStruct_eq, Traced.value_bind, Sample.value_writeAll]
    simp only [loop, List.map_cons, List.map_nil, hvalue]
    exact List.mem_singleton_self _
  exact ⟨hr, hcontains, (recursiveType_on_circle hr "Loop" false).1 "K::Loop" hcontains⟩

end Registry

end TypeCorpus
