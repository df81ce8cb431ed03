import TypeCorpus.Proofs.Sample.Guard

/-! Inheritance. A structure stands in a line with its bases, which ends before a base that is none
or that stands in the line already. Every structure has one such line, and its record is what the
members of the line write, those of the furthest base first: so the fields stand in the order in
which their names come up on the way to the structure, and the nearest structure that declares a
name gives the value. -/

namespace TypeCorpus

/-- The names of the members, in order. -/
def StructDecl.memberNames (decl : StructDecl) : List String := decl.members.map Member.name

theorem StructDecl.lastMember?_eq_none {decl : StructDecl} {name : String}
    (h : name ∉ decl.memberNames) : decl.lastMember? name = none := by
  rw [lastMember?, List.find?_eq_none]
  intro m hm
  simp only [decide_eq_true_eq]
  exact fun hname => h (hname ▸ List.mem_map_of_mem (List.mem_reverse.1 hm))

namespace Registry

variable {r : Registry} {ref : String} {decl base : StructDecl} {line line' : List StructDecl}
  {expanding : List String}

/-- What the base of a structure names, if it has one that names a structure. -/
def HasBase (r : Registry) (decl base : StructDecl) : Prop :=
  ∃ ref, Member.given decl.baseType = some ref ∧ r.NamesStruct ref base

theorem HasBase.unique {base' : StructDecl} (h : r.HasBase decl base) (h' : r.HasBase decl base') :
    base = base' := by
  obtain ⟨ref, href, hnamed⟩ := h
  obtain ⟨ref', href', hnamed'⟩ := h'
  obtain rfl : ref = ref' := Option.some.inj (href.symm.trans href')
  exact hnamed.unique hnamed'

/-- A structure with its bases, nearest first: each is the base of the one before it, none stands
there twice, and if the last one has a base, this stands there already. -/
structure Lineage (r : Registry) (decl : StructDecl) (line : List StructDecl) : Prop where
  head : line.head? = some decl
  linked : line.IsChain r.HasBase
  nodup : line.Nodup
  closed : ∀ last ∈ line.getLast?, ∀ base, r.HasBase last base → base ∈ line

/-! ### A structure has one line -/

theorem prefix_or_prefix (h : (decl :: line).IsChain r.HasBase)
    (h' : (decl :: line').IsChain r.HasBase) : line <+: line' ∨ line' <+: line := by
  induction line generalizing decl line' with
  | nil => exact .inl List.nil_prefix
  | cons base line ih =>
    cases line' with
    | nil => exact .inr List.nil_prefix
    | cons base' line' =>
      obtain ⟨hbase, hrest⟩ := List.isChain_cons_cons.1 h
      obtain ⟨hbase', hrest'⟩ := List.isChain_cons_cons.1 h'
      obtain rfl := hbase.unique hbase'
      simpa only [List.cons_prefix_cons, true_and] using ih hrest hrest'

/-- A line does not go on behind its end. -/
theorem Lineage.eq_of_prefix (h : r.Lineage decl line) (h' : r.Lineage decl line')
    (hpre : line <+: line') : line = line' := by
  obtain ⟨rest, rfl⟩ := hpre
  cases rest with
  | nil => exact (List.append_nil line).symm
  | cons base rest =>
    have hne : line ≠ [] := by
      rintro rfl
      cases h.head
    obtain ⟨last, hlast⟩ := Option.ne_none_iff_exists'.1 (mt List.getLast?_eq_none_iff.1 hne)
    have hbase : r.HasBase last base :=
      (List.isChain_append.1 h'.linked).2.2 last hlast base rfl
    have hmem : base ∈ line := h.closed last hlast base hbase
    exact absurd rfl ((List.nodup_append.1 h'.nodup).2.2 base hmem base List.mem_cons_self)

theorem Lineage.unique (h : r.Lineage decl line) (h' : r.Lineage decl line') : line = line' := by
  obtain ⟨_, rfl⟩ := List.head?_eq_some_iff.1 h.head
  obtain ⟨_, rfl⟩ := List.head?_eq_some_iff.1 h'.head
  rcases prefix_or_prefix h.linked h'.linked with hpre | hpre
  · exact h.eq_of_prefix h' (List.cons_prefix_cons.2 ⟨rfl, hpre⟩)
  · exact (h'.eq_of_prefix h (List.cons_prefix_cons.2 ⟨rfl, hpre⟩)).symm

/-! ### Lines and expansion -/

/-- The line along which expansion goes on from its first structure while others are being expanded:
it ends before a base whose name has come up. -/
structure Upward (r : Registry) (expanding : List String) (line : List StructDecl) : Prop where
  linked : line.IsChain r.HasBase
  nodup : (line.map StructDecl.name).Nodup
  fresh : ∀ decl ∈ line, decl.name ∉ expanding
  closed : ∀ last ∈ line.getLast?, ∀ base, r.HasBase last base →
    base.name ∈ line.map StructDecl.name ++ expanding

theorem upward_singleton_iff : r.Upward expanding [decl] ↔
    decl.name ∉ expanding ∧ ∀ base, r.HasBase decl base → base.name ∈ decl.name :: expanding := by
  constructor
  · intro h
    exact ⟨h.fresh decl List.mem_cons_self, h.closed decl rfl⟩
  · rintro ⟨hfresh, hclosed⟩
    refine ⟨List.isChain_singleton decl, List.nodup_singleton _, ?_, ?_⟩
    · intro decl' h
      rwa [List.mem_singleton.1 h]
    · intro last hlast
      cases hlast
      exact hclosed

theorem upward_cons_cons_iff : r.Upward expanding (decl :: base :: line) ↔
    decl.name ∉ expanding ∧ r.HasBase decl base ∧
      r.Upward (decl.name :: expanding) (base :: line) := by
  have hperm : ∀ name, name ∈ (decl :: base :: line).map StructDecl.name ++ expanding ↔
      name ∈ (base :: line).map StructDecl.name ++ decl.name :: expanding :=
    fun name => List.perm_middle.symm.mem_iff
  constructor
  · intro h
    obtain ⟨hbase, hlinked⟩ := List.isChain_cons_cons.1 h.linked
    obtain ⟨hnotin, hnodup⟩ := List.nodup_cons.1 h.nodup
    refine ⟨h.fresh decl List.mem_cons_self, hbase, hlinked, hnodup, fun decl' hdecl' => ?_,
      fun last hlast base' hbase' => (hperm _).1 (h.closed last hlast base' hbase')⟩
    intro hmem
    rcases List.mem_cons.1 hmem with hname | hmem
    · exact hnotin (hname ▸ List.mem_map_of_mem hdecl')
    · exact h.fresh decl' (List.mem_cons_of_mem _ hdecl') hmem
  · rintro ⟨hfresh, hbase, h⟩
    refine ⟨List.isChain_cons_cons.2 ⟨hbase, h.linked⟩, List.nodup_cons.2 ⟨?_, h.nodup⟩, ?_,
      fun last hlast base' hbase' => (hperm _).2 (h.closed last hlast base' hbase')⟩
    · intro hmem
      obtain ⟨decl', hdecl', hname⟩ := List.mem_map.1 hmem
      exact h.fresh decl' hdecl' (hname ▸ List.mem_cons_self)
    · intro decl' hdecl'
      rcases List.mem_cons.1 hdecl' with rfl | hdecl'
      · exact hfresh
      · exact fun hmem => h.fresh decl' hdecl' (List.mem_cons_of_mem _ hmem)

/-- Every structure that can be expanded is the first of a line. -/
theorem exists_upward (hr : r.Coherent) (h : r.NamesStruct ref decl)
    (hfresh : decl.name ∉ expanding) : ∃ line, r.Upward expanding (decl :: line) := by
  induction expanding, ref using expansion_induction (r := r) generalizing decl with
  | step expanding ref ih =>
    have ho : r.outcome expanding ref = .expand decl := by rw [h.outcome hr, if_neg hfresh]
    by_cases hbase : ∃ base, r.HasBase decl base ∧ base.name ∉ decl.name :: expanding
    · obtain ⟨base, ⟨ref', href', hnamed⟩, hname⟩ := hbase
      obtain ⟨line, hline⟩ := ih decl ho ref' hnamed hname
      exact ⟨base :: line, upward_cons_cons_iff.2 ⟨hfresh, ⟨ref', href', hnamed⟩, hline⟩⟩
    · refine ⟨[], upward_singleton_iff.2 ⟨hfresh, fun base hb => ?_⟩⟩
      by_contra hname
      exact hbase ⟨base, hb, hname⟩

theorem HasBase.named (h : r.HasBase decl base) : ∃ ref, r.NamesStruct ref base :=
  h.imp fun _ h => h.2

/-- In a line that begins with a structure of the registry, all are of the registry. -/
theorem named_of_mem_line (hlinked : (decl :: line).IsChain r.HasBase) (h : r.NamesStruct ref decl)
    {decl' : StructDecl} (hmem : decl' ∈ decl :: line) : ∃ ref', r.NamesStruct ref' decl' := by
  induction line generalizing decl ref with
  | nil => exact ⟨ref, List.mem_singleton.1 hmem ▸ h⟩
  | cons base line ih =>
    obtain ⟨hbase, hlinked⟩ := List.isChain_cons_cons.1 hlinked
    obtain ⟨ref', hnamed⟩ := hbase.named
    rcases List.mem_cons.1 hmem with rfl | hmem
    · exact ⟨ref, h⟩
    · exact ih hlinked hnamed hmem

/-- Where structures stand under their own names, a line is the way that expansion goes. -/
theorem lineage_iff_upward (hr : r.OwnNames) (h : r.NamesStruct ref decl) :
    r.Lineage decl (decl :: line) ↔ r.Upward [] (decl :: line) := by
  constructor
  · intro hline
    refine ⟨hline.linked, ?_, fun _ _ => List.not_mem_nil, fun last hlast base hbase => ?_⟩
    · refine List.Nodup.map_on (fun a ha b hb hname => ?_) hline.nodup
      obtain ⟨ref₁, h₁⟩ := named_of_mem_line hline.linked h ha
      obtain ⟨ref₂, h₂⟩ := named_of_mem_line hline.linked h hb
      exact hr.eq_of_name_eq h₁ h₂ hname
    · rw [List.append_nil]
      exact List.mem_map_of_mem (hline.closed last hlast base hbase)
  · intro hline
    refine ⟨rfl, hline.linked, List.Nodup.of_map _ hline.nodup, fun last hlast base hbase => ?_⟩
    have hmem := hline.closed last hlast base hbase
    rw [List.append_nil] at hmem
    obtain ⟨decl', hdecl', hname⟩ := List.mem_map.1 hmem
    obtain ⟨ref₁, h₁⟩ := named_of_mem_line hline.linked h hdecl'
    obtain ⟨ref₂, h₂⟩ := hbase.named
    rwa [← hr.eq_of_name_eq h₁ h₂ hname]

/-! ### What a line writes -/

/-- The entries that a line writes, those of the furthest base first. -/
def written (r : Registry) : List String → List StructDecl → List (String × Sample)
  | _, [] => []
  | expanding, decl :: line =>
    r.written (decl.name :: expanding) line ++ decl.members.map fun m =>
      (m.name, (Sample.ofMember (r.scalarSample (decl.name :: expanding)) m).value)

theorem names_written (r : Registry) (expanding : List String) (line : List StructDecl) :
    (r.written expanding line).map Prod.fst = line.reverse.flatMap StructDecl.memberNames := by
  induction line generalizing expanding with
  | nil => rfl
  | cons decl line ih =>
    rw [written, List.map_append, ih, List.map_map, List.reverse_cons, List.flatMap_append,
      List.flatMap_singleton]
    rfl

/-- What stands under a name is the value of the last member of that name in the nearest structure
that declares it. -/
theorem last?_written {nearer farther : List StructDecl} {owner : StructDecl} {field : String}
    {m : Member} (hnearer : ∀ decl ∈ nearer, field ∉ decl.memberNames)
    (hm : owner.lastMember? field = some m) (expanding : List String) :
    Table.last? (r.written expanding (nearer ++ owner :: farther)) field =
      some (Sample.ofMember (r.scalarSample
        (owner.name :: ((nearer.map StructDecl.name).reverse ++ expanding))) m).value := by
  have hcons : ∀ expanding decl line,
      Table.last? (r.written expanding (decl :: line)) field =
        ((decl.lastMember? field).map fun m =>
          (Sample.ofMember (r.scalarSample (decl.name :: expanding)) m).value).or
            (Table.last? (r.written (decl.name :: expanding) line) field) := by
    intro expanding decl line
    rw [written, Table.last?_append, Table.last?_map]
    rfl
  induction nearer generalizing expanding with
  | nil =>
    rw [List.nil_append, hcons, hm]
    rfl
  | cons decl nearer ih =>
    have hnone := StructDecl.lastMember?_eq_none (hnearer decl List.mem_cons_self)
    have hrest := ih (fun decl' hdecl' => hnearer decl' (List.mem_cons_of_mem _ hdecl'))
      (decl.name :: expanding)
    rw [List.cons_append, hcons, hnone, Option.map_none, Option.none_or, hrest]
    simp

/-- A reference whose structure, if it names one, is being expanded has no fields. -/
theorem fields?_scalarSample (hr : r.Coherent)
    (h : ∀ decl, r.NamesStruct ref decl → decl.name ∈ expanding) :
    (r.scalarSample expanding ref).value.fields? = none := by
  rw [scalarSample_eq_outcome]
  rcases outcome_cases hr ref with ⟨decl, hdecl, ho⟩ | ⟨-, s, notices, ho, -⟩
  · rw [ho, if_pos (h decl hdecl)]
    rfl
  · have hleaf := isLeaf_of_settled (ho expanding)
    rw [ho]
    cases s with
    | record fields => cases hleaf.1
    | _ => rfl

/-- The record of a structure is what its line writes. -/
theorem scalarSample_of_upward (hr : r.Coherent) (h : r.NamesStruct ref decl)
    (hline : r.Upward expanding (decl :: line)) :
    (r.scalarSample expanding ref).value =
      .record (Table.ofList (r.written expanding (decl :: line))) := by
  induction line generalizing expanding ref decl with
  | nil =>
    obtain ⟨hfresh, hclosed⟩ := upward_singleton_iff.1 hline
    have hbase : (Sample.ofBase (r.scalarSample (decl.name :: expanding)) decl.baseType).value =
        [] := by
      simp only [Sample.ofBase]
      split
      · next ref' href' =>
        have hnone := fields?_scalarSample hr fun base hbase => hclosed base ⟨ref', href', hbase⟩
        rw [Traced.value_map, hnone]
        rfl
      · rfl
    rw [scalarSample_eq_outcome, h.outcome hr, if_neg hfresh]
    simp only [Traced.value_map, Sample.ofStruct_eq, Traced.value_bind, hbase, written,
      Sample.value_writeAll, List.nil_append, Table.ofList]
  | cons base line ih =>
    obtain ⟨hfresh, ⟨ref', href', hnamed⟩, hline⟩ := upward_cons_cons_iff.1 hline
    have hbase : (Sample.ofBase (r.scalarSample (decl.name :: expanding)) decl.baseType).value =
        Table.ofList (r.written (decl.name :: expanding) (base :: line)) := by
      simp only [Sample.ofBase, href', Traced.value_map, ih hnamed hline]
      rfl
    rw [scalarSample_eq_outcome, h.outcome hr, if_neg hfresh, written]
    simp only [Traced.value_map, Sample.ofStruct_eq, Traced.value_bind, hbase,
      Sample.value_writeAll, Table.ofList, Table.extend_append]

/-- The sample of a reference that names a structure is the record of the line that begins with it.
Its fields stand in the order in which the names of members first come up, from the furthest base to
the structure itself, none of them twice. The value of a field is that of the last member of its
name in the nearest structure of the line that declares it. -/
theorem inherited_fields (hr : r.Declared) (h : r.NamesStruct ref decl) :
    (∃! line, r.Lineage decl line) ∧
    ∀ line, r.Lineage decl line → ∃ fields, (r.sample ref false).value = .record fields ∧
      Table.keys fields = (line.reverse.flatMap StructDecl.memberNames).eraseDups ∧
      (Table.keys fields).Nodup ∧
      ∀ nearer owner farther field m, line = nearer ++ owner :: farther →
        (∀ decl' ∈ nearer, field ∉ decl'.memberNames) → owner.lastMember? field = some m →
        Table.get? fields field = some (Sample.ofMember (r.scalarSample
          (owner.name :: (nearer.map StructDecl.name).reverse)) m).value := by
  constructor
  · have hfresh : decl.name ∉ ([] : List String) := List.not_mem_nil
    obtain ⟨line, hline⟩ := exists_upward hr.coherent h hfresh
    have hlineage := (lineage_iff_upward hr.ownNames h).2 hline
    exact ⟨decl :: line, hlineage, fun line' hline' => hline'.unique hlineage⟩
  · intro line hline
    obtain ⟨bases, rfl⟩ := List.head?_eq_some_iff.1 hline.head
    have hup := (lineage_iff_upward hr.ownNames h).1 hline
    have hrecord := scalarSample_of_upward hr.coherent h hup
    refine ⟨_, hrecord, ?_, Table.nodup_keys_ofList _, ?_⟩
    · rw [Table.keys_ofList, names_written]
    · intro nearer owner farther field m hsplit hnearer hm
      rw [Table.get?_ofList, hsplit, last?_written hnearer hm, List.append_nil]

/-- Two structures with each other as base: the line from one ends with the other. -/
theorem inherited_from_circle :
    let base : StructDecl :=
      { name := "Base", baseType := some "Derived"
        members := [{ name := "a", typeName := some "long" },
          { name := "b", typeName := some "long" }] }
    let derived : StructDecl :=
      { name := "Derived", baseType := some "Base"
        members := [{ name := "c", typeName := some "long" },
          { name := "a", typeName := some "long" }, { name := "a", typeName := some "string" }] }
    let r := ofDeclarations [.struct base, .struct derived]
    r.Declared ∧ r.NamesStruct "Derived" derived ∧
      ∃ fields, (r.sample "Derived" false).value = .record fields ∧
        Table.keys fields = ["a", "b", "c"] ∧
        Table.get? fields "a" = some (Sample.ofMember (r.scalarSample ["Derived"])
          { name := "a", typeName := some "string" }).value ∧
        Table.get? fields "b" = some (Sample.ofMember (r.scalarSample ["Base", "Derived"])
          { name := "b", typeName := some "long" }).value := by
  intro base derived r
  have hr : r.Declared := declared_ofDeclarations _
  have hbase : r.NamesStruct "Base" base :=
    Canonical.namesStruct ⟨by decide, .inr (by decide)⟩ (by decide) (by decide)
  have hderived : r.NamesStruct "Derived" derived :=
    Canonical.namesStruct ⟨by decide, .inr (by decide)⟩ (by decide) (by decide)
  have hup : r.HasBase derived base := ⟨"Base", rfl, hbase⟩
  have hback : r.HasBase base derived := ⟨"Derived", rfl, hderived⟩
  have hline : r.Lineage derived [derived, base] := by
    refine ⟨rfl, List.isChain_pair.2 hup, by decide, fun last hlast base' hbase' => ?_⟩
    obtain rfl : base = last := Option.some.inj hlast
    exact hback.unique hbase' ▸ List.mem_cons_self
  obtain ⟨fields, hfields, hkeys, -, hvalue⟩ := (inherited_fields hr hderived).2 _ hline
  refine ⟨hr, hderived, fields, hfields, hkeys, ?_, ?_⟩
  · exact hvalue [] derived [base] "a" _ rfl (by decide) rfl
  · exact hvalue [derived] base [] "b" _ rfl (by decide) rfl

end Registry

end TypeCorpus
