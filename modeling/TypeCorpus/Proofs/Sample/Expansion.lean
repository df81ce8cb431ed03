import TypeCorpus.Proofs.Sample.Path
import TypeCorpus.Proofs.Table
import TypeCorpus.Sample.Synthesis

/-! Expansion of structures. A reference met during synthesis has a sample at once, or it is a
structure that is not being expanded; an expansion adds its name to those being expanded, and with
every one of them there are fewer left. What holds of all samples is proved by that induction. The
first such fact: no way down a sample meets more records than there are names of structures left. -/

namespace TypeCorpus

namespace StructDecl

/-- The references of a structure: to its base, if it has one, and to the types of its members. -/
def refs (decl : StructDecl) : List String :=
  (Member.given decl.baseType).toList ++ decl.members.filterMap Member.typeRef?

theorem mem_refs_of_base {decl : StructDecl} {ref : String}
    (h : Member.given decl.baseType = some ref) : ref ∈ decl.refs :=
  List.mem_append_left _ (h ▸ List.mem_singleton_self ref)

theorem mem_refs_of_member {decl : StructDecl} {m : Member} {ref : String} (hm : m ∈ decl.members)
    (h : m.typeRef? = some ref) : ref ∈ decl.refs :=
  List.mem_append_right _ (List.mem_filterMap.2 ⟨m, hm, h⟩)

/-- The last member of a name, which is the one whose value stays. -/
def lastMember? (decl : StructDecl) (name : String) : Option Member :=
  decl.members.reverse.find? (·.name = name)

theorem name_of_lastMember? {decl : StructDecl} {name : String} {m : Member}
    (h : decl.lastMember? name = some m) : m.name = name := by
  simpa using List.find?_some h

end StructDecl

namespace Sample

theorem RecordsWithin.repeatedIf {n : ℕ} {s : Sample} (h : s.RecordsWithin n) (isRepeated : Bool) :
    (Sample.repeatedIf isRepeated s).RecordsWithin n := by
  cases isRepeated with
  | false => exact h
  | true =>
    rw [Sample.repeatedIf, if_pos rfl, recordsWithin_list_iff]
    intro t ht
    rwa [List.mem_singleton.1 ht]

variable {scalar : String → Traced CycleNotice Sample}

/-- Writes the value of a member into the fields of a structure. -/
def write (scalar : String → Traced CycleNotice Sample) (fields : Table String Sample)
    (m : Member) : Traced CycleNotice (Table String Sample) := do
  let value ← ofMember scalar m
  pure (fields.insert m.name value)

def writeAll (scalar : String → Traced CycleNotice Sample) (fields : Table String Sample)
    (members : List Member) : Traced CycleNotice (Table String Sample) :=
  members.foldlM (write scalar) fields

theorem writeAll_cons (fields : Table String Sample) (m : Member) (members : List Member) :
    writeAll scalar fields (m :: members) =
      write scalar fields m >>= fun fields => writeAll scalar fields members := rfl

theorem ofStruct_eq (decl : StructDecl) :
    ofStruct scalar decl =
      ofBase scalar decl.baseType >>= fun base => writeAll scalar base decl.members := rfl

theorem value_writeAll (fields : Table String Sample) (members : List Member) :
    (writeAll scalar fields members).value =
      fields.extend (members.map fun m => (m.name, (ofMember scalar m).value)) := by
  induction members generalizing fields with
  | nil => rfl
  | cons m members ih =>
    rw [writeAll_cons, Traced.value_bind, ih]
    rfl

/-- Under the name of a member stands the value of the last one, over what there was before. -/
theorem get?_writeAll (fields : Table String Sample) (decl : StructDecl) (name : String) :
    (writeAll scalar fields decl.members).value.get? name =
      ((decl.lastMember? name).map fun m => (ofMember scalar m).value).or (fields.get? name) := by
  rw [value_writeAll, Table.get?_extend, Table.last?_map]
  rfl

theorem forall_mem_writeAll {P : String × Sample → Prop} {members : List Member}
    (hmember : ∀ m ∈ members, P (m.name, (ofMember scalar m).value)) {fields : Table String Sample}
    (hfields : ∀ e ∈ fields, P e) : ∀ e ∈ (writeAll scalar fields members).value, P e := by
  intro e he
  rw [value_writeAll] at he
  rcases Table.mem_extend he with he | he
  · obtain ⟨m, hm, rfl⟩ := List.mem_map.1 he
    exact hmember m hm
  · exact hfields e he

/-- What holds of the fields of the record that a base can be and of every member with its value
holds of the fields of a structure. -/
theorem forall_mem_ofStruct {P : String × Sample → Prop} (decl : StructDecl)
    (hbase : ∀ ref ∈ decl.refs, ∀ fields, (scalar ref).value = .record fields → ∀ e ∈ fields, P e)
    (hmember : ∀ m ∈ decl.members, P (m.name, (ofMember scalar m).value)) :
    ∀ e ∈ (ofStruct scalar decl).value, P e := by
  rw [ofStruct_eq, Traced.value_bind]
  refine forall_mem_writeAll hmember fun e he => ?_
  simp only [ofBase] at he
  split at he
  · next ref href =>
    rw [Traced.value_map] at he
    cases hs : (scalar ref).value with
    | record fields =>
      rw [hs] at he
      exact hbase ref (StructDecl.mem_refs_of_base href) fields hs e he
    | _ =>
      rw [hs] at he
      cases he
  · cases he

/-- The fields of a structure depend on the samples of its references only. -/
theorem ofStruct_congr {scalar' : String → Traced CycleNotice Sample} {decl : StructDecl}
    (h : ∀ ref ∈ decl.refs, scalar ref = scalar' ref) :
    ofStruct scalar decl = ofStruct scalar' decl := by
  have hbase : ofBase scalar decl.baseType = ofBase scalar' decl.baseType := by
    simp only [ofBase]
    split
    · next ref href => rw [h ref (StructDecl.mem_refs_of_base href)]
    · rfl
  have hmember : ∀ m ∈ decl.members, ofMember scalar m = ofMember scalar' m := by
    intro m hm
    simp only [ofMember]
    split
    · next ref href => rw [h ref (StructDecl.mem_refs_of_member hm href)]
    · rfl
  have hwrite : ∀ members : List Member, (∀ m ∈ members, ofMember scalar m = ofMember scalar' m) →
      ∀ fields, writeAll scalar fields members = writeAll scalar' fields members := by
    intro members
    induction members with
    | nil => exact fun _ _ => rfl
    | cons m members ih =>
      intro hm fields
      have hrest := ih fun m' hm' => hm m' (List.mem_cons_of_mem _ hm')
      simp only [writeAll_cons, write, hm m List.mem_cons_self, hrest]
  simp only [ofStruct_eq, hbase, hwrite _ hmember]

end Sample

namespace Registry

variable {r : Registry} {expanding : List String} {ref : String} {decl : StructDecl}

/-- What becomes of a reference while some structures are being expanded: a sample at once, with
what is noted on the way, or a structure to expand. -/
inductive Outcome where
  | settled (s : Sample) (notices : List CycleNotice)
  | expand (decl : StructDecl)

def outcome (r : Registry) (expanding : List String) (ref : String) : Outcome :=
  match r.resolve? ref with
  | .error cycle => .settled (.unknownType ref) [.placeholder ref cycle]
  | .ok name =>
    match r.enum? name with
    | some enumerators => .settled (.ofEnumerators enumerators) []
    | none =>
      match r.struct? name with
      | some decl =>
        if decl.name ∈ expanding then .settled (.recursiveType ref) [] else .expand decl
      | none =>
        match Primitive.ofName? name with
        | some p => .settled p.sample []
        | none => .settled (.unknownType ref) []

theorem scalarSample_eq_outcome (r : Registry) (expanding : List String) (ref : String) :
    r.scalarSample expanding ref =
      match r.outcome expanding ref with
      | .settled s notices => ⟨s, notices⟩
      | .expand decl =>
        .record <$> Sample.ofStruct (r.scalarSample (decl.name :: expanding)) decl := by
  rw [scalarSample, outcome]
  cases r.resolve? ref with
  | error cycle => rfl
  | ok name =>
    simp only
    cases r.enum? name with
    | some enumerators => rfl
    | none =>
      simp only
      split
      · next decl hd =>
        simp only [hd]
        split <;> rfl
      · next hd =>
        simp only [hd]
        cases Primitive.ofName? name <;> rfl

/-- A structure to expand is registered and not being expanded. -/
theorem mem_unexpanded_of_expand (h : r.outcome expanding ref = .expand decl) :
    decl.name ∈ r.unexpanded expanding := by
  simp only [outcome] at h
  split at h
  · cases h
  · split at h
    · cases h
    · split at h
      · next hd =>
        split at h
        · cases h
        · next hn =>
          cases h
          exact List.mem_filter.2
            ⟨List.mem_map_of_mem (mem_values_of_lookup? hd), by simpa using hn⟩
      · split at h <;> cases h

theorem exists_get?_of_lookup? {α : Type} {table : Table String α} {a : α}
    (h : r.lookup? table ref = some a) : ∃ name, table.get? name = some a := by
  simp only [lookup?] at h
  split at h
  · cases h
  · split at h
    · cases h; exact ⟨_, ‹_›⟩
    · obtain ⟨name, -, hname⟩ := Option.bind_eq_some_iff.1 h
      exact ⟨name, hname⟩

/-- A sample that is there at once is a placeholder with its reference, that of a registered
enumeration, or that of a primitive family. -/
theorem settled_cases {s : Sample} {notices : List CycleNotice}
    (h : r.outcome expanding ref = .settled s notices) :
    s = .unknownType ref ∨ s = .recursiveType ref ∨
      (∃ name enumerators, r.enums.get? name = some enumerators ∧
        s = .ofEnumerators enumerators) ∨ ∃ p : Primitive, s = p.sample := by
  simp only [outcome] at h
  split at h
  · cases h; exact .inl rfl
  · split at h
    · next enumerators henum =>
      cases h
      obtain ⟨name, hname⟩ := exists_get?_of_lookup? henum
      exact .inr (.inr (.inl ⟨name, enumerators, hname, rfl⟩))
    · split at h
      · split at h
        · cases h; exact .inr (.inl rfl)
        · cases h
      · split at h
        · cases h; exact .inr (.inr (.inr ⟨_, rfl⟩))
        · cases h; exact .inl rfl

/-- A sample that is there at once holds no other. -/
theorem isLeaf_of_settled {s : Sample} {notices : List CycleNotice}
    (h : r.outcome expanding ref = .settled s notices) : s.IsLeaf := by
  obtain rfl | rfl | ⟨name, enumerators, -, rfl⟩ | ⟨p, rfl⟩ := settled_cases h
  · exact ⟨rfl, rfl⟩
  · exact ⟨rfl, rfl⟩
  · cases enumerators <;> exact ⟨rfl, rfl⟩
  · cases p <;> exact ⟨rfl, rfl⟩

theorem notMem_of_expand (h : r.outcome expanding ref = .expand decl) : decl.name ∉ expanding := by
  have := (List.mem_filter.1 (mem_unexpanded_of_expand h)).2
  simpa using this

theorem unexpanded_cons (r : Registry) (name : String) (expanding : List String) :
    r.unexpanded (name :: expanding) = (r.unexpanded expanding).filter (· ≠ name) := by
  rw [unexpanded, unexpanded, List.filter_filter]
  congr 1
  funext x
  simp

/-- Induction on the structures left to expand. -/
theorem expansion_induction {motive : List String → String → Prop}
    (step : ∀ expanding ref, (∀ decl, r.outcome expanding ref = .expand decl →
      ∀ ref', motive (decl.name :: expanding) ref') → motive expanding ref)
    (expanding : List String) (ref : String) : motive expanding ref :=
  step expanding ref fun decl h ref' =>
    have : (r.unexpanded (decl.name :: expanding)).length < (r.unexpanded expanding).length :=
      length_filter_notMem_lt (List.mem_filter.1 (mem_unexpanded_of_expand h)).1
        (notMem_of_expand h)
    expansion_induction step (decl.name :: expanding) ref'
termination_by (r.unexpanded expanding).length

/-! ### Records within records -/

theorem recordsWithin_ofMember {scalar : String → Traced CycleNotice Sample} {n : ℕ}
    (h : ∀ ref, (scalar ref).value.RecordsWithin n) (m : Member) :
    (Sample.ofMember scalar m).value.RecordsWithin n := by
  simp only [Sample.ofMember]
  split
  · next ref _ => exact ((h ref).repeatedIf m.isRepeated).labelled m.name
  · exact Sample.IsLeaf.recordsWithin ⟨rfl, rfl⟩ n

theorem card_unexpanded_lt (h : r.outcome expanding ref = .expand decl) :
    (r.unexpanded (decl.name :: expanding)).toFinset.card <
      (r.unexpanded expanding).toFinset.card := by
  rw [unexpanded_cons, List.toFinset_filter]
  refine Finset.card_lt_card (Finset.filter_ssubset.2 ⟨decl.name, ?_, by simp⟩)
  exact List.mem_toFinset.2 (mem_unexpanded_of_expand h)

theorem recordsWithin_scalarSample (r : Registry) (expanding : List String) (ref : String) :
    (r.scalarSample expanding ref).value.RecordsWithin (r.unexpanded expanding).toFinset.card := by
  induction expanding, ref using expansion_induction (r := r) with
  | step expanding ref ih =>
    rw [scalarSample_eq_outcome]
    cases ho : r.outcome expanding ref with
    | settled s notices => exact (isLeaf_of_settled ho).recordsWithin _
    | expand decl =>
      have hrecord := Sample.recordsWithin_record_iff.2 <| Sample.forall_mem_ofStruct decl
        (fun base _ fields hfields e he =>
          (hfields ▸ ih decl ho base).of_holds (List.mem_map_of_mem he))
        (fun m _ => recordsWithin_ofMember (ih decl ho) m)
      exact hrecord.mono (Nat.succ_le_of_lt (card_unexpanded_lt ho))

theorem recordsWithin_sample (r : Registry) (ref : String) (isRepeated : Bool) :
    (r.sample ref isRepeated).value.RecordsWithin
      (r.structs.values.map StructDecl.name).toFinset.card := by
  have h := r.recordsWithin_scalarSample [] ref
  have hall : r.unexpanded [] = r.structs.values.map StructDecl.name := by simp [unexpanded]
  rw [hall] at h
  rw [sample, Traced.value_map]
  exact h.repeatedIf isRepeated

end Registry

end TypeCorpus
