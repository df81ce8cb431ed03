import TypeCorpus.Primitive
import TypeCorpus.Registry.Resolution
import TypeCorpus.Sample.Basic

/-! Synthesis of samples. A reference is resolved; an enumeration gives its first enumerator, a
structure a record of its base's fields and then its own members, a primitive the sample of its
family, and anything else a placeholder with the reference as it was written. A structure that is
being expanded is not expanded again; so each expansion leaves fewer names to expand, and synthesis
ends on every registry. -/

namespace TypeCorpus

/-- The sample that stands for a primitive family. -/
def Primitive.sample : Primitive → Sample
  | boolean => .bool false
  | float => .float (.finite .one)
  | integer => .int 1
  | text => .genericString

namespace Registry

/-- The names of registered structures that are not being expanded. -/
def unexpanded (r : Registry) (expanding : List String) : List String :=
  (r.structs.values.map StructDecl.name).filter (· ∉ expanding)

theorem mem_values_of_get? {κ α : Type} [DecidableEq κ] {t : Table κ α} {k : κ} {a : α}
    (h : t.get? k = some a) : a ∈ t.values := by
  induction t with
  | nil => cases h
  | cons e t ih =>
    simp only [Table.get?] at h
    split at h
    · cases h; simp [Table.values]
    · exact List.mem_cons_of_mem _ (ih h)

theorem mem_values_of_lookup? {r : Registry} {α : Type} {table : Table String α} {ref : String}
    {a : α} (h : r.lookup? table ref = some a) : a ∈ table.values := by
  simp only [lookup?] at h
  split at h
  · cases h
  · split at h
    · cases h; exact mem_values_of_get? ‹_›
    · obtain ⟨name, _, hn⟩ := Option.bind_eq_some_iff.1 h
      exact mem_values_of_get? hn

theorem length_unexpanded_lt {r : Registry} {expanding : List String} {ref : String}
    {decl : StructDecl} (h : r.struct? ref = some decl) (hn : decl.name ∉ expanding) :
    (r.unexpanded (decl.name :: expanding)).length < (r.unexpanded expanding).length :=
  length_filter_notMem_lt (List.mem_map_of_mem (mem_values_of_lookup? h)) hn

end Registry

namespace Sample

/-- The sample of an enumeration. -/
def ofEnumerators : List String → Sample
  | [] => unknownEnum
  | first :: _ => enumerator first

/-- A repeated sample is a list of one. -/
def repeatedIf (isRepeated : Bool) (s : Sample) : Sample := if isRepeated then list [s] else s

/-- The value of a member, given the samples of references. -/
def ofMember (scalar : String → Traced CycleNotice Sample) (m : Member) :
    Traced CycleNotice Sample :=
  match m.typeRef? with
  | some ref => (fun s => labelled m.name (repeatedIf m.isRepeated s)) <$> scalar ref
  | none => pure (unknownType "")

/-- The fields that a base contributes: those of its record, if its sample is one. -/
def ofBase (scalar : String → Traced CycleNotice Sample) (base : Option String) :
    Traced CycleNotice (Table String Sample) :=
  match Member.given base with
  | some ref => (fun s => s.fields?.getD []) <$> scalar ref
  | none => pure []

/-- The fields of a structure: the base's, then each member's written over them. -/
def ofStruct (scalar : String → Traced CycleNotice Sample) (decl : StructDecl) :
    Traced CycleNotice (Table String Sample) := do
  let base ← ofBase scalar decl.baseType
  decl.members.foldlM (fun fields m => do
    let value ← ofMember scalar m
    pure (fields.insert m.name value)) base

end Sample

namespace Registry

/-- The sample of one value of a reference, while some structures are being expanded. -/
def scalarSample (r : Registry) (expanding : List String) (ref : String) :
    Traced CycleNotice Sample :=
  match r.resolve? ref with
  | .error cycle => ⟨.unknownType ref, [.placeholder ref cycle]⟩
  | .ok name =>
    match r.enum? name with
    | some enumerators => pure (.ofEnumerators enumerators)
    | none =>
      match _h : r.struct? name with
      | some decl =>
        if decl.name ∈ expanding then pure (.recursiveType ref)
        else .record <$> Sample.ofStruct (r.scalarSample (decl.name :: expanding)) decl
      | none =>
        match Primitive.ofName? name with
        | some p => pure p.sample
        | none => pure (.unknownType ref)
termination_by (r.unexpanded expanding).length
decreasing_by exact length_unexpanded_lt _h ‹_›

/-- The sample of a reference, as a list of one where it is repeated. -/
def sample (r : Registry) (ref : String) (isRepeated : Bool) : Traced CycleNotice Sample :=
  Sample.repeatedIf isRepeated <$> r.scalarSample [] ref

end Registry

end TypeCorpus
