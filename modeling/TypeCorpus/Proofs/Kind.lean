import TypeCorpus.Proofs.Registry.Canonical

/-! Kinds and samples. The kind of a reference asks for a structure first and synthesis for an
enumeration first. They tell the same of every reference that resolves to a name, unless an
enumeration and a structure are registered under that name. -/

namespace TypeCorpus

variable {r : Registry} {ref name : String}

/-- A kind tells what the sample of a reference is. -/
structure Kind.Fits (ref : String) (k : Kind) (s : Sample) : Prop where
  struct : (∃ members, k = .struct members) ↔ ∃ fields, s = .record fields
  emptyEnum : k = .enum 0 ↔ s = .unknownEnum
  enum : (∃ enumerators, 0 < enumerators ∧ k = .enum enumerators) ↔ ∃ first, s = .enumerator first
  primitive : k = .primitive ↔
    (∃ b, s = .bool b) ∨ (∃ x, s = .float x) ∨ (∃ i, s = .int i) ∨ s = .genericString
  unknown : k = .unknown ↔ s = .unknownType ref

namespace Kind

theorem struct_fits_iff {members : ℕ} {s : Sample} :
    (Kind.struct members).Fits ref s ↔ ∃ fields, s = .record fields := by
  refine ⟨fun h => h.struct.1 ⟨members, rfl⟩, ?_⟩
  rintro ⟨fields, rfl⟩
  constructor <;> simp

theorem enum_fits (enumerators : List String) :
    (Kind.enum enumerators.length).Fits ref (.ofEnumerators enumerators) := by
  cases enumerators with
  | nil => constructor <;> simp [Sample.ofEnumerators]
  | cons first rest => constructor <;> simp [Sample.ofEnumerators]

theorem primitive_fits (p : Primitive) : Kind.primitive.Fits ref p.sample := by
  cases p <;> constructor <;> simp [Primitive.sample]

theorem unknown_fits : Kind.unknown.Fits ref (.unknownType ref) := by
  constructor <;> simp

end Kind

namespace Registry

/-- Where both an enumeration and a structure are registered under a name, its kind is the
structure's and its sample the enumeration's. -/
theorem kind_struct_of_both (hr : r.Coherent) (h : r.resolve? ref = .ok name)
    {enumerators : List String} {decl : StructDecl} (he : r.enums.get? name = some enumerators)
    (hs : r.structs.get? name = some decl) :
    r.kind ref name = .struct decl.members.length ∧
      (r.sample ref false).value = .ofEnumerators enumerators := by
  rw [kind_eq hr h, sample, scalarSample_eq_outcome, outcome_eq hr h, he, hs]
  exact ⟨rfl, rfl⟩

/-- A kind tells what the sample is exactly where no enumeration and structure share the name that
the reference resolves to; where they do, the kind is the structure's, the sample the
enumeration's. -/
theorem kind_fits_iff (hr : r.Reachable) (h : r.resolve? ref = .ok name) :
    ((r.kind ref name).Fits ref (r.sample ref false).value ↔
      ¬ (name ∈ r.enums.keys ∧ name ∈ r.structs.keys)) ∧
    ∀ enumerators decl, r.enums.get? name = some enumerators → r.structs.get? name = some decl →
      r.kind ref name = .struct decl.members.length ∧
        (r.sample ref false).value = .ofEnumerators enumerators := by
  have hc := hr.coherent
  refine ⟨?_, fun enumerators decl he hs => kind_struct_of_both hc h he hs⟩
  rw [Table.mem_keys_iff, Table.mem_keys_iff]
  cases he : r.enums.get? name with
  | some enumerators =>
    cases hs : r.structs.get? name with
    | some decl =>
      obtain ⟨hkind, hsample⟩ := kind_struct_of_both hc h he hs
      rw [hkind, hsample, Kind.struct_fits_iff]
      cases enumerators <;> simp [Sample.ofEnumerators]
    | none =>
      have hfits : (Kind.enum enumerators.length).Fits ref (.ofEnumerators enumerators) :=
        Kind.enum_fits enumerators
      rw [kind_eq hc h, sample, scalarSample_eq_outcome, outcome_eq hc h, he, hs]
      exact iff_of_true hfits (by simp)
  | none =>
    refine iff_of_true ?_ (by simp)
    rw [kind_eq hc h, sample, scalarSample_eq_outcome, outcome_eq hc h, he]
    cases hs : r.structs.get? name with
    | some decl => exact Kind.struct_fits_iff.2 ⟨_, rfl⟩
    | none =>
      cases hp : Primitive.ofName? name with
      | some p => exact Kind.primitive_fits p
      | none => exact Kind.unknown_fits

/-- A kind told through the short name of a reference with a path that nothing declares. -/
theorem kind_fits_foreign_path :
    let r := run [.enum "M::E" ["ON", "OFF"], .struct "M::S" { name := "M::S" }]
    r.resolve? "K::E" = .ok "M::E" ∧ ¬ ("M::E" ∈ r.enums.keys ∧ "M::E" ∈ r.structs.keys) ∧
      (r.kind "K::E" "M::E").Fits "K::E" (r.sample "K::E" false).value := by
  intro r
  have hstop : r.Stops "K::E" "M::E" := .shortName (by decide) (by decide) (by decide)
  have hr : r.resolve? "K::E" = .ok "M::E" := resolve?_eq_ok_iff.2 hstop.resolvesTo
  have hnot : ¬ ("M::E" ∈ r.enums.keys ∧ "M::E" ∈ r.structs.keys) := by decide
  exact ⟨hr, hnot, (kind_fits_iff ⟨_, rfl⟩ hr).1.2 hnot⟩

/-- A structure to the eye of the kind, and the enumerator of an enumeration as its sample. -/
theorem kind_misfits :
    let r := run [.enum "X" ["A"], .struct "X" { name := "X" }]
    r.resolve? "X" = .ok "X" ∧ r.kind "X" "X" = .struct 0 ∧
      (r.sample "X" false).value = .enumerator "A" ∧
      ¬ (r.kind "X" "X").Fits "X" (r.sample "X" false).value := by
  intro r
  have hstop : r.Stops "X" "X" := .shortName (by decide) (by decide) (by decide)
  have hr : r.resolve? "X" = .ok "X" := resolve?_eq_ok_iff.2 hstop.resolvesTo
  have hcoherent : r.Coherent := Reachable.coherent ⟨_, rfl⟩
  have henum : r.enums.get? "X" = some ["A"] := by decide
  have hstruct : r.structs.get? "X" = some { name := "X" } := by decide
  obtain ⟨hkind, hsample⟩ : r.kind "X" "X" = .struct 0 ∧
      (r.sample "X" false).value = .enumerator "A" :=
    kind_struct_of_both hcoherent hr henum hstruct
  refine ⟨hr, hkind, hsample, ?_⟩
  rw [hkind, hsample, Kind.struct_fits_iff]
  rintro ⟨fields, h⟩
  cases h

end Registry

end TypeCorpus
