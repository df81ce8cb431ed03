import TypeCorpus.Proofs.Registry.Canonical

/-! Aliases. Synthesis reads a reference only through the name that it resolves to, except for the
text of the placeholder that stands where this name means nothing. So all references that resolve to
one name, and the name itself, have one sample, or each of them a placeholder of its own. -/

namespace TypeCorpus.Registry

variable {r : Registry} {ref ref' name : String}

/-- Two references have the same samples, which are no placeholder for an unknown reference, or each
of them has the placeholder with its own text. -/
inductive SampledAlike (r : Registry) (ref ref' : String) : Prop where
  | same (known : ∀ t, (r.sample ref false).value ≠ .unknownType t)
      (eq : ∀ isRepeated, r.sample ref isRepeated = r.sample ref' isRepeated)
  | unknown
      (left : ∀ isRepeated,
        r.sample ref isRepeated = pure (.repeatedIf isRepeated (.unknownType ref)))
      (right : ∀ isRepeated,
        r.sample ref' isRepeated = pure (.repeatedIf isRepeated (.unknownType ref')))

/-- At the outset, where no structure is being expanded, what becomes of a reference is told by the
name that it resolves to. -/
theorem outcome_of_name (hr : r.Coherent) (name : String) :
    (∃ o : Outcome, (∀ t notices, o ≠ .settled (.unknownType t) notices) ∧
      ∀ ref, r.resolve? ref = .ok name → r.outcome [] ref = o) ∨
    ∀ ref, r.resolve? ref = .ok name → r.outcome [] ref = .settled (.unknownType ref) [] := by
  cases henum : r.enums.get? name with
  | some enumerators =>
    refine .inl ⟨.settled (.ofEnumerators enumerators) [], fun t notices h => ?_, fun ref h => ?_⟩
    · cases enumerators <;> cases h
    · rw [outcome_eq hr h, henum]
  | none =>
    cases hstruct : r.structs.get? name with
    | some decl =>
      refine .inl ⟨.expand decl, fun t notices h => (by cases h), fun ref h => ?_⟩
      rw [outcome_eq hr h, henum, hstruct]
      exact if_neg List.not_mem_nil
    | none =>
      cases hprimitive : Primitive.ofName? name with
      | some p =>
        refine .inl ⟨.settled p.sample [], fun t notices h => ?_, fun ref h => ?_⟩
        · cases p <;> cases h
        · rw [outcome_eq hr h, henum, hstruct, hprimitive]
      | none =>
        refine .inr fun ref h => ?_
        rw [outcome_eq hr h, henum, hstruct, hprimitive]

/-- Outcomes that are the same give the same sample. -/
theorem sample_congr (h : r.outcome [] ref = r.outcome [] ref') (isRepeated : Bool) :
    r.sample ref isRepeated = r.sample ref' isRepeated := by
  rw [sample, sample, scalarSample_eq_outcome r [] ref, h, ← scalarSample_eq_outcome]

theorem sample_of_settled {s : Sample} (h : r.outcome [] ref = .settled s []) (isRepeated : Bool) :
    r.sample ref isRepeated = pure (.repeatedIf isRepeated s) := by
  rw [sample, scalarSample_eq_outcome, h]
  rfl

theorem value_sample_ne {t : String}
    (h : ∀ notices, r.outcome [] ref ≠ .settled (.unknownType t) notices) :
    (r.sample ref false).value ≠ .unknownType t := by
  rw [sample, Traced.value_map, scalarSample_eq_outcome]
  cases ho : r.outcome [] ref with
  | settled s notices =>
    rintro rfl
    exact h notices ho
  | expand decl => exact fun hrecord => by cases hrecord

theorem sampledAlike_of_resolve? (hr : r.Coherent) (h : r.resolve? ref = .ok name)
    (h' : r.resolve? ref' = .ok name) : r.SampledAlike ref ref' := by
  rcases outcome_of_name hr name with ⟨o, hne, ho⟩ | ho
  · refine .same (fun t => value_sample_ne fun notices hu => ?_)
      (sample_congr ((ho ref h).trans (ho ref' h').symm))
    exact hne t notices ((ho ref h).symm.trans hu)
  · exact .unknown (sample_of_settled (ho ref h)) (sample_of_settled (ho ref' h'))

/-- A reference is sampled like the name that it resolves to, and like every other reference that
resolves to this name. -/
theorem alias_sampledAlike (hr : r.Reachable) (h : r.resolve? ref = .ok name) :
    r.SampledAlike ref name ∧ ∀ ref', r.resolve? ref' = .ok name → r.SampledAlike ref ref' :=
  ⟨sampledAlike_of_resolve? hr.coherent h (resolve?_self hr.coherent h),
    fun _ h' => sampledAlike_of_resolve? hr.coherent h h'⟩

/-- A short name of a typedef of a foreign path, and that path. -/
theorem alias_of_short_typedef :
    let decl : StructDecl := { name := "M::S", members := [{ name := "x", typeName := some "T" }] }
    let r := run [.struct "M::S" decl, Operation.typedef "M::T" "K::S"]
    r.resolve? "T" = .ok "M::S" ∧ r.resolve? "K::S" = .ok "M::S" ∧
      r.SampledAlike "T" "M::S" ∧ r.SampledAlike "T" "K::S" := by
  intro decl r
  have hstop : r.Stops "K::S" "M::S" := .shortName (by decide) (by decide) (by decide)
  have hfull : r.fullName? (Name.short "T") = some "M::T" := by decide
  have hstep : r.Continues "T" "K::S" := .shortName (by decide) hfull (by decide)
  have hS : r.resolve? "K::S" = .ok "M::S" := resolve?_eq_ok_iff.2 hstop.resolvesTo
  have hT : r.resolve? "T" = .ok "M::S" :=
    resolve?_eq_ok_iff.2 (hstep.resolvesTo_iff.2 hstop.resolvesTo)
  obtain ⟨hself, hother⟩ := alias_sampledAlike ⟨_, rfl⟩ hT
  exact ⟨hT, hS, hself, hother "K::S" hS⟩

end TypeCorpus.Registry
